import AcrnUt.Chain
import AcrnUt.PciBar
import AcrnUt.PciConf1

/-!
# Configuration space

The 256 bytes of a function's configuration space, and what `lib/pci.c` reads and writes
there. `pci_cap_walk` follows the list of capabilities with a counter : it calls its handler
on a list that ends, in order, and on a list that does not it stops in an assertion
(`pciCapWalk_spec`). Offsets are bytes, and the one after 255 is 0, so a list that ends has at
most 255 of them.

That is the list as `pci_config_readb` shows it. The one of x86 gives the first byte of the dword
for each byte in it, and so takes the id of an aligned capability for the offset of the next one.
The walk is right exactly where the bytes that matter do not tell the difference
(`ConfSpace.walksList_iff`).

`pci_bar_size` writes two registers and reads them back. On a function whose BARs are laid
out as `BarLayout` says, it computes what it computes from the registers alone
(`PciFunction.pciBarSize_conf`), and leaves every byte as it was.
-/

set_option linter.unusedSectionVars false

namespace AcrnUt

/-- The bytes of the configuration space of a function. -/
abbrev ConfSpace := BitVec 8 → BitVec 8

/-- The two back ends of the accessors : the window of the host bridge, and the ports of x86. -/
inductive PciBackend
  | ecam
  | conf1
  deriving DecidableEq

namespace ConfSpace

/-- `pci_config_readb`, which through the ports gives the first byte of the dword. -/
def readb (s : ConfSpace) : PciBackend → BitVec 8 → BitVec 8
  | .ecam, reg => s reg
  | .conf1, reg => s (reg &&& ~~~3)

/-- `pci_config_readl`, at the first register of a dword. -/
def readl (s : ConfSpace) (reg : BitVec 8) : BitVec 32 :=
  s (reg + 3) ++ s (reg + 2) ++ s (reg + 1) ++ s reg

/-- The bytes after a store of a word. -/
def storel (s : ConfSpace) (reg : BitVec 8) (v : BitVec 32) : ConfSpace := fun r =>
  if (r - reg).toNat < 4 then v.extractLsb' (8 * (r - reg).toNat) 8 else s r

/-- The offset of the next capability. -/
def capNext (s : ConfSpace) (off : BitVec 8) : BitVec 8 :=
  s (off + 1)

end ConfSpace

/-! ## The two back ends -/

section Backend

variable (dev : BitVec 16) (reg : BitVec 8)

/-- The first 256 bytes of a function. -/
def PciSpaces.conf (s : PciSpaces) : ConfSpace := fun reg => s dev (reg.setWidth 12)

theorem PciSpaces.load_byte (s : PciSpaces) (r : BitVec 12) : s.load dev 8 r = s dev r := by
  refine BitVec.eq_of_getLsbD_eq fun i hi => ?_
  have hbit := @getLsbD_ofBytes 1 i (fun k => s dev (r + BitVec.ofNat 12 k)) hi
  rw [Nat.div_eq_of_lt hi, Nat.mod_eq_of_lt hi, BitVec.add_zero] at hbit
  exact hbit

theorem dwordOf_eq : dwordOf reg = (reg &&& ~~~3).setWidth 12 := by
  apply BitVec.eq_of_toNat_eq
  revert reg
  decide

/-- `pci_config_readb` of `lib/pci-host-generic.c`. -/
theorem readb_ecam {w : ℕ} (hw : 28 ≤ w) (host : PciEcam) :
    PciEcam.pciConfigReadb w dev reg host = (host.space.conf dev).readb .ecam reg := by
  rw [PciEcam.pciConfigReadb, ecam_read dev reg hw, PciSpaces.load_byte]
  rfl

/-- `pci_config_readb` of `lib/x86/asm/pci.h`. -/
theorem readb_conf1 (s : PciConf1) :
    (PciConf1.pciConfigReadb dev reg s).1 = (s.space.conf dev).readb .conf1 reg := by
  rw [PciConf1.pciConfigReadb, pciConf1_read, PciSpaces.load_byte, dwordOf_eq]
  rfl

end Backend

/-! ## The walk -/

section Walk

variable {σ : Type*}

/-- `PCI_CAP_ID_MAX`. -/
def pciCapIdMax : BitVec 8 := 0x14

/-- The loop of `pci_cap_walk` : what its handler made of the state, and whether it came to the
end of the list. -/
def pciCapWalk.loop (readb : BitVec 8 → BitVec 8) (handler : σ → BitVec 8 → BitVec 8 → σ) :
    ℕ → BitVec 8 → ℕ → σ → Option (σ × Bool)
  | 0, _, _, _ => none
  | fuel + 1, capOffset, count, st =>
    if capOffset = 0 then some (st, true)
    else
      let capId := readb capOffset
      if capId.toNat < pciCapIdMax.toNat + 1 then
        let st := handler st capOffset capId
        let capOffset := readb (capOffset + 1)
        let count := count + 1
        if count ≤ 255 then pciCapWalk.loop readb handler fuel capOffset count st
        else some (st, false)
      else some (st, false)

/-- `pci_cap_walk`, with `pci_config_readb` on the function. -/
def pciCapWalk (fuel : ℕ) (readb : BitVec 8 → BitVec 8) (handler : σ → BitVec 8 → BitVec 8 → σ)
    (st : σ) : Option (σ × Bool) :=
  pciCapWalk.loop readb handler fuel (readb 0x34) 0 st

/-- The handler, called on the capabilities at the offsets of a list. -/
def capCalls (s : ConfSpace) (handler : σ → BitVec 8 → BitVec 8 → σ) (st : σ)
    (l : List (BitVec 8)) : σ :=
  l.foldl (fun st off => handler st off (s off)) st

/-- The ids of the capabilities are known ones. -/
def KnownIds (s : ConfSpace) (l : List (BitVec 8)) : Prop :=
  ∀ off ∈ l, s off ≤ pciCapIdMax

/-- The list of capabilities comes to 0 without repetition, and its ids are known ones. -/
def CapList (s : ConfSpace) (l : List (BitVec 8)) : Prop :=
  Seg s.capNext (s 0x34) l 0 ∧ 0 ∉ l ∧ l.Nodup ∧ KnownIds s l

variable {s : ConfSpace} {handler : σ → BitVec 8 → BitVec 8 → σ} {st : σ} {l : List (BitVec 8)}
  {off q : BitVec 8} {fuel count : ℕ}

theorem known_iff {id : BitVec 8} : id.toNat < pciCapIdMax.toNat + 1 ↔ id ≤ pciCapIdMax := by
  rw [BitVec.le_def, Nat.lt_succ_iff]

/-- A walk takes the capabilities of a segment one by one. -/
theorem walk_seg (h : Seg s.capNext off l q) (hnull : 0 ∉ l) (hids : KnownIds s l)
    (hcount : count + l.length ≤ 255) :
    pciCapWalk.loop s handler (fuel + l.length) off count st =
      pciCapWalk.loop s handler fuel q (count + l.length) (capCalls s handler st l) := by
  induction l generalizing off count st with
  | nil =>
    rw [seg_nil] at h
    rw [h]
    rfl
  | cons a l ih =>
    obtain ⟨rfl, h⟩ := seg_cons.mp h
    rw [List.length_cons] at hcount ⊢
    have hne : off ≠ 0 := fun h0 => hnull (h0 ▸ List.mem_cons_self)
    have hid := known_iff.mpr (hids off List.mem_cons_self)
    rw [← add_assoc]
    conv_lhs => unfold pciCapWalk.loop
    simp only [if_neg hne, if_pos hid, if_pos (show count + 1 ≤ 255 by omega)]
    rw [show count + (l.length + 1) = count + 1 + l.length by omega]
    exact ih h (fun h0 => hnull (List.mem_cons_of_mem _ h0))
      (fun o ho => hids o (List.mem_cons_of_mem _ ho)) (by omega)

/-- Every walk calls its handler on a segment of the list of capabilities with known ids, and ends
at the end of the list, at an id that is not known, or with the counter at 256. -/
theorem walk_calls (hcount : count ≤ 255) (hfuel : 256 ≤ fuel + count) :
    ∃ l q ok, Seg s.capNext off l q ∧ 0 ∉ l ∧ KnownIds s l ∧
      pciCapWalk.loop s handler fuel off count st = some (capCalls s handler st l, ok) ∧
      (ok = true → q = 0) ∧ (ok = false → ¬s q ≤ pciCapIdMax ∨ count + l.length = 256) := by
  induction fuel generalizing off count st with
  | zero => omega
  | succ fuel ih =>
    unfold pciCapWalk.loop
    by_cases hend : off = 0
    · exact ⟨[], off, true, rfl, List.not_mem_nil, by simp [KnownIds], if_pos hend, fun _ => hend,
        by simp⟩
    rw [if_neg hend]
    by_cases hid : (s off).toNat < pciCapIdMax.toNat + 1
    · simp only [if_pos hid]
      by_cases hlast : count + 1 ≤ 255
      · obtain ⟨l, q, ok, hseg, hnull, hids, hrun, hok, hfail⟩ := @ih (handler st off (s off))
          (s (off + 1)) (count + 1) hlast (by omega)
        refine ⟨off :: l, q, ok, seg_cons.mpr ⟨rfl, hseg⟩, ?_, ?_, ?_, hok, fun hbad => ?_⟩
        · exact List.not_mem_cons_of_ne_of_not_mem (Ne.symm hend) hnull
        · exact List.forall_mem_cons.mpr ⟨known_iff.mp hid, hids⟩
        · rw [if_pos hlast, hrun]
          rfl
        · rcases hfail hbad with hid | hlen
          · exact Or.inl hid
          · refine Or.inr ?_
            rw [List.length_cons]
            omega
      · refine ⟨[off], s.capNext off, false, by simp, by simpa using Ne.symm hend, ?_, ?_, by simp,
          fun _ => Or.inr ?_⟩
        · exact List.forall_mem_cons.mpr ⟨known_iff.mp hid, by simp⟩
        · rw [if_neg hlast]
          rfl
        · rw [List.length_singleton]
          omega
    · refine ⟨[], off, false, rfl, List.not_mem_nil, by simp [KnownIds], ?_, by simp,
        fun _ => Or.inl fun hle => hid (known_iff.mpr hle)⟩
      rw [if_neg hid]
      rfl

/-- More fuel does not change a walk that ended. -/
theorem walk_mono {r : σ × Bool} {fuel' : ℕ} (hfuel : fuel ≤ fuel')
    (h : pciCapWalk.loop s handler fuel off count st = some r) :
    pciCapWalk.loop s handler fuel' off count st = some r := by
  induction fuel generalizing off count st fuel' with
  | zero => simp [pciCapWalk.loop] at h
  | succ fuel ih =>
    obtain ⟨fuel', rfl⟩ : ∃ k, fuel' = k + 1 := ⟨fuel' - 1, by omega⟩
    unfold pciCapWalk.loop at h ⊢
    simp only at h ⊢
    split_ifs at h ⊢
    · exact h
    · exact ih (by omega) h
    · exact h
    · exact h

/-- Offsets are bytes, so at most 255 capabilities are different. -/
theorem length_le_of_nodup (hnull : 0 ∉ l) (hnodup : l.Nodup) : l.length ≤ 255 := by
  have hnodup' : (0 :: l).Nodup := List.nodup_cons.mpr ⟨hnull, hnodup⟩
  have hinj : Function.Injective (BitVec.toFin : BitVec 8 → Fin 256) :=
    fun _ _ => BitVec.eq_of_toFin_eq
  have hcard := (hnodup'.map hinj).length_le_card
  rw [List.length_map, List.length_cons, Fintype.card_fin] at hcard
  omega

/-- A list that ends, with known ids, is walked from end to end. -/
theorem walk_of_capList (h : CapList s l) (hfuel : 256 ≤ fuel) :
    pciCapWalk fuel s handler st = some (capCalls s handler st l, true) := by
  obtain ⟨hseg, hnull, hnodup, hids⟩ := h
  have hlen := length_le_of_nodup hnull hnodup
  obtain ⟨fuel', rfl⟩ : ∃ k, fuel = k + 1 + l.length := ⟨fuel - 1 - l.length, by omega⟩
  unfold pciCapWalk
  rw [walk_seg hseg hnull hids (by omega)]
  rfl

/-- The walk, on any bytes that are read : it ends. On a list of capabilities with known ids that
comes to 0 without repetition it calls its handler on each of them in order, and otherwise it fails,
after calls on a part of the list. -/
theorem pciCapWalk_spec (s : ConfSpace) (handler : σ → BitVec 8 → BitVec 8 → σ) (st : σ) :
    (∀ l, CapList s l →
      ∀ fuel ≥ 256, pciCapWalk fuel s handler st = some (capCalls s handler st l, true)) ∧
    ((¬∃ l, CapList s l) →
      ∃ l q, Seg s.capNext (s 0x34) l q ∧ 0 ∉ l ∧ KnownIds s l ∧
        ∀ fuel ≥ 256, pciCapWalk fuel s handler st = some (capCalls s handler st l, false)) := by
  refine ⟨fun l hl fuel hfuel => walk_of_capList hl hfuel, ?_⟩
  intro hbad
  obtain ⟨l, q, ok, hseg, hnull, hids, hrun, hok, -⟩ :=
    @walk_calls σ s handler st (s 0x34) 256 0 (by norm_num) (by norm_num)
  cases ok with
  | true =>
    obtain rfl := hok rfl
    have hchain : Chain s.capNext 0 (s 0x34) l := ⟨hseg, hnull⟩
    exact absurd ⟨l, hseg, hnull, hchain.nodup, hids⟩ hbad
  | false => exact ⟨l, q, hseg, hnull, hids, fun fuel hfuel => walk_mono hfuel hrun⟩

/-! ## What is walked on each back end -/

/-- An offset of the list of capabilities, which may go round and round. -/
def OnCapList (s : ConfSpace) (off : BitVec 8) : Prop :=
  ∃ l q, Seg s.capNext (s 0x34) l q ∧ 0 ∉ l ∧ off ∈ l

/-- One that is reached by known ids. -/
def OnKnownList (s : ConfSpace) (off : BitVec 8) : Prop :=
  ∃ l q, Seg s.capNext (s 0x34) l q ∧ 0 ∉ l ∧ KnownIds s l ∧ off ∈ l

/-- What the walk of a function's capabilities should do, whatever its handler is : on a list that
ends it calls the handler on each capability in order, with its id, and otherwise it fails, after
calls at offsets of the list. -/
def ConfSpace.WalksList (s : ConfSpace) (b : PciBackend) : Prop :=
  ∀ (σ : Type) (handler : σ → BitVec 8 → BitVec 8 → σ) (st : σ),
    (∀ l, CapList s l → ∀ fuel ≥ 256,
      pciCapWalk fuel (s.readb b) handler st = some (capCalls s handler st l, true)) ∧
    ((¬∃ l, CapList s l) → ∃ calls : List (BitVec 8 × BitVec 8),
      (∀ call ∈ calls, OnCapList s call.1) ∧ ∀ fuel ≥ 256,
        pciCapWalk fuel (s.readb b) handler st =
          some (calls.foldl (fun st call => handler st call.1 call.2) st, false))

/-- The bytes that matter are read right : of a list that ends, the id and the next offset of each
capability. Otherwise the list that is read does not end with known ids either, and comes by known
ids to offsets of the list only. -/
def ConfSpace.ReadsList (s : ConfSpace) (b : PciBackend) : Prop :=
  (∀ l, CapList s l → ∀ off ∈ l, s.readb b off = s off ∧ s.readb b (off + 1) = s (off + 1)) ∧
    ((¬∃ l, CapList s l) → (¬∃ l, CapList (s.readb b) l) ∧
      ∀ off, OnKnownList (s.readb b) off → OnCapList s off)

/-- The handler that keeps its calls. -/
def keepCall (calls : List (BitVec 8 × BitVec 8)) (off id : BitVec 8) :
    List (BitVec 8 × BitVec 8) :=
  calls ++ [(off, id)]

theorem capCalls_keepCall (calls : List (BitVec 8 × BitVec 8)) :
    capCalls s keepCall calls l = calls ++ l.map fun off => (off, s off) := by
  induction l generalizing calls with
  | nil => exact (List.append_nil _).symm
  | cons off l ih => exact (ih _).trans (List.append_assoc calls [(off, s off)] _)

theorem foldl_keepCall (calls : List (BitVec 8 × BitVec 8)) :
    calls.foldl (fun st call => keepCall st call.1 call.2) [] = calls := by
  induction calls using List.reverseRecOn with
  | nil => rfl
  | append_singleton calls call ih =>
    rw [List.foldl_append, ih]
    rfl

/-- The first pointer starts a dword. -/
theorem readb_capabilityList (s : ConfSpace) (b : PciBackend) : s.readb b 0x34 = s 0x34 := by
  cases b with
  | ecam => rfl
  | conf1 => rfl

/-- The walk calls its handler at every offset that is reached by known ids. -/
theorem keepCall_of_onKnownList (h : OnKnownList s off) :
    ∃ calls ok, pciCapWalk 512 s keepCall [] = some (calls, ok) ∧ off ∈ calls.map Prod.fst := by
  obtain ⟨l, q, hseg, hnull, hids, hoff⟩ := h
  obtain ⟨l₁, l₂, rfl⟩ := List.append_of_mem hoff
  obtain ⟨r, hseg₁, rfl, -⟩ := seg_append.mp hseg
  -- Without loops, the way to the offset is short enough for the counter.
  obtain ⟨l', hseg', hnodup, hsub⟩ := hseg₁.exists_nodup
  have hsub' : ∀ a ∈ l', a ∈ l₁ ++ r :: l₂ := fun a ha => List.mem_append_left _ (hsub ha)
  have hnull' : 0 ∉ l' := fun h0 => hnull (hsub' _ h0)
  have hlen := length_le_of_nodup hnull' hnodup
  have hwalk : pciCapWalk 512 s keepCall [] = _ :=
    (congrArg (pciCapWalk.loop s keepCall · (s 0x34) 0 []) (show 512 = 512 - l'.length + l'.length
      by omega)).trans (walk_seg hseg' hnull' (fun a ha => hids a (hsub' a ha)) (by omega))
  obtain ⟨l'', q', ok, hseg'', -, -, hrun, hok, hfail⟩ :=
    @walk_calls _ s keepCall (capCalls s keepCall [] l') r (512 - l'.length) (0 + l'.length)
      (by omega) (by omega)
  refine ⟨_, ok, hwalk.trans hrun, ?_⟩
  have hmem : r ∈ l'' := by
    cases l'' with
    | cons a l'' =>
      rw [hseg''.1]
      exact List.mem_cons_self
    | nil =>
      obtain rfl := seg_nil.mp hseg''
      cases ok with
      | true =>
        exact absurd (hok rfl ▸ hoff) hnull
      | false =>
        rcases hfail rfl with hid | hcount
        · exact absurd (hids r hoff) hid
        · rw [List.length_nil] at hcount
          omega
  rw [capCalls_keepCall, List.map_append, List.map_map]
  exact List.mem_append_right _ (List.mem_map.mpr ⟨r, hmem, rfl⟩)

variable {b : PciBackend}

/-- With the bytes that matter read right, the list that is read is the list. -/
theorem CapList.readb (h : CapList s l)
    (hread : ∀ off ∈ l, s.readb b off = s off ∧ s.readb b (off + 1) = s (off + 1)) :
    CapList (s.readb b) l := by
  obtain ⟨hseg, hnull, hnodup, hids⟩ := h
  refine ⟨?_, hnull, hnodup, fun off hoff => ?_⟩
  · rw [readb_capabilityList]
    exact hseg.congr fun off hoff => (hread off hoff).2
  · rw [(hread off hoff).1]
    exact hids off hoff

theorem capCalls_readb (hread : ∀ off ∈ l, s.readb b off = s off) :
    capCalls (s.readb b) handler st l = capCalls s handler st l := by
  refine List.foldl_ext _ _ st fun st off hoff => ?_
  rw [hread off hoff]

/-- Where the walk of a list that ends calls the handler as it should, it has read it right. -/
theorem CapList.readb_eq (h : CapList s l)
    (hwalk : pciCapWalk 256 (s.readb b) keepCall [] = some (capCalls s keepCall [] l, true)) :
    ∀ off ∈ l, s.readb b off = s off ∧ s.readb b (off + 1) = s (off + 1) := by
  obtain ⟨l', q, ok, hseg, -, -, hrun, hok, -⟩ := @walk_calls _ (s.readb b) keepCall []
    (s.readb b 0x34) 256 0 (by norm_num) (by norm_num)
  obtain ⟨hcalls, rfl⟩ := Prod.mk.inj (Option.some.inj (hwalk.symm.trans hrun))
  obtain rfl := hok rfl
  rw [capCalls_keepCall, capCalls_keepCall, List.nil_append, List.nil_append] at hcalls
  have hoffs : l = l' := by
    have hfst := congrArg (List.map Prod.fst) hcalls
    rw [List.map_map, List.map_map] at hfst
    exact (List.map_id' l).symm.trans (hfst.trans (List.map_id' l'))
  subst hoffs
  have hids := List.map_inj_left.mp hcalls
  exact fun off hoff => ⟨(Prod.mk.inj (hids off hoff)).2.symm, h.1.next_eq hseg off hoff⟩

/-- With the bytes that matter read right, the walk is right. -/
theorem ConfSpace.ReadsList.walksList (h : s.ReadsList b) : s.WalksList b := by
  obtain ⟨hends, hfails⟩ := h
  intro σ handler st
  obtain ⟨hlist, hnone⟩ := pciCapWalk_spec (s.readb b) handler st
  refine ⟨fun l hl fuel hfuel => ?_, fun hbad => ?_⟩
  · have hread := hends l hl
    rw [hlist l (hl.readb hread) fuel hfuel, capCalls_readb fun off hoff => (hread off hoff).1]
  · obtain ⟨hbad', hon⟩ := hfails hbad
    obtain ⟨l, q, hseg, hnull, hids, hrun⟩ := hnone hbad'
    refine ⟨l.map fun off => (off, s.readb b off), fun call hcall => ?_, fun fuel hfuel => ?_⟩
    · obtain ⟨off, hoff, rfl⟩ := List.mem_map.mp hcall
      exact hon off ⟨l, q, hseg, hnull, hids, hoff⟩
    · rw [hrun fuel hfuel, List.foldl_map]
      rfl

/-- The walk is right exactly where the bytes that matter are read right. -/
theorem ConfSpace.walksList_iff (s : ConfSpace) (b : PciBackend) :
    s.WalksList b ↔ s.ReadsList b := by
  constructor
  · intro hwalks
    obtain ⟨hends, hfails⟩ := hwalks _ keepCall []
    refine ⟨fun l hl => hl.readb_eq (hends l hl 256 le_rfl), fun hbad => ?_⟩
    obtain ⟨calls, hon, hrun⟩ := hfails hbad
    simp only [foldl_keepCall] at hrun
    refine ⟨fun ⟨l, hl⟩ => ?_, fun off hoff => ?_⟩
    · have heq := (walk_of_capList hl le_rfl).symm.trans (hrun 256 le_rfl)
      exact Bool.noConfusion (Prod.mk.inj (Option.some.inj heq)).2
    · obtain ⟨calls', ok, hrun', hmem⟩ := keepCall_of_onKnownList hoff
      obtain ⟨rfl, -⟩ := Prod.mk.inj (Option.some.inj (hrun'.symm.trans (hrun 512 (by norm_num))))
      obtain ⟨call, hcall, rfl⟩ := List.mem_map.mp hmem
      exact hon call hcall
  · exact ConfSpace.ReadsList.walksList

/-- In the window every byte is read right, so every list is walked right. -/
theorem ConfSpace.walksList_ecam (s : ConfSpace) : s.WalksList .ecam := by
  have hreads : s.ReadsList .ecam := ⟨fun _ _ _ _ => ⟨rfl, rfl⟩, fun hbad =>
    ⟨hbad, fun _ ⟨l, q, hseg, hnull, _, hoff⟩ => ⟨l, q, hseg, hnull, hoff⟩⟩⟩
  exact hreads.walksList

/-- A function with one capability, for MSI, at `0x40`. -/
def msiAt40 : ConfSpace := fun reg =>
  if reg = 0x34 then 0x40 else if reg = 0x40 then 5 else 0

/-- Through the ports, the id of the capability is taken for the offset of a second one. -/
theorem walksList_conf1_msi :
    pciCapWalk 256 (msiAt40.readb .conf1) keepCall [] = some ([(0x40, 5), (5, 0)], true) ∧
      CapList msiAt40 [0x40] ∧ ¬msiAt40.WalksList .conf1 := by
  have hwalk : pciCapWalk 256 (msiAt40.readb .conf1) keepCall [] =
      some ([(0x40, 5), (5, 0)], true) := by decide
  have hlist : CapList msiAt40 [0x40] :=
    ⟨⟨rfl, rfl⟩, by decide, List.nodup_singleton _, fun off hoff => by
      rw [List.mem_singleton.mp hoff]
      decide⟩
  refine ⟨hwalk, hlist, fun hwalks => ?_⟩
  have heq := (hwalks _ keepCall []).1 _ hlist 256 le_rfl
  rw [hwalk] at heq
  exact absurd heq (by decide)

/-- `pci_cap_setup`, on the offset that `struct pci_dev` keeps. -/
def pciCapSetup (msiOffset : BitVec 16) (capOffset capId : BitVec 8) : BitVec 16 :=
  if capId = 5 then capOffset.setWidth 16 else msiOffset

theorem capCalls_capSetup (msiOffset : BitVec 16) :
    capCalls s pciCapSetup msiOffset l =
      (((l.filter fun off => s off = 5).getLast?.map (·.setWidth 16)).getD msiOffset) := by
  induction l using List.reverseRecOn with
  | nil => rfl
  | append_singleton l off ih =>
    have hstep : capCalls s pciCapSetup msiOffset (l ++ [off]) =
        pciCapSetup (capCalls s pciCapSetup msiOffset l) off (s off) := by
      simp [capCalls]
    rw [hstep, ih]
    by_cases hid : s off = 5#8 <;> simp [pciCapSetup, hid]

/-- Where the list is read right, `pci_enable_defaults` keeps the offset of the last MSI
capability. -/
theorem ConfSpace.ReadsList.msiOffset (h : s.ReadsList b) (hl : CapList s l) (hfuel : 256 ≤ fuel)
    (msiOffset : BitVec 16) :
    pciCapWalk fuel (s.readb b) pciCapSetup msiOffset = some
      (((l.filter fun off => s off = 5).getLast?.map (·.setWidth 16)).getD msiOffset, true) := by
  have hwalk := (h.walksList _ pciCapSetup msiOffset).1 l hl fuel hfuel
  rwa [capCalls_capSetup] at hwalk

end Walk

/-! ## The size of a BAR -/

namespace ConfSpace

variable {s : ConfSpace} {reg : BitVec 8} {v v' : BitVec 32}

/-- A store of a word hides an earlier one. -/
theorem storel_storel : (s.storel reg v).storel reg v' = s.storel reg v' := by
  unfold storel
  ext1 r
  split_ifs <;> rfl

/-- The bytes of a word are the word. -/
theorem append_extractLsb' (v : BitVec 32) :
    v.extractLsb' 24 8 ++ v.extractLsb' 16 8 ++ v.extractLsb' 8 8 ++ v.extractLsb' 0 8 = v := by
  rw [BitVec.extractLsb'_append_extractLsb'_eq_extractLsb' (by norm_num),
    BitVec.extractLsb'_append_extractLsb'_eq_extractLsb' (by norm_num),
    BitVec.extractLsb'_append_extractLsb'_eq_extractLsb' (by norm_num)]
  exact BitVec.extractLsb'_eq_self

theorem readl_storel : (s.storel reg v).readl reg = v := by
  have hoff : ∀ k : BitVec 8, reg + k - reg = k := fun k => by
    rw [BitVec.add_comm, BitVec.add_sub_cancel]
  have hzero : reg - reg = 0 := BitVec.sub_self reg
  unfold readl storel
  simp only [hoff, hzero]
  exact append_extractLsb' v

/-- The bytes of a word, low byte first. -/
theorem extractLsb'_append {x : ℕ → BitVec 8} {k : ℕ} (hk : k < 4) :
    (x 3 ++ x 2 ++ x 1 ++ x 0).extractLsb' (8 * k) 8 = x k := by
  ext i hi
  rw [BitVec.getElem_extractLsb', BitVec.getLsbD_append, BitVec.getLsbD_append,
    BitVec.getLsbD_append, ← BitVec.getLsbD_eq_getElem]
  interval_cases k
  · simp [hi]
  · simp [hi]
  · simp [hi, show ¬16 + i < 8 by omega, show 16 + i - 8 = 8 + i by omega]
  · simp [show ¬24 + i < 8 by omega, show 24 + i - 8 = 16 + i by omega,
      show ¬16 + i < 8 by omega, show 16 + i - 8 = 8 + i by omega]

/-- A word that is stored where it was read changes nothing. -/
theorem storel_readl : s.storel reg (s.readl reg) = s := by
  ext1 r
  unfold storel readl
  split_ifs with h
  · obtain ⟨k, hk, rfl⟩ : ∃ k < 4, r = reg + BitVec.ofNat 8 k := by
      refine ⟨_, h, ?_⟩
      rw [BitVec.ofNat_toNat, BitVec.setWidth_eq, BitVec.add_comm, BitVec.sub_add_cancel]
    have hoff : (reg + BitVec.ofNat 8 k - reg).toNat = k := by
      rw [BitVec.add_comm, BitVec.add_sub_cancel, BitVec.toNat_ofNat, Nat.mod_eq_of_lt (by omega)]
    have hbyte := @extractLsb'_append (fun k => s (reg + BitVec.ofNat 8 k)) k hk
    rw [show reg + BitVec.ofNat 8 0 = reg from BitVec.add_zero reg] at hbyte
    rw [hoff]
    exact hbyte
  · rfl

end ConfSpace

/-- The offset of a BAR register. -/
def barReg (n : ℕ) : BitVec 8 :=
  BitVec.ofNat 8 (0x10 + n * 4)

/-- What a function makes of stores in its configuration space : a BAR register takes the bits
that its layout lets through. -/
structure PciFunction where
  layout : BarLayout
  writel : ConfSpace → BitVec 8 → BitVec 32 → ConfSpace
  writel_bar : ∀ s v n, n < 6 →
    writel s (barReg n) v =
      s.storel (barReg n) ((v &&& layout.mask n) ||| (layout.bar n).info)

/-- `pci_bar_get`. -/
def ConfSpace.pciBarGet (s : ConfSpace) (n : ℕ) : Option (BitVec 32) := do
  assert (n < 6)
  return s.readl (barReg n)

/-- `pci_bar_is64`. -/
def ConfSpace.pciBarIs64 (s : ConfSpace) (n : ℕ) : Option Bool := do
  let bar ← s.pciBarGet n
  if bar &&& 1 ≠ 0 then return false
  return bar &&& 6 = 4

namespace PciFunction

/-- `pci_bar_size_helper`. -/
def pciBarSizeHelper (f : PciFunction) (s : ConfSpace) (n : ℕ) : BitVec 32 × ConfSpace :=
  let off := barReg n
  let bar := s.readl off
  let s := f.writel s off (~~~0)
  let val := s.readl off
  (val, f.writel s off bar)

/-- `pci_bar_size`. -/
def pciBarSize (f : PciFunction) (s : ConfSpace) (n : ℕ) : Option (BitVec 64 × ConfSpace) := do
  let (size, s) := f.pciBarSizeHelper s n
  if size = 0 then return (0, s)
  let bar ← s.pciBarGet n
  let size := size &&& pciBarMask bar
  if ← s.pciBarIs64 n then
    let (size64, s) := f.pciBarSizeHelper s (n + 1)
    let size64 := (size64.setWidth 64 <<< 32) ||| size.setWidth 64
    return (~~~size64 + 1, s)
  return ((~~~size + 1).setWidth 64, s)

variable (f : PciFunction) {s : ConfSpace} {n : ℕ}

/-- The registers hold what the layout says, off the bits that a write reaches. -/
def Holds (s : ConfSpace) : Prop :=
  ∀ n < 6, s.readl (barReg n) &&& ~~~f.layout.mask n = (f.layout.bar n).info

/-- The registers of the BARs. -/
def conf (h : f.Holds s) : PciConf where
  layout := f.layout
  vendorId := s 1 ++ s 0
  deviceId := s 3 ++ s 2
  headerType := 0
  command := s 5 ++ s 4
  value n := if n < 6 then s.readl (barReg n) else 0
  normal := rfl
  value_info n := by
    split_ifs with hn
    · exact h n hn
    · rw [f.layout.none_of_le n (not_lt.mp hn)]
      exact BitVec.zero_and

theorem pciBarSizeHelper_eq (h : f.Holds s) (hn : n < 6) :
    f.pciBarSizeHelper s n = ((AcrnUt.pciBarSizeHelper (f.conf h) n).1, s) := by
  have hone : ~~~(0 : BitVec 32) &&& f.layout.mask n = f.layout.mask n := by
    rw [BitVec.and_comm]
    exact BitVec.and_allOnes
  rw [AcrnUt.pciBarSizeHelper_eq]
  unfold pciBarSizeHelper
  simp only [f.writel_bar _ _ n hn, ConfSpace.readl_storel, ConfSpace.storel_storel,
    write_self (h n hn), ConfSpace.storel_readl, hone]
  rfl

theorem pciBarGet_eq (h : f.Holds s) (hn : n < 6) :
    s.pciBarGet n = AcrnUt.pciBarGet (f.conf h) n := by
  have hvalue : (f.conf h).value n = s.readl (barReg n) := if_pos hn
  unfold ConfSpace.pciBarGet AcrnUt.pciBarGet
  rw [hvalue]

theorem pciBarIs64_eq (h : f.Holds s) (hn : n < 6) :
    s.pciBarIs64 n = AcrnUt.pciBarIs64 (f.conf h) n := by
  unfold ConfSpace.pciBarIs64 AcrnUt.pciBarIs64
  rw [f.pciBarGet_eq h hn]

/-- On the bytes, sizing computes what it computes from the registers. -/
theorem pciBarSize_conf (h : f.Holds s) (hn : n < 6) (hb : f.layout.bar n ≠ .upper) :
    f.pciBarSize s n = (AcrnUt.pciBarSize (f.conf h) n).map fun r => (r.1, s) := by
  have hbar := AcrnUt.pciBarGet_eq (c := f.conf h) hn
  have h64 := AcrnUt.pciBarIs64_eq (c := f.conf h) hn hb
  unfold pciBarSize AcrnUt.pciBarSize
  rw [f.pciBarSizeHelper_eq h hn, AcrnUt.pciBarSizeHelper_eq]
  simp only
  split_ifs with hzero
  · rfl
  rw [f.pciBarGet_eq h hn, f.pciBarIs64_eq h hn, hbar, h64]
  simp only [Option.bind_eq_bind, Option.bind_some]
  split_ifs with hmem
  · obtain ⟨prefetch, bits, hmem⟩ := Bar.exists_mem64 hmem
    rw [f.pciBarSizeHelper_eq h (f.layout.succ_lt_six hmem), AcrnUt.pciBarSizeHelper_eq]
    rfl
  · rfl

/-- `pci_bar_size` finds the size of every BAR, and leaves the configuration space as it was. -/
theorem pciBarSize_bar (h : f.Holds s) (hn : n < 6) (hb : f.layout.bar n ≠ .upper) :
    f.pciBarSize s n = some ((f.layout.bar n).size, s) := by
  rw [f.pciBarSize_conf h hn hb, pciBarSize_eq hn hb]
  rfl

end PciFunction

/-! ## A function with one 64-bit BAR -/

/-- One BAR of 64 bits, at the first two registers. -/
def BarLayout.wide (prefetch : Bool) (bits : ℕ) (hb : 4 ≤ bits ∧ bits < 64) : BarLayout where
  bar
    | 0 => .mem64 prefetch bits
    | 1 => .upper
    | _ + 2 => .none
  sized n := by
    rcases n with _ | _ | n
    · exact hb
    · trivial
    · trivial
  upper_succ_iff n := by
    rcases n with _ | _ | n
    · exact iff_of_true rfl ⟨prefetch, bits, rfl⟩
    · exact iff_of_false Bar.noConfusion (by rintro ⟨_, _, h⟩; cases h)
    · exact iff_of_false Bar.noConfusion (by rintro ⟨_, _, h⟩; cases h)
  zero_ne_upper := Bar.noConfusion
  none_of_le
    | 0, hn => absurd hn (by norm_num)
    | 1, hn => absurd hn (by norm_num)
    | _ + 2, _ => rfl

/-- A function with a layout, whose other registers take every bit. -/
def PciFunction.ofLayout (l : BarLayout) : PciFunction where
  layout := l
  writel s reg v :=
    match (List.range 6).find? fun n => barReg n = reg with
    | some n => s.storel reg ((v &&& l.mask n) ||| (l.bar n).info)
    | none => s.storel reg v
  writel_bar s v n hn := by
    have hfind : ((List.range 6).find? fun k => barReg k = barReg n) = some n := by
      interval_cases n <;> decide
    rw [hfind]

/-- 8 GiB at `0x1200000000`. -/
theorem pciBarSize_wide :
    (PciFunction.ofLayout (.wide false 33 (by omega))).pciBarSize
        (fun r => if r = 0x10 then 4 else if r = 0x14 then 0x12 else 0) 0 =
      some (0x200000000, fun r => if r = 0x10 then 4 else if r = 0x14 then 0x12 else 0) := by
  refine (PciFunction.ofLayout _).pciBarSize_bar (fun n hn => ?_) (by omega) Bar.noConfusion
  interval_cases n <;> decide

end AcrnUt
