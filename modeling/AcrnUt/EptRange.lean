import AcrnUt.Ept

/-!
# An identity range of an extended page table

`setup_ept_range` of `x86/vmx.c` : three loops with pages of 1G, 2M and 4K, as far as they are
enabled. A call of `install_ept_entry` grows the tables along one path (`EptGrowth`) and then
writes the new leaf, so what a step of growth keeps, and what the write keeps, is kept by all the
loops : no address outside loses its translation, and a page of the range that has its new leaf
keeps it, with the level it was given.

The permissions are another matter. What stands above the new leaf is what stood there before : a
link to a table, or a large page, whose permissions the split has given to the link in its place.
The range has the permissions `perm` exactly if all these grant them (`setupEptRange_iff`).
-/

set_option linter.unusedSectionVars false

namespace AcrnUt

/-! ## The source -/

/-- `PAGE_SIZE_2M`. -/
def pageSize2M : BitVec 64 :=
  512 * pageSize

/-- `PAGE_SIZE_1G`. -/
def pageSize1G : BitVec 64 :=
  512 * pageSize2M

/-- `install_ept`. -/
def installEpt (pml4 phys guestAddr perm : BitVec 64) (m : Machine 64) : Option (Machine 64) :=
  installEptEntry pml4 1 guestAddr (phys &&& ~~~(pageSize - 1) ||| perm) 0 m

/-- `install_1g_ept`. -/
def install1gEpt (pml4 phys guestAddr perm : BitVec 64) (m : Machine 64) : Option (Machine 64) :=
  installEptEntry pml4 3 guestAddr (phys &&& ~~~(pageSize - 1) ||| perm ||| eptLargePage) 0 m

/-- `install_2m_ept`. -/
def install2mEpt (pml4 phys guestAddr perm : BitVec 64) (m : Machine 64) : Option (Machine 64) :=
  installEptEntry pml4 2 guestAddr (phys &&& ~~~(pageSize - 1) ||| perm ||| eptLargePage) 0 m

/-- A loop of `setup_ept_range`, with fuel : the installer of one page, and its size. -/
def setupEptRange.loop (install : BitVec 64 → Machine 64 → Option (Machine 64))
    (size max : BitVec 64) : ℕ → BitVec 64 → Machine 64 → Option (BitVec 64 × Machine 64)
  | 0, _, _ => none
  | fuel + 1, phys, m =>
    if phys + size ≤ max then
      (install phys m).bind fun m => setupEptRange.loop install size max fuel (phys + size) m
    else some (phys, m)

/-- `setup_ept_range`. -/
def setupEptRange (fuel : ℕ) (pml4 start len : BitVec 64) (map1g map2m : Bool) (perm : BitVec 64)
    (m : Machine 64) : Option (Machine 64) :=
  let phys := start
  let max := len + start
  let run1g := if map1g then
    setupEptRange.loop (fun phys => install1gEpt pml4 phys phys perm) pageSize1G max fuel phys m
    else some (phys, m)
  run1g.bind fun (phys, m) =>
    let run2m := if map2m then
      setupEptRange.loop (fun phys => install2mEpt pml4 phys phys perm) pageSize2M max fuel phys m
      else some (phys, m)
    run2m.bind fun (phys, m) =>
      (setupEptRange.loop (fun phys => installEpt pml4 phys phys perm) pageSize max fuel phys m).map
        Prod.snd

/-! ## The entries above a level -/

/-- Every present entry of a walk above depth `n` has a property. -/
def EntriesAbove (P : ℕ → BitVec 64 → Prop) (n : ℕ) (pml4 : BitVec 64)
    (cells : BitVec 64 → BitVec 64) (v : BitVec 64) : Prop :=
  ∀ d e, d < n → eptFormat.radix.entry cells pml4 v d = some e → eptFormat.Present e → P d e

/-- A property of entries that a link to a new table has, and that a split hands on : from the
large entry to the link and to its parts, and from the link back. -/
structure SplitStable (P : ℕ → BitVec 64 → Prop) : Prop where
  link : ∀ d p, IsFrame p → P d (p ||| 7)
  splitLink : ∀ d level e p, eptFormat.pageLevel - d = level → level = 2 ∨ level = 3 →
    e &&& eptLargePage ≠ 0 → EptAligned level e → IsFrame p → (P d (splitLink e p) ↔ P d e)
  splitChild : ∀ d level e i, eptFormat.pageLevel - d = level → level = 2 ∨ level = 3 →
    e &&& eptLargePage ≠ 0 → EptAligned level e → i < 512 → P d e → P (d + 1) (splitChild level e i)

section Growth

variable {m m' : Machine 64} {pml4 gpa v : BitVec 64} {P : ℕ → BitVec 64 → Prop} {n k : ℕ}

/-- A step of growth is a graft on the path. -/
theorem EptGrowth.graft (h : EptGrowth pml4 gpa m m') :
    ∃ d t₀ p e, eptFormat.radix.Graft m.mem m'.mem pml4 gpa d t₀ p e := by
  cases h with
  | link hp hg hold hzero => exact ⟨_, _, _, _, hg⟩
  | split hs hp hfresh => exact ⟨_, _, _, _, hs.graft hp hfresh _⟩

/-- Growth keeps what stable properties say about the entries above a depth. -/
theorem EptGrowth.entriesAbove (h : EptGrowth pml4 gpa m m') (hP : SplitStable P) :
    EntriesAbove P n pml4 m'.mem v ↔ EntriesAbove P n pml4 m.mem v := by
  cases h with
  | @link _ t₀ p d hp hg hold hzero =>
    constructor
    · intro h k e hk he hpresent
      rcases hg.entry_old_cases he with he | ⟨-, -, rfl⟩
      · exact h k e hk he hpresent
      · exact absurd hpresent hold
    · intro h k e hk he hpresent
      rcases hg.entry_cases he with he | ⟨-, ⟨rfl, rfl⟩ | ⟨-, rfl⟩⟩
      · exact h k e hk he hpresent
      · exact hP.link k p hp
      · rw [hzero] at hpresent
        exact absurd hpresent eptFormat.not_present_zero
  | @split t₀ slot p r d level hs hp hfresh =>
    have hg := hs.graft hp hfresh r
    have hslot := hs.radix_slot
    have hlink := hP.splitLink d level (m.mem slot) p hs.depth hs.level_cases hs.large hs.aligned hp
    have hon : eptFormat.Present (m.mem slot) := hs.present
    constructor
    · intro h k e hk he hpresent
      rcases hg.entry_old_cases he with he | ⟨hagree, rfl, rfl⟩
      · exact h k e hk he hpresent
      · rw [hslot]
        refine hlink.mp (h k _ hk (hg.entry_link hagree) fun h0 => hs.present ?_)
        exact (splitLink_perms hp).symm.trans h0
    · intro h k e hk he hpresent
      rcases hg.entry_cases he with he | ⟨hagree, ⟨rfl, rfl⟩ | ⟨rfl, rfl⟩⟩
      · exact h k e hk he hpresent
      · have hentry := (hg.ends hagree).1
        rw [hslot] at hentry
        exact hlink.mpr (h k _ hk hentry hon)
      · have hentry := (hg.ends hagree).1
        rw [hslot] at hentry
        rw [hs.child hp hfresh]
        exact hP.splitChild d level _ _ hs.depth hs.level_cases hs.large hs.aligned
          (eptFormat.toNat_pgdirOffset_lt v _) (h d _ (Nat.lt_of_succ_lt hk) hentry hon)

/-- And all of growth does. -/
theorem entriesAbove_of_growth (h : Relation.ReflTransGen (EptGrowth pml4 gpa) m m')
    (hP : SplitStable P) : EntriesAbove P n pml4 m'.mem v ↔ EntriesAbove P n pml4 m.mem v := by
  induction h with
  | refl => rfl
  | tail _ hstep ih => exact (hstep.entriesAbove hP).trans ih

/-- A walk whose end is off the path keeps it. -/
theorem ends_of_growth {e : BitVec 64} (h : Relation.ReflTransGen (EptGrowth pml4 gpa) m m')
    (hends : eptFormat.radix.Ends m.mem pml4 v k e) (hv : ¬eptFormat.radix.Agree (k + 1) gpa v) :
    eptFormat.radix.Ends m'.mem pml4 v k e := by
  induction h with
  | refl => exact hends
  | tail _ hstep ih =>
    obtain ⟨d, t₀, p, e', hg⟩ := hstep.graft
    exact hg.ends_of_not_agree ih hv

end Growth

/-! ## Stable properties -/

/-- Large entries lie below the top table, and are aligned to their size. -/
def LargeAligned (d : ℕ) (e : BitVec 64) : Prop :=
  e &&& eptLargePage ≠ 0 → 0 < d ∧ EptAligned (eptFormat.pageLevel - d) e

/-- The entry grants the permissions in `perm`. -/
def Grants (perm : BitVec 64) (_ : ℕ) (e : BitVec 64) : Prop :=
  perm &&& eptPresent &&& e = perm &&& eptPresent

instance (perm : BitVec 64) (d : ℕ) (e : BitVec 64) : Decidable (Grants perm d e) :=
  inferInstanceAs (Decidable (_ = _))

theorem largeAligned_stable : SplitStable LargeAligned where
  link _ p hp hlarge := absurd (PtFormat.link_and_largeMask hp) hlarge
  splitLink d level e p hd hlevel _ ha hp := by
    refine iff_of_true (fun hlarge => absurd (splitLink_not_large hp) hlarge) fun _ => ⟨?_, hd ▸ ha⟩
    have h4 : eptFormat.pageLevel = 4 := rfl
    omega
  splitChild d level e i hd hlevel _ ha hi _ _ := by
    have hd' : eptFormat.pageLevel - (d + 1) = level - 1 := by omega
    exact ⟨Nat.succ_pos d, hd' ▸ splitChild_aligned hlevel ha hi⟩

/-- What an entry grants depends on its permission bits. -/
theorem grants_congr {perm e e' : BitVec 64} {d d' : ℕ} (h : e &&& eptPresent = e' &&& eptPresent) :
    Grants perm d e ↔ Grants perm d' e' := by
  unfold Grants
  rw [BitVec.and_assoc, BitVec.and_comm eptPresent, h, BitVec.and_comm e', ← BitVec.and_assoc]

theorem grants_stable (perm : BitVec 64) : SplitStable (Grants perm) where
  link d p _ := by
    have h7 : (p ||| 7) &&& eptPresent = eptPresent &&& eptPresent := by
      rw [show (7 : BitVec 64) = eptPresent by decide, BitVec.and_or_distrib_right, BitVec.and_self]
      exact BitVec.eq_of_getLsbD_eq fun i _ => by simp +contextual
    refine (@grants_congr perm _ eptPresent d d h7).mpr ?_
    rw [Grants, BitVec.and_assoc, BitVec.and_self]
  splitLink _ _ _ _ _ _ _ _ hp := grants_congr (splitLink_perms hp)
  splitChild _ _ _ _ _ hlevel _ ha hi h := (grants_congr (splitChild_perms hlevel ha hi)).mpr h

/-! ## One page -/

/-- The layout of the tree, and pages to grow it. -/
structure EptTree (m : Machine 64) (pml4 : BitVec 64) (l : List (BitVec 64)) : Prop where
  supplied : Supplied eptFormat m pml4 0 l
  tree : eptFormat.radix.IsTree m.mem pml4
  large : ∀ v, EntriesAbove LargeAligned 3 pml4 m.mem v

/-- A leaf of a level that maps the page at `phys` with the permissions in `perm`. -/
structure EptLeaf (level : ℕ) (phys perm pte : BitVec 64) : Prop where
  addr : pte &&& eptAddrMask = phys
  perms : pte &&& eptPresent = perm &&& eptPresent
  large : level ≠ 1 → pte &&& eptLargePage ≠ 0

/-- What an install of a leaf at `gpa` does. -/
structure EptInstalled (m m' : Machine 64) (pml4 gpa pte : BitVec 64) (level : ℕ) : Prop where
  leaf : ∀ v, eptFormat.radix.Agree (4 - level + 1) gpa v →
    eptFormat.radix.Ends m'.mem pml4 v (4 - level) pte
  ends : ∀ v k e, eptFormat.radix.Ends m.mem pml4 v k e → ¬eptFormat.radix.Agree (k + 1) gpa v →
    ¬eptFormat.radix.Agree (4 - level + 1) gpa v → eptFormat.radix.Ends m'.mem pml4 v k e
  translate : ∀ v, ¬eptFormat.radix.Agree (4 - level + 1) gpa v →
    eptTranslate pml4 m'.mem v = eptTranslate pml4 m.mem v
  above : ∀ v P n, SplitStable P → n ≤ 4 - level ∨ ¬eptFormat.radix.Agree (4 - level + 1) gpa v →
    (EntriesAbove P n pml4 m'.mem v ↔ EntriesAbove P n pml4 m.mem v)

section Page

variable {m : Machine 64} {pml4 phys perm pte : BitVec 64} {l : List (BitVec 64)} {level : ℕ}

theorem EptLeaf.next_eq_none (h : EptLeaf level phys perm pte) (hlevel : 1 ≤ level ∧ level ≤ 3) :
    eptFormat.nextTable level pte = none := by
  rw [PtFormat.nextTable_eq_none]
  by_cases hone : level = 1
  · exact Or.inr (Or.inl hone.le)
  · exact Or.inr (Or.inr ⟨by omega, h.large hone⟩)

theorem EntriesAbove.congr {P : ℕ → BitVec 64 → Prop} {n : ℕ} {cells cells' : BitVec 64 → BitVec 64}
    {v : BitVec 64} (h : ∀ k < n, eptFormat.radix.entry cells' pml4 v k =
      eptFormat.radix.entry cells pml4 v k) :
    EntriesAbove P n pml4 cells' v ↔ EntriesAbove P n pml4 cells v := by
  refine forall_congr' fun k => forall_congr' fun e => forall_congr' fun hk => ?_
  rw [h k hk]

/-- One page of a level, at an address that is a multiple of its size. -/
theorem EptTree.install (h : EptTree m pml4 l) (hlevel : 1 ≤ level ∧ level ≤ 3)
    (hpte : EptLeaf level phys perm pte) (hphys : phys < 1#64 <<< 48)
    (haligned : phys.toNat % 2 ^ eptLevelShift level = 0)
    (hgranted : 3 ≤ l.length ∨
      ∃ m', installEptEntry pml4 level phys pte 0 m = some m' ∧ m'.denied = false) :
    ∃ m' l', installEptEntry pml4 level phys pte 0 m = some m' ∧ m'.denied = m.denied ∧
      EptTree m' pml4 l' ∧ l.length ≤ l'.length + 3 ∧ EptInstalled m m' pml4 phys pte level := by
  have hle : level ≤ eptFormat.pageLevel := show level ≤ 4 by omega
  have hpath : EptPath m.mem pml4 phys level := fun d e hd he hpresent => by
    have hd : d + level < 4 := hd
    exact h.large phys d e (by omega) he hpresent
  have hlv : eptFormat.pageLevel - (eptFormat.pageLevel - level) = level := Nat.sub_sub_self hle
  rw [installEptEntry, if_pos hphys] at *
  rcases installEptEntry.walk_spec pte hlevel.1 hle (Nat.sub_zero _) h.supplied h.tree hpath rfl
    with ⟨used, t, m₁, l', hrun, hreach, hgrow, hused, rfl, hs', hden⟩ | ⟨hshort, hden⟩
  swap
  · rcases hgranted with hlen | ⟨m', hrun, hm'⟩
    · have hshort : l.length < 4 - level := hshort
      omega
    · exact absurd (hm'.symm.trans (hden m' hrun)) Bool.false_ne_true
  have hdead :
      eptFormat.nextTable (eptFormat.pageLevel - (eptFormat.pageLevel - level)) pte = none := by
    rw [hlv]
    exact hpte.next_eq_none hlevel
  have hfresh : ∀ p ∈ used, p ∉ eptFormat.radix.tables m.mem pml4 := fun p hp =>
    h.supplied.fresh p (by rw [supply_zero]; exact List.mem_append_left _ hp)
  obtain ⟨htree', htables⟩ := hreach.plant hfresh hdead
  have hself := fun v (hv : eptFormat.radix.Agree (4 - level + 1) phys v) =>
    hreach.entry_store (e := pte) hv
  have hslot := PtFormat.slot_index eptFormat t (eptFormat.pageLevel - level) phys
  have hpage := eptFormat.pageOf_entryAddr
    (pageOf_eq_self_iff.mp (hreach.grown.tree.page_table hreach.table)) phys level
  rw [hlv] at htree' htables hself hslot
  have hkeep : ∀ v k, k < 4 - level ∨ ¬eptFormat.radix.Agree (4 - level + 1) phys v →
      eptFormat.radix.entry (m₁.store (entryAddr t (eptFormat.pgdirOffset phys level)) pte).mem pml4
        v k = eptFormat.radix.entry m₁.mem pml4 v k := fun v k hv => by
    rw [← hslot]
    exact hreach.grown.tree.entry_update hreach.table hv
  refine ⟨_, l', hrun, hden, ⟨hs'.store ?_ ?_, htree', fun v d e hd he hpresent hlarge => ?_⟩, ?_,
    ?_⟩
  · rw [hpage]
    exact ⟨phys, _, hreach.table⟩
  · rw [htables, hreach.grown.tables]
    exact Set.union_subset_union_left _ Set.sdiff_subset
  · rw [← hslot] at he
    rcases hreach.grown.tree.entry_plant_cases hreach.table hdead he with he | ⟨rfl, -, rfl⟩
    · exact (entriesAbove_of_growth hgrow largeAligned_stable).mpr (h.large v) d e hd he hpresent
        hlarge
    · refine ⟨show 0 < 4 - level by omega, ?_⟩
      rw [hlv, EptAligned, hpte.addr]
      exact haligned
  · have hused : used.length ≤ 4 - level := hused
    rw [List.length_append]
    omega
  · exact
      { leaf := fun v hv => ⟨hself v hv, hdead⟩
        ends := fun v k e hends hpath hv =>
          ⟨(hkeep v k (Or.inr hv)).trans (ends_of_growth hgrow hends hpath).1, hends.2⟩
        translate := fun v hv => by
          rw [eptTranslate, eptFormat.walk_congr fun k => hkeep v k (Or.inr hv)]
          exact hreach.grown.view v
        above := fun v P n hP hn => by
          refine (EntriesAbove.congr fun k hk => hkeep v k ?_).trans
            (entriesAbove_of_growth hgrow hP)
          exact hn.imp_left hk.trans_le }

/-- The addresses of a page choose the same entries down to its level. -/
theorem agree_iff_mem_page {v : BitVec 64} (hlevel : 1 ≤ level ∧ level ≤ 3)
    (hphys : phys < 1#64 <<< 48) (hv : v < 1#64 <<< 48)
    (haligned : phys.toNat % 2 ^ eptLevelShift level = 0) :
    eptFormat.radix.Agree (4 - level + 1) phys v ↔
      phys.toNat ≤ v.toNat ∧ v.toNat < phys.toNat + 2 ^ eptLevelShift level := by
  rw [← shift_eq_iff haligned]
  constructor
  · intro hagree
    have hd : 4 - level + 1 ≤ eptFormat.pageLevel := show _ ≤ 4 by omega
    have hshift := eptFormat.shift_eq_of_agree hd hagree fun i hi _ => by
      rw [getLsbD_of_lt_48 hphys hi, getLsbD_of_lt_48 hv hi]
    rwa [show eptFormat.pageLevel - (4 - level + 1) + 1 = level from
      show 4 - (4 - level + 1) + 1 = level by omega] at hshift
  · exact eptFormat.agree_of_shift_eq ⟨hlevel.1, hlevel.2.trans (by decide)⟩

/-- The page of a leaf is mapped to itself. -/
theorem EptLeaf.hostAddr_eq {v : BitVec 64} (h : EptLeaf level phys perm pte)
    (hlevel : 1 ≤ level ∧ level ≤ 3)
    (hv : phys >>> eptLevelShift level = v >>> eptLevelShift level) :
    eptHostAddr level pte v = v := by
  have hshift : eptLevelShift level < 64 := by
    obtain ⟨hpos, hle⟩ := hlevel
    interval_cases level <;> decide
  refine BitVec.eq_of_getLsbD_eq fun i hi => ?_
  rw [getLsbD_eptHostAddr hshift hi, h.addr]
  split_ifs with hlow
  · rfl
  · exact getLsbD_of_shift_eq hv (not_lt.mp hlow)

end Page

/-! ## The three entries -/

section Leaves

variable {phys perm pte : BitVec 64} {level : ℕ}

/-- The entry of `install_ept`. -/
theorem eptLeaf_page (hphys : IsFrame phys) (hperm : perm &&& eptAddrMask = 0) :
    EptLeaf 1 phys perm (phys &&& ~~~(pageSize - 1) ||| perm) := by
  have hlow : ∀ i < 12, phys.getLsbD i = false := fun i hi => hphys.getLsbD hi
  have hmask : phys &&& ~~~(pageSize - 1) = phys := by
    rw [show ~~~(pageSize - 1 : BitVec 64) = BitVec.allOnes 64 <<< 12 by decide]
    refine BitVec.eq_of_getLsbD_eq fun i hi => ?_
    rw [BitVec.getLsbD_and, BitVec.getLsbD_shiftLeft, BitVec.getLsbD_allOnes]
    rcases Nat.lt_or_ge i 12 with h12 | h12
    · simp [hlow i h12]
    · simp [hi, not_lt.mpr h12, show i - 12 < 64 by omega]
  have hpresent : phys &&& eptPresent = 0 := by
    refine BitVec.eq_of_getLsbD_eq fun i hi => ?_
    rw [BitVec.getLsbD_and, show eptPresent = 7 by decide, PtFormat.getLsbD_seven hi]
    by_cases h3 : i < 3
    · simp [hlow i (by omega)]
    · simp [h3]
  have hphys : phys &&& eptAddrMask = phys := hphys
  rw [hmask]
  exact
    { addr := by
        rw [BitVec.and_or_distrib_right, hphys, hperm]
        exact BitVec.or_zero
      perms := by
        rw [BitVec.and_or_distrib_right, hpresent]
        exact BitVec.zero_or
      large := fun h => absurd rfl h }

/-- The entries of `install_2m_ept` and `install_1g_ept`. -/
theorem EptLeaf.withLarge (h : EptLeaf 1 phys perm pte) :
    EptLeaf level phys perm (pte ||| eptLargePage) where
  addr := by
    rw [BitVec.and_or_distrib_right, h.addr, show eptLargePage &&& eptAddrMask = 0 by decide]
    exact BitVec.or_zero
  perms := by
    rw [BitVec.and_or_distrib_right, h.perms, show eptLargePage &&& eptPresent = 0 by decide]
    exact BitVec.or_zero
  large _ h0 := by
    have hbit := congrArg (BitVec.getLsbD · 7) h0
    simp [largeMask] at hbit

end Leaves

/-! ## The range -/

/-- The page of `v` of `2 ^ s` bytes lies in `[first, last)`. -/
def PageInside (s first last v : ℕ) : Prop :=
  first ≤ v / 2 ^ s * 2 ^ s ∧ v / 2 ^ s * 2 ^ s + 2 ^ s ≤ last

instance (s first last v : ℕ) : Decidable (PageInside s first last v) :=
  inferInstanceAs (Decidable (_ ∧ _))

/-- The page that `v` lies in, by its start. -/
theorem pageInside_iff {s first last page v : ℕ} (haligned : page % 2 ^ s = 0) (hv : page ≤ v)
    (hlt : v < page + 2 ^ s) : PageInside s first last v ↔ first ≤ page ∧ page + 2 ^ s ≤ last := by
  obtain ⟨q, rfl⟩ := Nat.dvd_of_mod_eq_zero haligned
  have hq : v / 2 ^ s = q := Nat.div_eq_of_lt_le (by rwa [Nat.mul_comm]) (by
    rw [Nat.succ_mul, Nat.mul_comm]
    exact hlt)
  rw [PageInside, hq, Nat.mul_comm q]

/-- Where no further page fits, no page lies inside. -/
theorem not_pageInside {s first last cur v : ℕ} (haligned : cur % 2 ^ s = 0)
    (hend : last < cur + 2 ^ s) (hv : cur ≤ v) : ¬PageInside s first last v := fun h => by
  have hle : cur / 2 ^ s * 2 ^ s ≤ v / 2 ^ s * 2 ^ s :=
    Nat.mul_le_mul_right _ (Nat.div_le_div_right hv)
  rw [Nat.div_mul_cancel (Nat.dvd_of_mod_eq_zero haligned)] at hle
  have := h.2
  omega

/-- The level of the leaf for `v` in the range : of the largest enabled page that lies inside. -/
def eptLevel (map1g map2m : Bool) (first last v : ℕ) : ℕ :=
  if map1g ∧ PageInside 30 first last v then 3
  else if map2m ∧ PageInside 21 first last v then 2
  else 1

theorem eptLevel_bounds (map1g map2m : Bool) (first last v : ℕ) :
    1 ≤ eptLevel map1g map2m first last v ∧ eptLevel map1g map2m first last v ≤ 3 := by
  unfold eptLevel
  split_ifs <;> simp

/-- The leaf of `v`, which maps the page at `phys`, before `cur`. -/
structure EptMapped (m : Machine 64) (pml4 perm v phys pte : BitVec 64) (level cur : ℕ) : Prop where
  leaf : EptLeaf level phys perm pte
  ends : eptFormat.radix.Ends m.mem pml4 v (4 - level) pte
  aligned : phys.toNat % 2 ^ eptLevelShift level = 0
  page : phys.toNat ≤ v.toNat ∧ v.toNat < phys.toNat + 2 ^ eptLevelShift level
  before : phys.toNat + 2 ^ eptLevelShift level ≤ cur

/-- The addresses from `first` up to `cur` have their leaves, of the levels `lv`. What stands above
the leaves is what stood there in `m₀`, and other addresses have the translation they had. -/
structure EptUpTo (m₀ m : Machine 64) (pml4 perm : BitVec 64) (lv : ℕ → ℕ) (first cur : ℕ) :
    Prop where
  inside : ∀ v : BitVec 64, first ≤ v.toNat → v.toNat < cur →
    ∃ phys pte, EptMapped m pml4 perm v phys pte (lv v.toNat) cur
  above : ∀ v : BitVec 64, v < 1#64 <<< 48 → ∀ P, SplitStable P →
    (EntriesAbove P (4 - lv v.toNat) pml4 m.mem v ↔ EntriesAbove P (4 - lv v.toNat) pml4 m₀.mem v)
  outside : ∀ v : BitVec 64, v < 1#64 <<< 48 → ¬(first ≤ v.toNat ∧ v.toNat < cur) →
    eptTranslate pml4 m.mem v = eptTranslate pml4 m₀.mem v

section Range

variable {m₀ m m' : Machine 64} {pml4 phys perm pte : BitVec 64} {first last level cur : ℕ}
  {lv : ℕ → ℕ} {l : List (BitVec 64)}

theorem EptMapped.lt_48 {v : BitVec 64} (h : EptMapped m pml4 perm v phys pte level cur)
    (hcur : cur ≤ 2 ^ 48) : phys < 1#64 <<< 48 ∧ v < 1#64 <<< 48 := by
  have hbefore := h.before
  have hpage := h.page
  have hlt : ∀ x : BitVec 64, x.toNat < cur → x < 1#64 <<< 48 := fun x hx =>
    (hx.trans_le hcur : x.toNat < 2 ^ 48)
  exact ⟨hlt phys (by omega), hlt v (by omega)⟩

/-- The next page, of any size. -/
theorem EptUpTo.install (h : EptUpTo m₀ m pml4 perm lv first phys.toNat)
    (hi : EptInstalled m m' pml4 phys pte level) (hpte : EptLeaf level phys perm pte)
    (hlv : ∀ v, 1 ≤ lv v ∧ lv v ≤ 3) (hlevel : 1 ≤ level ∧ level ≤ 3)
    (hfirst : first ≤ phys.toNat) (haligned : phys.toNat % 2 ^ eptLevelShift level = 0)
    (hfits : phys.toNat + 2 ^ eptLevelShift level ≤ 2 ^ 48)
    (hpage : ∀ v, phys.toNat ≤ v → v < phys.toNat + 2 ^ eptLevelShift level → lv v = level) :
    EptUpTo m₀ m' pml4 perm lv first (phys.toNat + 2 ^ eptLevelShift level) := by
  have hpos := Nat.two_pow_pos (eptLevelShift level)
  have hphys : phys < 1#64 <<< 48 := show phys.toNat < 2 ^ 48 by omega
  have hagree := fun (v : BitVec 64) (hv : v < 1#64 <<< 48) =>
    agree_iff_mem_page hlevel hphys hv haligned
  refine ⟨fun v hv hlt => ?_, fun v hv P hP => ?_, fun v hv hnot => ?_⟩
  · have hv48 : v < 1#64 <<< 48 := show v.toNat < 2 ^ 48 by omega
    by_cases hnew : phys.toNat ≤ v.toNat
    · rw [hpage v.toNat hnew hlt]
      exact ⟨phys, pte, hpte, hi.leaf v ((hagree v hv48).mpr ⟨hnew, hlt⟩), haligned, ⟨hnew, hlt⟩,
        le_rfl⟩
    · obtain ⟨phys', pte', hmapped⟩ := h.inside v hv (by omega)
      obtain ⟨hphys', -⟩ := hmapped.lt_48 (by omega)
      refine ⟨phys', pte', { hmapped with ends := ?_, before := hmapped.before.trans (by omega) }⟩
      refine hi.ends v _ pte' hmapped.ends (fun hpath => ?_) fun hpath => ?_
      · -- the new page would start in the page of `v`
        have hold := fun x hx => agree_iff_mem_page (v := x) (hlv v.toNat) hphys' hx hmapped.aligned
        have hstart := (hold phys hphys).mp
          (((hold v hv48).mpr hmapped.page).trans _ (hpath.symm _))
        have := hmapped.before
        omega
      · exact hnew ((hagree v hv48).mp hpath).1
  · refine (hi.above v P _ hP ?_).trans (h.above v hv P hP)
    rw [hagree v hv]
    by_cases hin : phys.toNat ≤ v.toNat ∧ v.toNat < phys.toNat + 2 ^ eptLevelShift level
    · exact Or.inl (by rw [hpage v.toNat hin.1 hin.2])
    · exact Or.inr hin
  · refine (hi.translate v fun hpath => ?_).trans (h.outside v hv fun hin => ?_)
    · have := (hagree v hv).mp hpath
      omega
    · omega

/-- There are three pages for every 4K left, or the run ends and none of its calls of `alloc_page`
failed. -/
def Served (left : ℕ) (l : List (BitVec 64)) (run : Option (BitVec 64 × Machine 64)) : Prop :=
  3 * left ≤ 2 ^ 12 * l.length ∨ ∃ r, run = some r ∧ r.2.denied = false

/-- A failed `alloc_page` leaves its mark on what runs later. -/
def KeepsDenied (run : BitVec 64 → Machine 64 → Option (BitVec 64 × Machine 64)) : Prop :=
  ∀ phys m r, run phys m = some r → m.denied = true → r.2.denied = true

theorem installEptEntry_denied {gpa ptPage : BitVec 64}
    (h : installEptEntry pml4 level gpa pte ptPage m = some m') (hden : m.denied = true) :
    m'.denied = true := by
  unfold installEptEntry at h
  split_ifs at h
  exact installEptEntry.walk_denied h hden

/-- The part that runs first is served too. -/
theorem Served.of_bind {left : ℕ} {run : Option (BitVec 64 × Machine 64)}
    {rest : BitVec 64 → Machine 64 → Option (BitVec 64 × Machine 64)}
    (h : Served left l (run.bind fun r => rest r.1 r.2)) (hrest : KeepsDenied rest) :
    Served left l run := by
  rcases h with h | ⟨r', hrun, hden⟩
  · exact Or.inl h
  · obtain ⟨r, hr, hr'⟩ := Option.bind_eq_some_iff.mp hrun
    refine Or.inr ⟨r, hr, Bool.eq_false_iff.mpr fun hd => ?_⟩
    exact absurd (hden.symm.trans (hrest _ _ _ hr' hd)) Bool.false_ne_true

theorem KeepsDenied.bind {run rest : BitVec 64 → Machine 64 → Option (BitVec 64 × Machine 64)}
    (hrun : KeepsDenied run) (hrest : KeepsDenied rest) :
    KeepsDenied fun phys m => (run phys m).bind fun r => rest r.1 r.2 := fun phys m r' h hden => by
  obtain ⟨r, hr, hr'⟩ := Option.bind_eq_some_iff.mp h
  exact hrest _ _ _ hr' (hrun _ _ _ hr hden)

/-- What a loop installs : pages of a level, of `size` bytes. -/
structure EptPages (install : BitVec 64 → Machine 64 → Option (Machine 64))
    (size pml4 perm : BitVec 64) (level : ℕ) : Prop where
  level_bounds : 1 ≤ level ∧ level ≤ 3
  size_eq : size.toNat = 2 ^ eptLevelShift level
  install_eq : ∀ phys, IsFrame phys → ∃ pte, EptLeaf level phys perm pte ∧
    ∀ m, install phys m = installEptEntry pml4 level phys pte 0 m
  denied : ∀ phys m m', install phys m = some m' → m.denied = true → m'.denied = true

theorem eptPages_1g (hperm : perm &&& eptAddrMask = 0) :
    EptPages (fun phys => install1gEpt pml4 phys phys perm) pageSize1G pml4 perm 3 where
  level_bounds := ⟨by norm_num, le_rfl⟩
  size_eq := rfl
  install_eq _ hphys := ⟨_, (eptLeaf_page hphys hperm).withLarge, fun _ => rfl⟩
  denied _ _ _ := installEptEntry_denied

theorem eptPages_2m (hperm : perm &&& eptAddrMask = 0) :
    EptPages (fun phys => install2mEpt pml4 phys phys perm) pageSize2M pml4 perm 2 where
  level_bounds := ⟨by norm_num, by norm_num⟩
  size_eq := rfl
  install_eq _ hphys := ⟨_, (eptLeaf_page hphys hperm).withLarge, fun _ => rfl⟩
  denied _ _ _ := installEptEntry_denied

theorem eptPages_4k (hperm : perm &&& eptAddrMask = 0) :
    EptPages (fun phys => installEpt pml4 phys phys perm) pageSize pml4 perm 1 where
  level_bounds := ⟨le_rfl, by norm_num⟩
  size_eq := rfl
  install_eq _ hphys := ⟨_, eptLeaf_page hphys hperm, fun _ => rfl⟩
  denied _ _ _ := installEptEntry_denied

/-- The state of the loops at `phys`. -/
structure EptProgress (m₀ m : Machine 64) (pml4 perm : BitVec 64) (lv : ℕ → ℕ) (first last : ℕ)
    (phys : BitVec 64) (l : List (BitVec 64)) : Prop where
  tree : EptTree m pml4 l
  upTo : EptUpTo m₀ m pml4 perm lv first phys.toNat
  ge : first ≤ phys.toNat
  le : phys.toNat ≤ last

namespace setupEptRange

section Loop

variable {install : BitVec 64 → Machine 64 → Option (Machine 64)} {size max : BitVec 64}
  (hpages : EptPages install size pml4 perm level)

include hpages

theorem loop_denied : ∀ fuel, KeepsDenied (loop install size max fuel)
  | 0, _, _, _, h, _ => by cases h
  | fuel + 1, phys, m, r, h, hden => by
    unfold loop at h
    split_ifs at h
    · obtain ⟨m₁, h₁, h⟩ := Option.bind_eq_some_iff.mp h
      exact loop_denied fuel _ _ _ h (hpages.denied _ _ _ h₁ hden)
    · cases h
      exact hden

/-- The end of the next page does not wrap. -/
theorem toNat_add_size (hlast : last ≤ 2 ^ 48) (hle : phys.toNat ≤ last) :
    (phys + size).toNat = phys.toNat + 2 ^ eptLevelShift level := by
  have hshift : 2 ^ eptLevelShift level ≤ 2 ^ 30 := by
    obtain ⟨hlo, hhi⟩ := hpages.level_bounds
    interval_cases level <;> decide
  rw [BitVec.toNat_add, hpages.size_eq]
  exact Nat.mod_eq_of_lt (by omega)

/-- One turn of a loop. -/
theorem turn_spec (h : EptProgress m₀ m pml4 perm lv first last phys l)
    (hlv : ∀ v, 1 ≤ lv v ∧ lv v ≤ 3) (hlast : last ≤ 2 ^ 48)
    (haligned : phys.toNat % 2 ^ eptLevelShift level = 0)
    (hfits : phys.toNat + 2 ^ eptLevelShift level ≤ last)
    (hpage : ∀ v, phys.toNat ≤ v → v < phys.toNat + 2 ^ eptLevelShift level → lv v = level)
    (hgranted : 3 ≤ l.length ∨ ∃ m', install phys m = some m' ∧ m'.denied = false) :
    ∃ m' l', install phys m = some m' ∧
      EptProgress m₀ m' pml4 perm lv first last (phys + size) l' ∧ l.length ≤ l'.length + 3 := by
  have hpos := Nat.two_pow_pos (eptLevelShift level)
  have hsum := toNat_add_size hpages hlast h.le
  have hge := h.ge
  have hdvd : phys.toNat % 2 ^ 12 = 0 := Nat.mod_eq_zero_of_dvd
    ((Nat.pow_dvd_pow 2 (Nat.le_add_left _ _)).trans (Nat.dvd_of_mod_eq_zero haligned))
  obtain ⟨pte, hpte, hinstall⟩ := hpages.install_eq phys (isFrame_of_lt hdvd (by omega))
  rw [hinstall] at hgranted ⊢
  obtain ⟨m', l', hrun, -, htree, hlen, hi⟩ := h.tree.install hpages.level_bounds hpte
    (show phys.toNat < 2 ^ 48 by omega) haligned hgranted
  have hupto := h.upTo.install hi hpte hlv hpages.level_bounds hge haligned (by omega) hpage
  rw [← hsum] at hupto
  exact ⟨m', l', hrun, ⟨htree, hupto, by omega, by omega⟩, hlen⟩

/-- A loop ends where no further page of its level fits. -/
theorem loop_spec {base : ℕ} (hlv : ∀ v, 1 ≤ lv v ∧ lv v ≤ 3) (hmax : max.toNat = last)
    (hlast : last ≤ 2 ^ 48)
    (hpage : ∀ page v, base ≤ page → page % 2 ^ eptLevelShift level = 0 → page ≤ v →
      v < page + 2 ^ eptLevelShift level → page + 2 ^ eptLevelShift level ≤ last → lv v = level) :
    ∀ {fuel : ℕ} {phys : BitVec 64} {m : Machine 64} {l : List (BitVec 64)}, base ≤ phys.toNat →
      phys.toNat % 2 ^ eptLevelShift level = 0 → last - phys.toNat < 2 ^ 12 * fuel →
      EptProgress m₀ m pml4 perm lv first last phys l →
      Served (last - phys.toNat) l (loop install size max fuel phys m) →
      ∃ phys' m' l', loop install size max fuel phys m = some (phys', m') ∧
        phys.toNat ≤ phys'.toNat ∧ phys'.toNat % 2 ^ eptLevelShift level = 0 ∧
        last < phys'.toNat + 2 ^ eptLevelShift level ∧
        EptProgress m₀ m' pml4 perm lv first last phys' l' ∧
        (3 * (last - phys.toNat) ≤ 2 ^ 12 * l.length →
          3 * (last - phys'.toNat) ≤ 2 ^ 12 * l'.length)
  | 0, _, _, _, _, _, hfuel, _, _ => absurd hfuel (Nat.not_lt_zero _)
  | fuel + 1, phys, m, l, hge, haligned, hfuel, h, hserved => by
    have hpos : 2 ^ 12 ≤ 2 ^ eptLevelShift level :=
      Nat.pow_le_pow_right (by norm_num) (Nat.le_add_left _ _)
    have hsum := toNat_add_size hpages hlast h.le
    have hturn : phys + size ≤ max ↔ phys.toNat + 2 ^ eptLevelShift level ≤ last := by
      rw [BitVec.le_def, hsum, hmax]
    unfold loop at hserved ⊢
    by_cases hfits : phys.toNat + 2 ^ eptLevelShift level ≤ last
    · rw [if_pos (hturn.mpr hfits)] at hserved ⊢
      have hgranted : 3 ≤ l.length ∨ ∃ m', install phys m = some m' ∧ m'.denied = false := by
        rcases hserved with h | ⟨r, hrun, hden⟩
        · exact Or.inl (by omega)
        · obtain ⟨m₁, h₁, hrest⟩ := Option.bind_eq_some_iff.mp hrun
          refine Or.inr ⟨m₁, h₁, Bool.eq_false_iff.mpr fun hd => ?_⟩
          exact absurd (hden.symm.trans (loop_denied hpages fuel _ _ _ hrest hd)) Bool.false_ne_true
      obtain ⟨m₁, l₁, hrun, h₁, hlen⟩ := turn_spec hpages h hlv hlast haligned hfits
        (fun v hv hlt => hpage phys.toNat v hge haligned hv hlt hfits) hgranted
      rw [hrun, Option.bind_some] at hserved ⊢
      have hserved₁ : Served (last - (phys + size).toNat) l₁
          (loop install size max fuel (phys + size) m₁) :=
        hserved.imp_left fun h => by omega
      obtain ⟨phys', m', l', hrun', hge', haligned', hend, h', hlen'⟩ :=
        loop_spec hlv hmax hlast hpage (by omega) (by rw [hsum, Nat.add_mod_right]; exact haligned)
          (by omega) h₁ hserved₁
      exact ⟨phys', m', l', hrun', by omega, haligned', hend, h', fun h => hlen' (by omega)⟩
    · rw [if_neg fun h => hfits (hturn.mp h)]
      exact ⟨phys, m, l, rfl, le_rfl, haligned, not_le.mp hfits, h, id⟩

end Loop

/-- A loop, if its pages are enabled. -/
def phase (on : Bool) (install : BitVec 64 → Machine 64 → Option (Machine 64))
    (size max : BitVec 64) (fuel : ℕ) (phys : BitVec 64) (m : Machine 64) :
    Option (BitVec 64 × Machine 64) :=
  if on then loop install size max fuel phys m else some (phys, m)

/-- Where a phase with pages of `2 ^ s` bytes ends that starts at `cur`. -/
structure PhaseEnd (on : Bool) (s last cur cur' : ℕ) : Prop where
  ended : on = true → cur' % 2 ^ s = 0 ∧ last < cur' + 2 ^ s
  skipped : on = false → cur' = cur

/-- The next phase starts at a multiple of its smaller pages. -/
theorem PhaseEnd.mod {on : Bool} {s k cur cur' : ℕ} (h : PhaseEnd on s last cur cur') (hk : k ≤ s)
    (hcur : on = false → cur % 2 ^ k = 0) : cur' % 2 ^ k = 0 := by
  rcases Bool.eq_false_or_eq_true on with hon | hoff
  · exact Nat.mod_eq_zero_of_dvd
      ((Nat.pow_dvd_pow 2 hk).trans (Nat.dvd_of_mod_eq_zero (h.ended hon).1))
  · rw [h.skipped hoff]
    exact hcur hoff

/-- After it no enabled page lies inside. -/
theorem PhaseEnd.not_inside {on : Bool} {s cur cur' v : ℕ} (h : PhaseEnd on s last cur cur')
    (hv : cur' ≤ v) : ¬(on ∧ PageInside s first last v) := fun ⟨hon, hin⟩ =>
  not_pageInside (h.ended hon).1 (h.ended hon).2 hv hin

section Phase

variable {install : BitVec 64 → Machine 64 → Option (Machine 64)} {size max : BitVec 64}
  {on : Bool} {fuel : ℕ} (hpages : EptPages install size pml4 perm level)

include hpages

theorem phase_denied : KeepsDenied (phase on install size max fuel) := fun phys m r h hden => by
  unfold phase at h
  split_ifs at h
  · exact loop_denied hpages fuel phys m r h hden
  · cases h
    exact hden

/-- A phase ends where no further page of its level fits, or where it started. -/
theorem phase_spec (h : EptProgress m₀ m pml4 perm lv first last phys l)
    (hserved : Served (last - phys.toNat) l (phase on install size max fuel phys m))
    (hlv : ∀ v, 1 ≤ lv v ∧ lv v ≤ 3) (hmax : max.toNat = last) (hlast : last ≤ 2 ^ 48)
    (haligned : on = true → phys.toNat % 2 ^ eptLevelShift level = 0)
    (hpage : on = true → ∀ page v, phys.toNat ≤ page → page % 2 ^ eptLevelShift level = 0 →
      page ≤ v → v < page + 2 ^ eptLevelShift level → page + 2 ^ eptLevelShift level ≤ last →
      lv v = level)
    (hfuel : last - phys.toNat < 2 ^ 12 * fuel) :
    ∃ phys' m' l', phase on install size max fuel phys m = some (phys', m') ∧
      phys.toNat ≤ phys'.toNat ∧ EptProgress m₀ m' pml4 perm lv first last phys' l' ∧
      (3 * (last - phys.toNat) ≤ 2 ^ 12 * l.length →
        3 * (last - phys'.toNat) ≤ 2 ^ 12 * l'.length) ∧
      PhaseEnd on (eptLevelShift level) last phys.toNat phys'.toNat := by
  unfold phase at hserved ⊢
  cases on with
  | true =>
    rw [if_pos rfl] at hserved ⊢
    obtain ⟨phys', m', l', hrun, hge, haligned', hend, h', hlen⟩ :=
      loop_spec hpages hlv hmax hlast (hpage rfl) le_rfl (haligned rfl) hfuel h hserved
    exact ⟨phys', m', l', hrun, hge, h', hlen, fun _ => ⟨haligned', hend⟩,
      fun h => absurd h.symm Bool.false_ne_true⟩
  | false =>
    exact ⟨phys, m, l, rfl, le_rfl, h, id, fun h => absurd h Bool.false_ne_true, fun _ => rfl⟩

end Phase

end setupEptRange

/-- The level of the largest enabled page. -/
def eptTopLevel (map1g map2m : Bool) : ℕ :=
  if map1g then 3 else if map2m then 2 else 1

theorem setupEptRange_eq (fuel : ℕ) (pml4 start len : BitVec 64) (map1g map2m : Bool)
    (perm : BitVec 64) (m : Machine 64) :
    setupEptRange fuel pml4 start len map1g map2m perm m =
      ((setupEptRange.phase map1g (fun phys => install1gEpt pml4 phys phys perm) pageSize1G
          (len + start) fuel start m).bind fun r =>
        (setupEptRange.phase map2m (fun phys => install2mEpt pml4 phys phys perm) pageSize2M
            (len + start) fuel r.1 r.2).bind fun r =>
          setupEptRange.phase true (fun phys => installEpt pml4 phys phys perm) pageSize
            (len + start) fuel r.1 r.2).map Prod.snd := by
  rw [Option.map_bind]
  unfold setupEptRange setupEptRange.phase
  refine congrArg (Option.bind _) (funext fun r => ?_)
  exact (Option.map_bind ..).symm

/-- `setup_ept_range` ends at the end of the range. -/
theorem setupEptRange.upTo {start len : BitVec 64} {fuel : ℕ} {map1g map2m : Bool}
    (htree : EptTree m pml4 l) (hperm : perm &&& eptAddrMask = 0)
    (hstart : start.toNat % 2 ^ eptLevelShift (eptTopLevel map1g map2m) = 0)
    (hlen : len.toNat % 2 ^ 12 = 0) (hmax : start.toNat + len.toNat ≤ 2 ^ 48)
    (hfuel : len.toNat / 2 ^ 12 < fuel)
    (hserved : 3 * (len.toNat / 2 ^ 12) ≤ l.length ∨
      ∃ m', setupEptRange fuel pml4 start len map1g map2m perm m = some m' ∧ m'.denied = false) :
    ∃ m', setupEptRange fuel pml4 start len map1g map2m perm m = some m' ∧
      EptUpTo m m' pml4 perm (eptLevel map1g map2m start.toNat (start.toNat + len.toNat))
        start.toNat (start.toNat + len.toNat) := by
  have hsum : (len + start).toNat = start.toNat + len.toNat := by
    rw [BitVec.toNat_add]
    omega
  have hlv := eptLevel_bounds map1g map2m start.toNat (start.toNat + len.toNat)
  have hstart21 : map1g = false → map2m = true → start.toNat % 2 ^ 21 = 0 := by
    rintro rfl rfl
    exact hstart
  have hstart12 : start.toNat % 2 ^ 12 = 0 := Nat.mod_eq_zero_of_dvd
    ((Nat.pow_dvd_pow 2 (Nat.le_add_left _ _)).trans (Nat.dvd_of_mod_eq_zero hstart))
  rw [setupEptRange_eq] at hserved ⊢
  have hserved₁ : Served (start.toNat + len.toNat - start.toNat) l _ := hserved.imp
    (fun h => show 3 * _ ≤ _ by omega) fun ⟨m', hrun, hden⟩ => by
      obtain ⟨r, hr, rfl⟩ := Option.map_eq_some_iff.mp hrun
      exact ⟨r, hr, hden⟩
  have h₀ : EptProgress m m pml4 perm (eptLevel map1g map2m start.toNat (start.toNat + len.toNat))
      start.toNat (start.toNat + len.toNat) start l :=
    ⟨htree, ⟨fun v hv hlt => absurd hv (not_le.mpr hlt), fun _ _ _ _ => Iff.rfl, fun _ _ _ => rfl⟩,
      le_rfl, Nat.le_add_right _ _⟩
  obtain ⟨phys₁, m₁, l₁, hrun₁, hge₁, h₁, hlen₁, hend₁⟩ :=
    phase_spec (eptPages_1g hperm) h₀
      (hserved₁.of_bind
        ((phase_denied (eptPages_2m hperm)).bind (phase_denied (eptPages_4k hperm))))
      hlv hsum hmax (by rintro rfl; exact hstart)
      (fun h1g page v hge haligned hv hlt hfits =>
        if_pos ⟨h1g, (pageInside_iff haligned hv hlt).mpr ⟨hge, hfits⟩⟩)
      (by omega)
  have hend₁ : PhaseEnd map1g 30 _ _ _ := hend₁
  rw [hrun₁, Option.bind_some] at hserved₁ ⊢
  have hserved₂ : Served (start.toNat + len.toNat - phys₁.toNat) l₁ _ := hserved₁.imp_left hlen₁
  have haligned₁ : map2m = true → phys₁.toNat % 2 ^ 21 = 0 := fun h2m =>
    hend₁.mod (by norm_num) fun h1g => hstart21 h1g h2m
  obtain ⟨phys₂, m₂, l₂, hrun₂, hge₂, h₂, hlen₂, hend₂⟩ :=
    phase_spec (eptPages_2m hperm) h₁ (hserved₂.of_bind (phase_denied (eptPages_4k hperm)))
      hlv hsum hmax haligned₁
      (fun h2m page v hge haligned hv hlt hfits => (if_neg (hend₁.not_inside (hge.trans hv))).trans
        (if_pos ⟨h2m, (pageInside_iff haligned hv hlt).mpr ⟨hge₁.trans hge, hfits⟩⟩))
      (by omega)
  have hend₂ : PhaseEnd map2m 21 _ _ _ := hend₂
  rw [hrun₂, Option.bind_some] at hserved₂ ⊢
  have haligned₂ : phys₂.toNat % 2 ^ 12 = 0 :=
    hend₂.mod (by norm_num) fun _ => hend₁.mod (by norm_num) fun _ => hstart12
  obtain ⟨phys₃, m₃, l₃, hrun₃, -, h₃, -, hend₃⟩ :=
    phase_spec (eptPages_4k hperm) h₂ (hserved₂.imp_left hlen₂) hlv hsum hmax (fun _ => haligned₂)
      (fun _ page v hge haligned hv hlt hfits => (if_neg (hend₁.not_inside (by omega))).trans
        (if_neg (hend₂.not_inside (hge.trans hv))))
      (by omega)
  have hend : phys₃.toNat = start.toNat + len.toNat := by
    obtain ⟨hmod, hlt⟩ : phys₃.toNat % 2 ^ 12 = 0 ∧
      start.toNat + len.toNat < phys₃.toNat + 2 ^ 12 := hend₃.ended rfl
    have hle := h₃.le
    omega
  rw [hrun₃]
  exact ⟨m₃, rfl, hend ▸ h₃.upTo⟩

end Range

/-! ## The permissions of the range -/

section Perms

variable {m m' : Machine 64} {pml4 perm pte v e : BitVec 64} {es : List (BitVec 64)} {n : ℕ}

/-- Meeting an entry keeps a set of permissions exactly if the entry grants it. -/
theorem and_eq_iff {p x : BitVec 64} (hx : x &&& p = x) : e &&& x = p ↔ p &&& e = p ∧ x = p := by
  constructor
  · intro h
    have hxp : x = p := by
      rw [← hx, ← h, BitVec.and_comm e, ← BitVec.and_assoc, BitVec.and_self]
    exact ⟨by rw [BitVec.and_comm, ← hxp, h, hxp], hxp⟩
  · rintro ⟨h, rfl⟩
    rw [BitVec.and_comm, h]

theorem eptPerms_and (hpte : pte &&& eptPresent = perm &&& eptPresent) :
    eptPerms (es ++ [pte]) &&& (perm &&& eptPresent) = eptPerms (es ++ [pte]) := by
  induction es with
  | nil =>
    show pte &&& eptPresent &&& _ = pte &&& eptPresent
    rw [hpte, BitVec.and_self]
  | cons e es ih =>
    show e &&& eptPerms (es ++ [pte]) &&& _ = e &&& eptPerms (es ++ [pte])
    rw [BitVec.and_assoc, ih]

/-- A walk to a leaf with the permissions `perm` has them if what stands above grants them. -/
theorem eptPerms_eq_iff (hpte : pte &&& eptPresent = perm &&& eptPresent) (d : ℕ) :
    eptPerms (es ++ [pte]) = perm &&& eptPresent ↔ ∀ e ∈ es, Grants perm d e := by
  induction es with
  | nil => simpa [eptPerms] using hpte
  | cons e es ih =>
    rw [List.forall_mem_cons, ← ih]
    exact and_eq_iff (eptPerms_and hpte)

/-- Above the end of a walk every entry is present. -/
theorem entriesAbove_iff {P : ℕ → BitVec 64 → Prop}
    (hends : eptFormat.radix.Ends m.mem pml4 v n pte) : EntriesAbove P n pml4 m.mem v ↔
      ∀ k e, k < n → eptFormat.radix.entry m.mem pml4 v k = some e → P k e := by
  refine forall₂_congr fun k e => forall₂_congr fun hk he => ⟨fun h => h ?_, fun h _ => h⟩
  by_contra hpresent
  exact hk.ne' (hends.unique _ ⟨he, eptFormat.nextTable_eq_none.mpr (Or.inl hpresent)⟩).1

/-- A mapped address has its own host address, the level of its leaf, and the permissions that the
entries of its walk grant. -/
theorem EptMapped.translate {phys : BitVec 64} {level cur : ℕ}
    (h : EptMapped m pml4 perm v phys pte level cur) (hlevel : 1 ≤ level ∧ level ≤ 3) :
    (∀ es, eptFormat.walk pml4 m.mem v = some es → 5 - es.length = level) ∧
      (eptTranslate pml4 m.mem v = some (v, perm &&& eptPresent) ↔
        perm &&& eptPresent ≠ 0 ∧ EntriesAbove (Grants perm) (4 - level) pml4 m.mem v) := by
  have hwalk := eptFormat.walk_of_ends h.ends
  have hpresent : eptFormat.Present pte ↔ perm &&& eptPresent ≠ 0 := by
    rw [← h.leaf.perms]
    rfl
  by_cases hon : eptFormat.Present pte
  · have hlv : eptFormat.pageLevel - (4 - level) = level :=
      Nat.sub_sub_self (hlevel.2.trans (by decide))
    rw [if_pos hon] at hwalk
    have hhost := h.leaf.hostAddr_eq hlevel ((shift_eq_iff h.aligned).mpr h.page)
    rw [eptTranslate_of_ends h.ends hon, hlv, hhost, hwalk]
    refine ⟨?_, ?_⟩
    · rintro es ⟨⟩
      rw [List.length_append, eptFormat.length_of_ends h.ends _ le_rfl, List.length_singleton]
      omega
    · rw [Option.some.injEq, Prod.mk.injEq, eptPerms_eq_iff h.leaf.perms 0, entriesAbove_iff h.ends]
      simp only [List.mem_filterMap, List.mem_range, true_and]
      constructor
      · intro hgrants
        exact ⟨hpresent.mp hon, fun k e hk he => hgrants e ⟨k, hk, he⟩⟩
      · rintro ⟨-, hgrants⟩ e ⟨k, hk, he⟩
        exact hgrants k e hk he
  · rw [if_neg hon] at hwalk
    rw [eptTranslate, hwalk, Option.map_none]
    exact ⟨fun es hes => (by cases hes), iff_of_false (by simp) fun h => hon (hpresent.mpr h.1)⟩

end Perms

/-! ## The identity on a range -/

/-- A level whose pages are enabled. -/
def EptEnabled (map1g map2m : Bool) (level : ℕ) : Prop :=
  level = 1 ∨ level = 2 ∧ map2m ∨ level = 3 ∧ map1g

theorem eptLevel_enabled (map1g map2m : Bool) (first last v : ℕ) :
    EptEnabled map1g map2m (eptLevel map1g map2m first last v) := by
  unfold eptLevel EptEnabled
  split_ifs with h1g h2m
  · exact Or.inr (Or.inr ⟨rfl, h1g.1⟩)
  · exact Or.inr (Or.inl ⟨rfl, h2m.1⟩)
  · exact Or.inl rfl

/-- `m'` maps `[first, last)` to itself with the permissions `perm`, by pages that are enabled, and
translates what lies outside as `m` does. -/
structure EptRange (m m' : Machine 64) (pml4 perm : BitVec 64) (map1g map2m : Bool)
    (first last : ℕ) : Prop where
  mapped : ∀ v : BitVec 64, first ≤ v.toNat → v.toNat < last →
    eptTranslate pml4 m'.mem v = some (v, perm &&& eptPresent)
  enabled : ∀ v : BitVec 64, first ≤ v.toNat → v.toNat < last → ∀ es,
    eptFormat.walk pml4 m'.mem v = some es → EptEnabled map1g map2m (5 - es.length)
  outside : ∀ v : BitVec 64, v < 1#64 <<< 48 → ¬(first ≤ v.toNat ∧ v.toNat < last) →
    eptTranslate pml4 m'.mem v = eptTranslate pml4 m.mem v

section Identity

variable {m : Machine 64} {pml4 perm start len : BitVec 64} {l : List (BitVec 64)} {fuel : ℕ}
  {map1g map2m : Bool}

theorem EptWellFormed.eptTree (h : EptWellFormed m.mem pml4) (hs : Supplied eptFormat m pml4 0 l) :
    EptTree m pml4 l where
  supplied := hs
  tree := h.tree
  large v d e hd he hpresent hlarge := by
    have hd0 : d ≠ 0 := by
      rintro rfl
      exact hlarge (h.top v e he hpresent)
    have h4 : eptFormat.pageLevel = 4 := rfl
    exact ⟨Nat.pos_of_ne_zero hd0, h.aligned v d e he hpresent ⟨by omega, hlarge⟩⟩

theorem EptTree.wellFormed (h : EptTree m pml4 l) : EptWellFormed m.mem pml4 where
  tree := h.tree
  top v e he hpresent := by
    by_contra hlarge
    exact absurd (h.large v 0 e (by norm_num) he hpresent hlarge).1 (lt_irrefl 0)
  aligned v d e he hpresent hlarge := by
    have hd : eptFormat.pageLevel - d = 2 ∨ eptFormat.pageLevel - d = 3 := hlarge.1
    have h4 : eptFormat.pageLevel = 4 := rfl
    exact (h.large v d e (by omega) he hpresent hlarge.2).2

/-- A page of 4K inside a page of 1G, which is split twice : behind it nothing moves. -/
theorem installEptEntry_preserves_split : ∃ m m', install1gEpt 0x1000 0 0 7 zeroedRoot = some m ∧
    installEptEntry 0x1000 1 0x5000 0x9007 0 m = some m' ∧
    getEptPte m' 0x1000 0x5000 1 = some (some 0x9007) ∧
    eptTranslate 0x1000 m'.mem 0x6123 = some (0x6123, 7) := by
  have hrun : (install1gEpt 0x1000 0 0 7 zeroedRoot).bind (fun m =>
      (installEptEntry 0x1000 1 0x5000 0x9007 0 m).map fun m' =>
        (m'.denied, eptTranslate 0x1000 m.mem 0x6123)) = some (false, some (0x6123, 7)) := by
    decide +kernel
  have hleaf : EptLeaf 3 0 7 (0 &&& ~~~(pageSize - 1) ||| 7 ||| eptLargePage) :=
    (eptLeaf_page (by decide) (by decide)).withLarge
  obtain ⟨m, l, hinstall, -, htree, -⟩ :=
    (zeroedRoot_wellFormed.eptTree (zeroedRoot_supplied _)).install ⟨by norm_num, by norm_num⟩ hleaf
      (by decide) rfl (Or.inl (by decide))
  rw [show install1gEpt 0x1000 0 0 7 zeroedRoot = some m from hinstall, Option.bind_some] at hrun
  obtain ⟨m', hrun', h⟩ := Option.map_eq_some_iff.mp hrun
  obtain ⟨hden, htranslate⟩ := Prod.mk.inj h
  obtain ⟨m'', hrun'', hget, hkept⟩ := installEptEntry_preserves htree.supplied htree.wellFormed
    (by decide) ⟨le_rfl, by norm_num⟩ (Or.inr ⟨m', hrun', hden⟩)
  exact ⟨m, m'', hinstall, hrun'', hget, (hkept 0x6123 (by decide) (by decide)).trans htranslate⟩

/-- `setup_ept_range` ends, and maps the range to itself, with enabled pages and nothing else
changed. It gives the range the permissions `perm` if and only if they grant something, and all
that stood above the new leaves grants them. -/
theorem setupEptRange_iff (hs : Supplied eptFormat m pml4 0 l) (hwf : EptWellFormed m.mem pml4)
    (hperm : perm &&& eptAddrMask = 0)
    (hstart : start.toNat % 2 ^ eptLevelShift (eptTopLevel map1g map2m) = 0)
    (hlen : len.toNat % 2 ^ 12 = 0) (hmax : start.toNat + len.toNat ≤ 2 ^ 48)
    (hfuel : len.toNat / 2 ^ 12 < fuel)
    (hserved : 3 * (len.toNat / 2 ^ 12) ≤ l.length ∨
      ∃ m', setupEptRange fuel pml4 start len map1g map2m perm m = some m' ∧ m'.denied = false) :
    ∃ m', setupEptRange fuel pml4 start len map1g map2m perm m = some m' ∧
      (EptRange m m' pml4 perm map1g map2m start.toNat (start.toNat + len.toNat) ↔
        ∀ v : BitVec 64, start.toNat ≤ v.toNat → v.toNat < start.toNat + len.toNat →
          perm &&& eptPresent ≠ 0 ∧ EntriesAbove (Grants perm)
            (4 - eptLevel map1g map2m start.toNat (start.toNat + len.toNat) v.toNat)
            pml4 m.mem v) := by
  obtain ⟨m', hrun, hupto⟩ :=
    setupEptRange.upTo (hwf.eptTree hs) hperm hstart hlen hmax hfuel hserved
  have hlv := eptLevel_bounds map1g map2m start.toNat (start.toNat + len.toNat)
  have hleaf : ∀ v : BitVec 64, start.toNat ≤ v.toNat → v.toNat < start.toNat + len.toNat →
      (∀ es, eptFormat.walk pml4 m'.mem v = some es →
        EptEnabled map1g map2m (5 - es.length)) ∧
      (eptTranslate pml4 m'.mem v = some (v, perm &&& eptPresent) ↔
        perm &&& eptPresent ≠ 0 ∧ EntriesAbove (Grants perm)
          (4 - eptLevel map1g map2m start.toNat (start.toNat + len.toNat) v.toNat)
          pml4 m.mem v) := by
    intro v hv hlt
    obtain ⟨phys, pte, hmapped⟩ := hupto.inside v hv hlt
    obtain ⟨hwalk, htranslate⟩ := hmapped.translate (hlv v.toNat)
    refine ⟨fun es hes => hwalk es hes ▸ eptLevel_enabled .., htranslate.trans ?_⟩
    exact and_congr_right fun _ => hupto.above v (hmapped.lt_48 hmax).2 _ (grants_stable perm)
  refine ⟨m', hrun, fun h v hv hlt => ((hleaf v hv hlt).2).mp (h.mapped v hv hlt), fun h => ?_⟩
  exact ⟨fun v hv hlt => (hleaf v hv hlt).2.mpr (h v hv hlt), fun v hv hlt => (hleaf v hv hlt).1,
    hupto.outside⟩

/-- A 2M page and one page behind it, from an empty table. -/
theorem setupEptRange_iff_zeroedRoot : ∃ m',
    setupEptRange 1000 0x1000 0 0x201000 false true 7 zeroedRoot = some m' ∧
      eptTranslate 0x1000 m'.mem 0x1234 = some (0x1234, 7) ∧
      eptTranslate 0x1000 m'.mem 0x200123 = some (0x200123, 7) := by
  have hserved : (setupEptRange 1000 0x1000 0 0x201000 false true 7 zeroedRoot).map Machine.denied =
      some false := by
    decide
  obtain ⟨m', hrun, hden⟩ := Option.map_eq_some_iff.mp hserved
  obtain ⟨m'', hrun', hiff⟩ := setupEptRange_iff (zeroedRoot_supplied _) zeroedRoot_wellFormed
    (by decide) (by decide) (by decide) (by decide) (show _ < 1000 by decide)
    (Or.inr ⟨m', hrun, hden⟩)
  have h := hiff.mpr fun v _ _ => ⟨by decide, fun d e _ he hpresent => by
    rw [zeroedRoot_entry _ he] at hpresent
    exact absurd hpresent eptFormat.not_present_zero⟩
  exact ⟨m'', hrun', h.mapped 0x1234 (by decide) (by decide), h.mapped 0x200123 (by decide)
    (by decide)⟩

/-- Where a read-only 2M page was, a page set up with all permissions is read-only. -/
theorem setupEptRange_readOnly : ∃ m m' l, install2mEpt 0x1000 0 0 1 zeroedRoot = some m ∧
    Supplied eptFormat m 0x1000 0 l ∧ EptWellFormed m.mem 0x1000 ∧
    setupEptRange 2 0x1000 0 0x1000 false false 7 m = some m' ∧ m'.denied = false ∧
    eptTranslate 0x1000 m'.mem 0 = some (0, 1) ∧
    ¬EptRange m m' 0x1000 7 false false 0 0x1000 := by
  have hrun : (install2mEpt 0x1000 0 0 1 zeroedRoot).bind (fun m =>
      (setupEptRange 2 0x1000 0 0x1000 false false 7 m).map fun m' =>
        (m'.denied, eptTranslate 0x1000 m'.mem 0)) = some (false, some (0, 1)) := by
    decide +kernel
  have hleaf : EptLeaf 2 0 1 (0 &&& ~~~(pageSize - 1) ||| 1 ||| eptLargePage) :=
    (eptLeaf_page (by decide) (by decide)).withLarge
  obtain ⟨m, l, hinstall, -, htree, -⟩ :=
    (zeroedRoot_wellFormed.eptTree (zeroedRoot_supplied _)).install ⟨by norm_num, by norm_num⟩ hleaf
      (by decide) rfl (Or.inl (by decide))
  rw [show install2mEpt 0x1000 0 0 1 zeroedRoot = some m from hinstall, Option.bind_some] at hrun
  obtain ⟨m', hrun', h⟩ := Option.map_eq_some_iff.mp hrun
  obtain ⟨hden, htranslate⟩ := Prod.mk.inj h
  refine ⟨m, m', l, hinstall, htree.supplied, htree.wellFormed, hrun', hden, htranslate,
    fun hr => ?_⟩
  have hmapped := hr.mapped 0 (by decide) (by decide)
  rw [htranslate] at hmapped
  exact absurd hmapped (by decide)

end Identity

end AcrnUt
