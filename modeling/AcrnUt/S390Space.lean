import AcrnUt.S390Tables

/-!
# The s390x address space

`setup_mmu` installs the identity on the physical memory and on the last 128M of the address space,
and `install_page` changes a page. After any calls, the walk of an address gives the frame of the
last call for its page, else the page itself where the identity is, and else ends at an invalid
entry (`GoodSpace`).

The loop of `setup_identity` ends where `cur` reaches `end_addr`, or comes round to 0 for the second
range. If `phys_end` lies in the last page, `cur` comes round below it and the loop does not end, so
`setup_mmu` makes the address space if and only if it does not (`setupMmu_iff`).
-/

set_option linter.unusedSectionVars false

namespace AcrnUt

namespace S390

/-- A call of `install_page`. -/
structure Install where
  phys : BitVec 64
  vaddr : BitVec 64

/-- Calls of `install_page`. -/
def installs (root : BitVec 64) (l : List Install) (m : S390Machine) : S390Machine :=
  l.foldl (fun m c => (installPage root c.phys c.vaddr m).2) m

/-- The frame of the last call for the page of `v`. -/
def lastInstall : List Install → BitVec 64 → Option (BitVec 64)
  | [], _ => none
  | c :: l, v => (lastInstall l v).or (if page c.vaddr = page v then some c.phys else none)

/-- The address `k` pages on. -/
def nthPage (start : BitVec 64) (k : ℕ) : BitVec 64 :=
  start + BitVec.ofNat 64 (k * 2 ^ 12)

/-- The identity on `n` pages. -/
def identity (start : BitVec 64) (n : ℕ) : List Install :=
  (List.range n).map fun k => ⟨nthPage start k, nthPage start k⟩

/-- The frames of the address space. -/
def space (physEnd : BitVec 64) (calls : List Install) (v : BitVec 64) : Option (BitVec 64) :=
  (lastInstall calls v).or
    (if page v < physEnd ∨ -(1#64 <<< 27) ≤ page v then some (page v) else none)

/-- After the calls, the walks give the frames of the address space, or end at an invalid entry.
`virt_to_pte_phys` gives what they give, and a further call changes those of its page only. -/
structure GoodSpace (physEnd root : BitVec 64) (calls : List Install) (m : S390Machine) : Prop where
  walk : ∀ v, hwWalk m.mem root v = space physEnd calls v
  invalid : ∀ v, space physEnd calls v = none → EndsInvalid m.mem root v
  lookup : ∀ v phys, hwWalk m.mem root v = some phys →
    virtToPtePhys root v m = (phys + (v &&& ~~~pageMask), m)
  frame : ∀ c : Install, page c.phys = c.phys → (installs root [c] m).denied = false →
    ∀ v, page c.vaddr ≠ page v → hwWalk (installs root [c] m).mem root v = hwWalk m.mem root v

section Installs

variable {B : Layout} {m m' : S390Machine} {root : BitVec 64} {l l' : List Install}

theorem lastInstall_append (v : BitVec 64) :
    lastInstall (l ++ l') v = (lastInstall l' v).or (lastInstall l v) := by
  induction l with
  | nil => simp [lastInstall]
  | cons c l ih => rw [List.cons_append, lastInstall, ih, lastInstall, Option.or_assoc]

theorem installs_append : installs root (l ++ l') m = installs root l' (installs root l m) :=
  List.foldl_append ..

/-- What was served in the end was served before. -/
theorem served_of_installs (h : (installs root l m).denied = false) : m.denied = false := by
  induction l generalizing m with
  | nil => exact h
  | cons c l ih =>
    have hstep := ih h
    exact served_of_getPte (served_of_setPte hstep)

/-- The walks after calls. -/
theorem S390Tables.installs_spec (h : S390Tables B m root) (hl : ∀ c ∈ l, page c.phys = c.phys)
    (hden : (installs root l m).denied = false) :
    S390Tables B (installs root l m) root ∧
      ∀ v, B.walk (installs root l m).mem root v = (lastInstall l v).or (B.walk m.mem root v) := by
  induction l generalizing m with
  | nil => exact ⟨h, fun v => by simp [installs, lastInstall]⟩
  | cons c l ih =>
    obtain ⟨h₁, hw₁⟩ := h.installPage_spec (hl c List.mem_cons_self)
      (served_of_installs (l := l) hden)
    obtain ⟨h', hw'⟩ := ih h₁ (fun c' hc' => hl c' (List.mem_cons_of_mem c hc')) hden
    refine ⟨h', fun v => (hw' v).trans ?_⟩
    rw [hw₁, lastInstall, Option.or_assoc]
    by_cases hv : page c.vaddr = page v <;> simp [hv]

end Installs

/-! ## The identity -/

section Identity

variable {root start : BitVec 64} {m : S390Machine} {n : ℕ}

@[simp] theorem nthPage_zero (start : BitVec 64) : nthPage start 0 = start := by
  unfold nthPage
  simp

theorem nthPage_succ (start : BitVec 64) (k : ℕ) :
    nthPage start (k + 1) = nthPage (start + 1#64 <<< 12) k := by
  unfold nthPage
  rw [Nat.succ_mul, BitVec.ofNat_add, BitVec.add_assoc,
    BitVec.add_comm (BitVec.ofNat 64 (k * 2 ^ 12))]
  rfl

theorem identity_succ (start : BitVec 64) (n : ℕ) :
    identity start (n + 1) = ⟨start, start⟩ :: identity (start + 1#64 <<< 12) n := by
  unfold identity
  rw [List.range_succ_eq_map, List.map_cons, List.map_map, nthPage_zero]
  refine congrArg _ (List.map_congr_left fun k _ => ?_)
  rw [Function.comp_apply, Nat.succ_eq_add_one, nthPage_succ]

/-- Where the loop of `setup_identity` ends. -/
def LoopEnds (start endAddr cur : BitVec 64) : Prop :=
  (start < endAddr ∧ endAddr ≤ cur) ∨ (endAddr < start ∧ cur ≤ endAddr)

theorem loop_of_ends {endAddr cur : BitVec 64} (h : LoopEnds start endAddr cur) (fuel : ℕ) :
    setupIdentity.loop root start endAddr (fuel + 1) cur m = some m := by
  rw [setupIdentity.loop]
  rcases h with h | h
  · rw [if_pos h]
  · rw [if_pos h, ite_self]

theorem loop_of_not_ends {endAddr cur : BitVec 64} (h : ¬LoopEnds start endAddr cur) (fuel : ℕ) :
    setupIdentity.loop root start endAddr (fuel + 1) cur m =
      setupIdentity.loop root start endAddr fuel (cur + 1#64 <<< 12)
        (installPage root cur cur m).2 := by
  obtain ⟨h₁, h₂⟩ := not_or.mp h
  rw [setupIdentity.loop, if_neg h₁, if_neg h₂]

/-- The loop installs the pages up to the first address at which it ends. -/
theorem loop_eq {endAddr cur : BitVec 64} {fuel : ℕ}
    (hrun : ∀ k < n, ¬LoopEnds start endAddr (nthPage cur k))
    (hend : LoopEnds start endAddr (nthPage cur n)) (hfuel : n < fuel) :
    setupIdentity.loop root start endAddr fuel cur m = some (installs root (identity cur n) m) := by
  obtain ⟨fuel, rfl⟩ := Nat.exists_eq_succ_of_ne_zero (Nat.ne_zero_of_lt hfuel)
  induction n generalizing cur m fuel with
  | zero =>
    rw [nthPage_zero] at hend
    exact loop_of_ends hend fuel
  | succ n ih =>
    obtain ⟨fuel, rfl⟩ := Nat.exists_eq_succ_of_ne_zero (show fuel ≠ 0 by omega)
    have hcur : ¬LoopEnds start endAddr cur := by
      have := hrun 0 (Nat.zero_lt_succ n)
      rwa [nthPage_zero] at this
    rw [loop_of_not_ends hcur, identity_succ]
    rw [nthPage_succ] at hend
    refine ih (fun k hk => ?_) hend fuel (by omega)
    rw [← nthPage_succ]
    exact hrun (k + 1) (by omega)

/-- If it ends nowhere, it does not return. -/
theorem loop_eq_none {endAddr cur : BitVec 64}
    (hrun : ∀ k, ¬LoopEnds start endAddr (nthPage cur k)) (fuel : ℕ) :
    setupIdentity.loop root start endAddr fuel cur m = none := by
  induction fuel generalizing cur m with
  | zero => rfl
  | succ fuel ih =>
    have hcur := hrun 0
    rw [nthPage_zero] at hcur
    rw [loop_of_not_ends hcur]
    exact ih fun k => nthPage_succ cur k ▸ hrun (k + 1)

theorem toNat_nthPage {k : ℕ} (h : start.toNat + k * 2 ^ 12 < 2 ^ 64) :
    (nthPage start k).toNat = start.toNat + k * 2 ^ 12 := by
  unfold nthPage
  rw [BitVec.toNat_add, BitVec.toNat_ofNat]
  omega

/-- The addresses in a page of a run. -/
theorem page_nthPage_eq_iff {k : ℕ} (hstart : page start = start)
    (h : start.toNat + k * 2 ^ 12 < 2 ^ 64) (v : BitVec 64) : page (nthPage start k) = page v ↔
      start.toNat + k * 2 ^ 12 ≤ v.toNat ∧ v.toNat < start.toNat + (k + 1) * 2 ^ 12 := by
  have hmod := page_eq_self_iff.mp hstart
  rw [← BitVec.toNat_inj, toNat_page, toNat_page, toNat_nthPage h]
  omega

/-- The pages of the identity. -/
theorem lastInstall_identity (hstart : page start = start) (h : start.toNat + n * 2 ^ 12 ≤ 2 ^ 64)
    (v : BitVec 64) :
    lastInstall (identity start n) v =
      if start.toNat ≤ v.toNat ∧ v.toNat < start.toNat + n * 2 ^ 12 then some (page v)
      else none := by
  induction n with
  | zero =>
    rw [if_neg (by omega)]
    rfl
  | succ n ih =>
    have hlt : start.toNat + n * 2 ^ 12 < 2 ^ 64 := by omega
    have hnth := toNat_nthPage hlt
    have hpage := page_nthPage_eq_iff hstart hlt v
    have happend : identity start (n + 1) =
        identity start n ++ [⟨nthPage start n, nthPage start n⟩] := by
      unfold identity
      rw [List.range_succ, List.map_append]
      rfl
    rw [happend, lastInstall_append, ih hlt.le, lastInstall, lastInstall, Option.none_or]
    by_cases hlast : page (nthPage start n) = page v
    · have hself : nthPage start n = page v := by
        rw [← hlast, eq_comm]
        refine page_eq_self_iff.mpr ?_
        have hmod := page_eq_self_iff.mp hstart
        rw [hnth]
        omega
      have hrange := hpage.mp hlast
      rw [if_pos hlast, Option.some_or, hself, if_pos ⟨by omega, hrange.2⟩]
    · rw [if_neg hlast, Option.none_or]
      refine if_congr ?_ rfl rfl
      rw [hpage] at hlast
      omega

end Identity

/-! ## `setup_mmu` -/

section Setup

variable {root physEnd : BitVec 64} {m : S390Machine} {fuel : ℕ}

/-- The number of pages that `[0, physEnd)` reaches into. -/
def physPages (physEnd : BitVec 64) : ℕ :=
  (physEnd.toNat + (2 ^ 12 - 1)) / 2 ^ 12

theorem toNat_lastPage : (-(1#64 <<< 12)).toNat = 2 ^ 64 - 2 ^ 12 := by
  decide

theorem toNat_top : (-(1#64 <<< 27)).toNat = 2 ^ 64 - 2 ^ 27 := by
  decide

theorem toNat_nthPage_zero (k : ℕ) : (nthPage 0 k).toNat = k * 2 ^ 12 % 2 ^ 64 := by
  unfold nthPage
  rw [BitVec.toNat_add, BitVec.toNat_ofNat, show (0 : BitVec 64).toNat = 0 from rfl]
  omega

theorem not_lt_zero (a : BitVec 64) : ¬a < 0 := by
  rw [BitVec.lt_def]
  exact Nat.not_lt_zero _

/-- The range of the physical memory. -/
theorem setupIdentity_phys (hpos : 0 < physEnd) (hle : physEnd ≤ -(1#64 <<< 12))
    (hfuel : 2 ^ 52 < fuel) :
    setupIdentity fuel root 0 physEnd m =
      some (installs root (identity 0 (physPages physEnd)) m) := by
  rw [BitVec.le_def, toNat_lastPage] at hle
  unfold setupIdentity
  rw [show (0 : BitVec 64) &&& pageMask = 0 from rfl]
  refine loop_eq (fun k hk => ?_) (Or.inl ⟨hpos, ?_⟩) ?_
  · rintro (⟨-, h⟩ | ⟨h, -⟩)
    · rw [BitVec.le_def, toNat_nthPage_zero] at h
      unfold physPages at hk
      omega
    · exact not_lt_zero _ h
  · rw [BitVec.le_def, toNat_nthPage_zero]
    unfold physPages
    omega
  · unfold physPages
    omega

/-- The last 128M, where the loop comes round to 0. -/
theorem setupIdentity_top (hfuel : 2 ^ 52 < fuel) :
    setupIdentity fuel root (-(1#64 <<< 27)) 0 m =
      some (installs root (identity (-(1#64 <<< 27)) (2 ^ 15)) m) := by
  unfold setupIdentity
  rw [show (-(1#64 <<< 27)) &&& pageMask = -(1#64 <<< 27) by decide]
  refine loop_eq (fun k hk => ?_) (Or.inr ⟨by decide, ?_⟩) (by omega)
  · rintro (⟨h, -⟩ | ⟨-, h⟩)
    · exact not_lt_zero _ h
    · have hlt : (-(1#64 <<< 27)).toNat + k * 2 ^ 12 < 2 ^ 64 := by
        rw [toNat_top]
        omega
      rw [BitVec.le_def, toNat_nthPage hlt, toNat_top] at h
      simp at h
  · decide

/-- If `phys_end` lies in the last page, no page reaches it. -/
theorem setupIdentity_never (h : -(1#64 <<< 12) < physEnd) :
    setupIdentity fuel root 0 physEnd m = none := by
  rw [BitVec.lt_def, toNat_lastPage] at h
  unfold setupIdentity
  rw [show (0 : BitVec 64) &&& pageMask = 0 from rfl]
  refine loop_eq_none (fun k => ?_) fuel
  rintro (⟨-, hk⟩ | ⟨hk, -⟩)
  · rw [BitVec.le_def, toNat_nthPage_zero] at hk
    omega
  · exact not_lt_zero _ hk

/-- The calls that `setup_mmu` makes. -/
def setupCalls (physEnd : BitVec 64) : List Install :=
  identity 0 (physPages physEnd) ++ identity (-(1#64 <<< 27)) (2 ^ 15)

theorem setupMmu_eq (hpos : 0 < physEnd) (hle : physEnd ≤ -(1#64 <<< 12)) (hfuel : 2 ^ 52 < fuel) :
    setupMmu fuel physEnd m = some ((allocOne pgd m).1,
      installs (allocOne pgd m).1 (setupCalls physEnd) (allocOne pgd m).2) := by
  unfold setupMmu setupCalls
  rw [installs_append]
  simp only [setupIdentity_phys hpos hle hfuel, setupIdentity_top hfuel]
  rfl

theorem setupMmu_never (h : -(1#64 <<< 12) < physEnd) : setupMmu fuel physEnd m = none := by
  unfold setupMmu
  simp only [setupIdentity_never h]
  rfl

theorem aligned_identity {start : BitVec 64} {n : ℕ} (hstart : page start = start) :
    ∀ c ∈ identity start n, page c.phys = c.phys := by
  intro c hc
  obtain ⟨k, -, rfl⟩ := List.mem_map.mp hc
  rw [page_eq_self_iff] at hstart ⊢
  unfold nthPage
  rw [BitVec.toNat_add, BitVec.toNat_ofNat]
  omega

theorem aligned_setupCalls (physEnd : BitVec 64) :
    ∀ c ∈ setupCalls physEnd, page c.phys = c.phys := by
  intro c hc
  rcases List.mem_append.mp hc with hc | hc
  · exact aligned_identity (by decide) c hc
  · exact aligned_identity (by decide) c hc

/-- The walks after `setup_mmu` and further calls. -/
theorem lastInstall_setup (hle : physEnd ≤ -(1#64 <<< 12)) (calls : List Install) (v : BitVec 64) :
    lastInstall (setupCalls physEnd ++ calls) v = space physEnd calls v := by
  have hv := v.isLt
  have hpage := toNat_page v
  rw [BitVec.le_def, toNat_lastPage] at hle
  have hphys : (0 : BitVec 64).toNat + physPages physEnd * 2 ^ 12 ≤ 2 ^ 64 := by
    rw [show (0 : BitVec 64).toNat = 0 from rfl]
    unfold physPages
    omega
  unfold setupCalls space
  rw [lastInstall_append, lastInstall_append, lastInstall_identity (by decide) hphys,
    lastInstall_identity (by decide) (by rw [toNat_top]; norm_num)]
  congr 1
  have hlow : (0 : BitVec 64).toNat ≤ v.toNat ∧
      v.toNat < (0 : BitVec 64).toNat + physPages physEnd * 2 ^ 12 ↔ page v < physEnd := by
    rw [BitVec.lt_def, hpage, show (0 : BitVec 64).toNat = 0 from rfl]
    unfold physPages
    omega
  have hhigh : (-(1#64 <<< 27)).toNat ≤ v.toNat ∧
      v.toNat < (-(1#64 <<< 27)).toNat + 2 ^ 15 * 2 ^ 12 ↔ -(1#64 <<< 27) ≤ page v := by
    rw [BitVec.le_def, hpage, toNat_top]
    omega
  rw [if_congr hhigh rfl rfl, if_congr hlow rfl rfl]
  by_cases hge : -(1#64 <<< 27) ≤ page v
  · rw [if_pos hge, if_pos (Or.inr hge)]
    rfl
  · rw [if_neg hge, Option.none_or]
    exact if_congr (or_iff_left hge).symm rfl rfl

/-- Tables whose walks are those of calls have the address space. -/
theorem S390Tables.goodSpace {B : Layout} {calls : List Install} (h : S390Tables B m root)
    (hwalk : ∀ v, B.walk m.mem root v = space physEnd calls v) :
    GoodSpace physEnd root calls m where
  walk v := (h.hwWalk_eq v).trans (hwalk v)
  invalid v hv := h.endsInvalid ((h.hwWalk_eq v).trans ((hwalk v).trans hv))
  lookup _ _ hv := h.virtToPtePhys_eq hv
  frame c hc hden v hv := by
    obtain ⟨h', hw'⟩ := h.installs_spec (l := [c])
      (fun c' hc' => List.mem_singleton.mp hc' ▸ hc) hden
    rw [h'.hwWalk_eq, hw', h.hwWalk_eq, lastInstall, lastInstall, if_neg hv]
    rfl

/-- For every `phys_end > 0` and every supply of fresh aligned blocks : `setup_mmu` returns and,
after any calls of `install_page` with aligned frames that were served, the walks give the frames of
the address space, if and only if `phys_end` does not lie in the last page beyond its start. No loop
makes more than `2^52` turns. -/
theorem setupMmu_iff (hpos : 0 < physEnd) (h : Supply m) (hfuel : 2 ^ 52 < fuel) :
    (∃ root m₁, setupMmu fuel physEnd m = some (root, m₁) ∧
      ∀ calls : List Install, (∀ c ∈ calls, page c.phys = c.phys) →
        (installs root calls m₁).denied = false →
        GoodSpace physEnd root calls (installs root calls m₁)) ↔
      physEnd ≤ -(1#64 <<< 12) := by
  constructor
  · rintro ⟨root, m₁, hsetup, -⟩
    by_contra hlt
    rw [setupMmu_never (BitVec.not_le.mp hlt)] at hsetup
    cases hsetup
  · intro hle
    refine ⟨_, _, setupMmu_eq hpos hle hfuel, fun calls hcalls hden => ?_⟩
    rw [← installs_append] at hden ⊢
    have halloc : allocOne pgd m = ((allocOne pgd m).1, (allocOne pgd m).2) := Prod.mk.eta.symm
    obtain ⟨hroot, hbare⟩ := allocRoot_spec h halloc (served_of_installs hden)
    have haligned : ∀ c ∈ setupCalls physEnd ++ calls, page c.phys = c.phys := fun c hc =>
      (List.mem_append.mp hc).elim (aligned_setupCalls physEnd c) (hcalls c)
    obtain ⟨htables, hwalk⟩ := hroot.installs_spec haligned hden
    refine htables.goodSpace fun v => ?_
    rw [hwalk, hbare, Option.or_none, lastInstall_setup hle]

end Setup

/-! ## Enough blocks -/

/-- Blocks for `a` more tables of the upper levels, and for `b` page tables. -/
structure Stocked (m : S390Machine) (a b : ℕ) : Prop where
  upper : a ≤ (m.blocks 2).length
  last : b ≤ (m.blocks 0).length
  served : m.denied = false

section Stocked

variable {m : S390Machine} {a b : ℕ} {root slot va : BitVec 64}

theorem Stocked.mono {a' b' : ℕ} (h : Stocked m a b) (ha : a' ≤ a) (hb : b' ≤ b) :
    Stocked m a' b' :=
  ⟨ha.trans h.upper, hb.trans h.last, h.served⟩

theorem Stocked.allocUpper {L : S390Level} (hL : L.order = 2) (h : Stocked m (a + 1) b) :
    Stocked (allocOne L m).2 a b := by
  obtain ⟨p, l, hl⟩ := List.exists_cons_of_length_pos (Nat.zero_lt_of_lt h.upper)
  have hupper := h.upper
  unfold allocOne S390Machine.allocPages
  rw [hL, hl]
  rw [hl, List.length_cons] at hupper
  dsimp only
  refine ⟨?_, ?_, (fill_denied L).trans h.served⟩
  · rw [fill_blocks]
    dsimp only
    rw [Function.update_self]
    omega
  · rw [fill_blocks]
    exact h.last

theorem Stocked.allocLast (h : Stocked m a (b + 1)) : Stocked (allocOne pte m).2 a b := by
  obtain ⟨p, l, hl⟩ := List.exists_cons_of_length_pos (Nat.zero_lt_of_lt h.last)
  have hlast := h.last
  unfold allocOne S390Machine.allocPages
  rw [show pte.order = 0 from rfl, hl]
  rw [hl, List.length_cons] at hlast
  dsimp only
  refine ⟨?_, ?_, (fill_denied pte).trans h.served⟩
  · rw [fill_blocks]
    exact h.upper
  · rw [fill_blocks]
    dsimp only
    rw [Function.update_self]
    omega

/-- A store takes no block. -/
theorem Stocked.store (h : Stocked m a b) (slot e : BitVec 64) : Stocked (m.store slot e) a b :=
  ⟨h.upper, h.last, h.served⟩

theorem Stocked.allocNextUpper {L L' : S390Level} (hL : L'.order = 2) (h : Stocked m (a + 1) b) :
    Stocked (allocNext L L' slot va m).2 a b := by
  unfold allocNext
  dsimp only
  split_ifs
  · exact (h.allocUpper hL).store _ _
  · exact h.mono (Nat.le_succ a) le_rfl

theorem Stocked.allocNextLast {L : S390Level} (h : Stocked m a (b + 1)) :
    Stocked (allocNext L pte slot va m).2 a b := by
  unfold allocNext
  dsimp only
  split_ifs
  · exact h.allocLast.store _ _
  · exact h.mono le_rfl (Nat.le_succ b)

/-- `get_pte` takes three blocks for the upper levels and one for a page table at most. -/
theorem Stocked.getPte (h : Stocked m (a + 3) (b + 1)) : Stocked (getPte root va m).2 a b := by
  rw [getPte_eq]
  have h₁ : Stocked (allocNext (level 0) (level 1) (offset (level 0) root va) va m).2 (a + 2)
    (b + 1) := h.allocNextUpper rfl
  exact ((h₁.allocNextUpper rfl).allocNextUpper rfl).allocNextLast

theorem Stocked.setPte {val : BitVec 64} (h : Stocked m (a + 3) (b + 1)) :
    Stocked (setPte root val va m).2 a b := by
  have hpte : Stocked (S390.getPte root va m).2 a b := h.getPte
  unfold S390.setPte ipte
  dsimp only
  split_ifs
  · exact hpte.store _ _
  · exact (hpte.store _ _).store _ _

theorem Stocked.installPage {phys : BitVec 64} (h : Stocked m (a + 3) (b + 1)) :
    Stocked (installPage root phys va m).2 a b :=
  h.setPte

theorem Stocked.installs {l : List Install} (h : Stocked m (a + 3 * l.length) (b + l.length)) :
    Stocked (installs root l m) a b := by
  induction l generalizing m with
  | nil => exact h
  | cons c l ih =>
    rw [List.length_cons] at h
    exact ih (Stocked.installPage (h.mono (by omega) (by omega)))

end Stocked

/-- `n` blocks of an order, one after another. -/
def rowOfBlocks (base : ℕ) (order n : ℕ) : List (BitVec 64) :=
  (List.range n).map fun i => BitVec.ofNat 64 (base + i * 2 ^ (12 + order))

theorem mem_rowOfBlocks {base order n : ℕ} (hfits : base + n * 2 ^ (12 + order) ≤ 2 ^ 64)
    {p : BitVec 64} (h : p ∈ rowOfBlocks base order n) :
    ∃ i < n, p.toNat = base + i * 2 ^ (12 + order) := by
  obtain ⟨i, hi, rfl⟩ := List.mem_map.mp h
  rw [List.mem_range] at hi
  have hle : (i + 1) * 2 ^ (12 + order) ≤ n * 2 ^ (12 + order) := Nat.mul_le_mul_right _ hi
  have hpos := Nat.two_pow_pos (12 + order)
  rw [Nat.succ_mul] at hle
  exact ⟨i, hi, by rw [BitVec.toNat_ofNat]; exact Nat.mod_eq_of_lt (by omega)⟩

theorem nodup_rowOfBlocks {base order n : ℕ} (hfits : base + n * 2 ^ (12 + order) ≤ 2 ^ 64) :
    (rowOfBlocks base order n).Nodup := by
  refine List.Nodup.map_on (fun i hi j hj heq => ?_) List.nodup_range
  have hpos := Nat.two_pow_pos (12 + order)
  have hlt : ∀ k ∈ List.range n, base + k * 2 ^ (12 + order) < 2 ^ 64 := fun k hk => by
    have hle : (k + 1) * 2 ^ (12 + order) ≤ n * 2 ^ (12 + order) :=
      Nat.mul_le_mul_right _ (List.mem_range.mp hk)
    rw [Nat.succ_mul] at hle
    omega
  have hnat := congrArg BitVec.toNat heq
  rw [BitVec.toNat_ofNat, BitVec.toNat_ofNat, Nat.mod_eq_of_lt (hlt i hi),
    Nat.mod_eq_of_lt (hlt j hj)] at hnat
  exact Nat.eq_of_mul_eq_mul_right hpos (Nat.add_left_cancel hnat)

/-- Pages from `2^60` on, and blocks of four pages from `2^59` on : enough for tables that map every
page of the address space. -/
def sampleMachine : S390Machine where
  mem _ := 0
  blocks k :=
    if k = 0 then rowOfBlocks (2 ^ 60) 0 (2 ^ 46)
    else if k = 2 then rowOfBlocks (2 ^ 59) 2 (2 ^ 35)
    else []
  denied := false

theorem sampleMachine_blocks (k : ℕ) : sampleMachine.blocks k =
    if k = 0 then rowOfBlocks (2 ^ 60) 0 (2 ^ 46)
    else if k = 2 then rowOfBlocks (2 ^ 59) 2 (2 ^ 35)
    else [] :=
  rfl

/-- The blocks, as numbers. -/
theorem mem_sampleMachine {k : ℕ} {p : BitVec 64} (h : p ∈ sampleMachine.blocks k) :
    (k = 0 ∧ ∃ i < 2 ^ 46, p.toNat = 2 ^ 60 + i * 2 ^ (12 + 0)) ∨
      (k = 2 ∧ ∃ i < 2 ^ 35, p.toNat = 2 ^ 59 + i * 2 ^ (12 + 2)) := by
  rw [sampleMachine_blocks] at h
  split_ifs at h with h₀ h₂
  · exact Or.inl ⟨h₀, mem_rowOfBlocks (by norm_num) h⟩
  · exact Or.inr ⟨h₂, mem_rowOfBlocks (by norm_num) h⟩
  · exact absurd h List.not_mem_nil

theorem supply_sampleMachine : Supply sampleMachine where
  nodup k := by
    rw [sampleMachine_blocks]
    split_ifs
    · exact nodup_rowOfBlocks (by norm_num)
    · exact nodup_rowOfBlocks (by norm_num)
    · exact List.nodup_nil
  aligned k p hp := by
    rcases mem_sampleMachine hp with ⟨rfl, i, -, hi⟩ | ⟨rfl, i, -, hi⟩ <;> norm_num <;> omega
  disjoint k k' p p' hp hp' hne := by
    have hsame : p.toNat = p'.toNat → k ≠ k' := by
      rintro heq rfl
      exact hne (by rw [BitVec.eq_of_toNat_eq heq])
    rcases mem_sampleMachine hp with ⟨rfl, i, hi, hpi⟩ | ⟨rfl, i, hi, hpi⟩ <;>
      rcases mem_sampleMachine hp' with ⟨rfl, j, hj, hpj⟩ | ⟨rfl, j, hj, hpj⟩ <;>
      norm_num at hsame ⊢ <;> omega

theorem stocked_sampleMachine : Stocked sampleMachine (2 ^ 35) (2 ^ 46) := by
  have hrow : ∀ base order n, (rowOfBlocks base order n).length = n := by
    intro base order n
    unfold rowOfBlocks
    rw [List.length_map, List.length_range]
  refine ⟨?_, ?_, rfl⟩
  · rw [sampleMachine_blocks, if_neg (by norm_num), if_pos rfl, hrow]
  · rw [sampleMachine_blocks, if_pos rfl, hrow]

/-- The sample has the blocks for 40000 calls. -/
theorem served_sampleMachine (root : BitVec 64) {l : List Install} (hl : l.length ≤ 40000) :
    (installs root l (allocOne pgd sampleMachine).2).denied = false := by
  have hroot : Stocked (allocOne pgd sampleMachine).2 (0 + 3 * l.length) (0 + l.length) :=
    Stocked.allocUpper rfl (stocked_sampleMachine.mono (by omega) (by omega))
  exact hroot.installs.served

theorem length_setupCalls (physEnd : BitVec 64) :
    (setupCalls physEnd).length = physPages physEnd + 2 ^ 15 := by
  unfold setupCalls identity
  rw [List.length_append, List.length_map, List.length_map, List.length_range, List.length_range]

/-- One page of physical memory, and a call. -/
theorem setupMmu_onePage : ∃ fuel root m₁,
    setupMmu fuel 0x1000 sampleMachine = some (root, m₁) ∧
      (installs root [⟨0x5000, 0x9000⟩] m₁).denied = false ∧
      hwWalk (installs root [⟨0x5000, 0x9000⟩] m₁).mem root 0x9000 = some 0x5000 := by
  obtain ⟨fuel, hfuel⟩ := exists_gt (2 ^ 52)
  have hle : (0x1000 : BitVec 64) ≤ -(1#64 <<< 12) := by decide
  obtain ⟨root, m₁, hsetup, hgood⟩ :=
    (setupMmu_iff (by decide) supply_sampleMachine hfuel).mpr hle
  have hserved : (installs root [⟨0x5000, 0x9000⟩] m₁).denied = false := by
    have heq := hsetup.symm.trans (setupMmu_eq (by decide) hle hfuel)
    obtain ⟨hroot, hm₁⟩ := Prod.mk.inj (Option.some.inj heq)
    rw [hroot, hm₁, ← installs_append]
    refine served_sampleMachine _ ?_
    rw [List.length_append, length_setupCalls]
    decide
  refine ⟨fuel, root, m₁, hsetup, hserved, ?_⟩
  rw [(hgood _ (fun c hc => by cases List.mem_singleton.mp hc; decide) hserved).walk]
  decide

/-- If `phys_end` is the last address, `setup_mmu` does not return. -/
theorem setupMmu_endless :
    Supply sampleMachine ∧ ∀ fuel, setupMmu fuel 0xffffffffffffffff sampleMachine = none := by
  refine ⟨supply_sampleMachine, fun fuel => ?_⟩
  exact setupMmu_never (by decide)

end S390

end AcrnUt
