import AcrnUt.Vmalloc
import Mathlib.Order.CompletePartialOrder

/-!
# The virtual allocator on several CPUs

`alloc_vpages` of `lib/vmalloc.c` as steps of any number of CPUs under sequential consistency. It
moves `vfree_top` down under the lock, and reads it again for its result after the lock. A CPU
between the two steps has pages it has not been told of.

If no CPU moves `vfree_top` while another is between its steps, and there is room for what is
asked (`VpageSmp.Alone`), the ranges handed out are disjoint and lie below the first `vfree_top`
(`VpageSmp.run_disjoint`). If one does, the two get the same start (`VpageSmp.overlap`), and without
room the range goes around the address space (`VpageSmp.no_room`). Before `init_alloc_vpage`,
`vfree_top` is 0, and the ranges go down from the top of the address space.
-/

set_option linter.unusedSectionVars false

namespace AcrnUt

variable {w : ℕ} [PageGeom w]

/-- The section of `alloc_vpages`. -/
def allocVpages.locked (nr vfreeTop : BitVec w) : BitVec w :=
  vfreeTop - pageSize * nr

/-- On one CPU, the section and the read are `alloc_vpages`. -/
example (nr : BitVec w) (s : Vm w) :
    allocVpages nr s = (allocVpages.locked nr s.vfreeTop,
      { s with vfreeTop := allocVpages.locked nr s.vfreeTop }) :=
  rfl

/-- What the section takes off is what it puts on again, round the address space. -/
theorem toNat_locked_add (nr top : BitVec w) :
    ((allocVpages.locked nr top).toNat + nr.toNat * 2 ^ pageShift w) % 2 ^ w = top.toNat := by
  have hsum : allocVpages.locked nr top + pageSize * nr = top := BitVec.sub_add_cancel ..
  have hnat := congrArg BitVec.toNat hsum
  rwa [BitVec.toNat_add, BitVec.toNat_mul, toNat_pageSize, Nat.add_mod_mod,
    Nat.mul_comm (2 ^ pageShift w)] at hnat

/-- With room below, the section moves down by the pages. -/
theorem toNat_locked {nr top : BitVec w} {left : ℕ} (htop : top.toNat = left % 2 ^ w)
    (h : nr.toNat * 2 ^ pageShift w ≤ left) :
    (allocVpages.locked nr top).toNat = (left - nr.toNat * 2 ^ pageShift w) % 2 ^ w := by
  have hcancel : (allocVpages.locked nr top).toNat + nr.toNat * 2 ^ pageShift w ≡
      left - nr.toNat * 2 ^ pageShift w + nr.toNat * 2 ^ pageShift w [MOD 2 ^ w] := by
    rw [Nat.sub_add_cancel h]
    exact (toNat_locked_add nr top).trans htop
  have hmod := Nat.ModEq.add_right_cancel' _ hcancel
  rw [← Nat.mod_eq_of_lt (allocVpages.locked nr top).isLt]
  exact hmod

/-- The bytes below `vfree_top`. As the pointer is moved down before it is read, 0 stands for the
top of the address space. -/
def spaceBelow (top : BitVec w) : ℕ :=
  if top = 0 then 2 ^ w else top.toNat

theorem spaceBelow_le (top : BitVec w) : spaceBelow top ≤ 2 ^ w := by
  unfold spaceBelow
  split
  · exact le_rfl
  · exact top.isLt.le

theorem spaceBelow_mod (top : BitVec w) : top.toNat = spaceBelow top % 2 ^ w := by
  unfold spaceBelow
  split
  · rename_i htop
    rw [htop, Nat.mod_self]
    rfl
  · rw [Nat.mod_eq_of_lt top.isLt]

/-- A result of `alloc_vpages`, with the number of pages that was asked. -/
structure VRange (w : ℕ) where
  start : BitVec w
  nr : BitVec w

/-- The end of a range, which may lie beyond the address space. -/
def VRange.stop (g : VRange w) : ℕ :=
  g.start.toNat + g.nr.toNat * 2 ^ pageShift w

/-- The addresses of the bytes of a range. -/
def VRange.bytes (g : VRange w) : Set ℕ :=
  Set.Ico g.start.toNat g.stop

theorem VRange.bytes_eq_empty {g : VRange w} (h : g.nr = 0) : g.bytes = ∅ := by
  unfold VRange.bytes VRange.stop
  simp [h]

/-- `vfree_top`, the CPUs between their two steps with the number of pages each has asked, and the
ranges handed out. `left` is what no decrement has taken yet of the space below the first
`vfree_top` : it tells a `vfree_top` of 0 that has not moved from one with nothing left. -/
structure VpageSmp (Cpu : Type*) (w : ℕ) where
  vfreeTop : BitVec w
  left : ℕ
  pending : Cpu → Option (BitVec w)
  ranges : List (VRange w)

namespace VpageSmp

variable {Cpu : Type*} [DecidableEq Cpu]

/-- `init_alloc_vpage`. -/
def init (top : BitVec w) : VpageSmp Cpu w :=
  ⟨top, spaceBelow top, fun _ => none, []⟩

/-- One step of a CPU. `vfree_top` is moved where `cond` holds. -/
inductive Step (cond : VpageSmp Cpu w → BitVec w → Prop) (s : VpageSmp Cpu w) :
    VpageSmp Cpu w → Prop
  | decrement {p : Cpu} {nr : BitVec w} : s.pending p = none → cond s nr →
      Step cond s { s with
        vfreeTop := allocVpages.locked nr s.vfreeTop
        left := s.left - nr.toNat * 2 ^ pageShift w
        pending := Function.update s.pending p (some nr) }
  | read {p : Cpu} {nr : BitVec w} : s.pending p = some nr →
      Step cond s { s with
        pending := Function.update s.pending p none
        ranges := s.ranges ++ [⟨s.vfreeTop, nr⟩] }

/-- The states that steps reach from `top`. -/
inductive Run (cond : VpageSmp Cpu w → BitVec w → Prop) (top : BitVec w) : VpageSmp Cpu w → Prop
  | init : Run cond top (init top)
  | step {s s' : VpageSmp Cpu w} : Run cond top s → Step cond s s' → Run cond top s'

/-- There is room for the pages, and no CPU is between its steps; one that asks for none does not
count. -/
def Alone (s : VpageSmp Cpu w) (nr : BitVec w) : Prop :=
  nr.toNat * 2 ^ pageShift w ≤ s.left ∧
    (nr ≠ 0 → ∀ q nr', s.pending q = some nr' → nr' = 0)

/-- The pages that a CPU between its steps will get lie below those handed out, and there is one
such CPU at most. -/
structure Inv (top : BitVec w) (s : VpageSmp Cpu w) : Prop where
  left_mod : s.vfreeTop.toNat = s.left % 2 ^ w
  le_top : s.left ≤ spaceBelow top
  below : ∀ g ∈ s.ranges, g.nr ≠ 0 → s.left ≤ g.start.toNat
  stop_le : ∀ g ∈ s.ranges, g.stop ≤ spaceBelow top
  disjoint : s.ranges.Pairwise fun g g' => Disjoint g.bytes g'.bytes
  pending_le : ∀ q nr, s.pending q = some nr →
    s.left + nr.toNat * 2 ^ pageShift w ≤ spaceBelow top
  pending_below : ∀ q nr, s.pending q = some nr → ∀ g ∈ s.ranges, g.nr ≠ 0 →
    s.left + nr.toNat * 2 ^ pageShift w ≤ g.start.toNat
  pending_unique : ∀ q q' nr nr', q ≠ q' → s.pending q = some nr → s.pending q' = some nr' →
    nr = 0 ∨ nr' = 0

section Run

variable {s s' : VpageSmp Cpu w} {top nr : BitVec w} {p : Cpu}

theorem Inv.init (top : BitVec w) : Inv top (init top : VpageSmp Cpu w) where
  left_mod := spaceBelow_mod top
  le_top := le_rfl
  below _ h := absurd h List.not_mem_nil
  stop_le _ h := absurd h List.not_mem_nil
  disjoint := List.Pairwise.nil
  pending_le _ _ h := by cases h
  pending_below _ _ h := by cases h
  pending_unique _ _ _ _ _ h := by cases h

/-- A CPU that is between its steps with some pages to get reads what is left. -/
theorem Inv.toNat_vfreeTop (h : Inv top s) (hp : s.pending p = some nr) (hnr : nr ≠ 0) :
    s.vfreeTop.toNat = s.left := by
  have hpages : 0 < nr.toNat * 2 ^ pageShift w :=
    Nat.mul_pos (Nat.pos_of_ne_zero fun hz => hnr (BitVec.eq_of_toNat_eq hz)) (Nat.two_pow_pos _)
  have hle := (h.pending_le p nr hp).trans (spaceBelow_le top)
  rw [h.left_mod, Nat.mod_eq_of_lt (by omega)]

theorem Inv.decrement (h : Inv top s) (hp : s.pending p = none) (halone : s.Alone nr) :
    Inv top { s with
      vfreeTop := allocVpages.locked nr s.vfreeTop
      left := s.left - nr.toNat * 2 ^ pageShift w
      pending := Function.update s.pending p (some nr) } := by
  obtain ⟨hroom, hothers⟩ := halone
  have hle := h.le_top
  refine ⟨toNat_locked h.left_mod hroom, (Nat.sub_le _ _).trans hle,
    fun g hg hne => (Nat.sub_le _ _).trans (h.below g hg hne), h.stop_le,
    h.disjoint, fun q nr' hq => ?_, fun q nr' hq g hg hne => ?_, fun q q' nr₁ nr₂ hne hq hq' => ?_⟩
  · rcases update_cases hq with ⟨-, heq⟩ | ⟨-, hq⟩
    · cases heq
      show s.left - _ + _ ≤ _
      omega
    · have := h.pending_le q nr' hq
      show s.left - _ + _ ≤ _
      omega
  · rcases update_cases hq with ⟨-, heq⟩ | ⟨-, hq⟩
    · cases heq
      have := h.below g hg hne
      show s.left - _ + _ ≤ _
      omega
    · have := h.pending_below q nr' hq g hg hne
      show s.left - _ + _ ≤ _
      omega
  · -- Another CPU is only between its steps if it or this one has asked for no pages.
    have hzero : ∀ {r nr'}, s.pending r = some nr' → nr = 0 ∨ nr' = 0 := fun hr =>
      or_iff_not_imp_left.mpr fun hnr => hothers hnr _ _ hr
    rcases update_cases hq with ⟨rfl, heq⟩ | ⟨-, hq₁⟩
    · cases heq
      rcases update_cases hq' with ⟨rfl, -⟩ | ⟨-, hq₂⟩
      · exact absurd rfl hne
      · exact hzero hq₂
    · rcases update_cases hq' with ⟨rfl, heq⟩ | ⟨-, hq₂⟩
      · cases heq
        exact (hzero hq₁).symm
      · exact h.pending_unique q q' nr₁ nr₂ hne hq₁ hq₂

theorem Inv.read (h : Inv top s) (hp : s.pending p = some nr) :
    Inv top { s with
      pending := Function.update s.pending p none
      ranges := s.ranges ++ [⟨s.vfreeTop, nr⟩] } := by
  have hpending : ∀ {q nr'}, Function.update s.pending p none q = some nr' →
      q ≠ p ∧ s.pending q = some nr' := fun hq => by
    rcases update_cases hq with ⟨-, heq⟩ | hq
    · cases heq
    · exact hq
  have hstart : s.vfreeTop.toNat ≤ s.left := h.left_mod ▸ Nat.mod_le _ _
  refine ⟨h.left_mod, h.le_top, fun g hg hne => ?_, fun g hg => ?_, ?_,
    fun q nr' hq => h.pending_le q nr' (hpending hq).2, fun q nr' hq g hg hne => ?_,
    fun q q' nr₁ nr₂ hne hq hq' => h.pending_unique q q' nr₁ nr₂ hne (hpending hq).2
      (hpending hq').2⟩
  · rcases List.mem_append.mp hg with hg | hg
    · exact h.below g hg hne
    · rw [List.mem_singleton.mp hg] at hne ⊢
      exact (h.toNat_vfreeTop hp hne).ge
  · rcases List.mem_append.mp hg with hg | hg
    · exact h.stop_le g hg
    · rw [List.mem_singleton.mp hg]
      exact (Nat.add_le_add_right hstart _).trans (h.pending_le p nr hp)
  · refine List.pairwise_append.mpr ⟨h.disjoint, List.pairwise_singleton _ _, fun g hg g' hg' => ?_⟩
    rw [List.mem_singleton.mp hg']
    by_cases hzero : g.nr = 0
    · rw [VRange.bytes_eq_empty hzero]
      exact Set.empty_disjoint _
    · have hbelow := h.pending_below p nr hp g hg hzero
      refine Set.disjoint_left.mpr fun a ha ha' => ?_
      have hlt : a < s.vfreeTop.toNat + nr.toNat * 2 ^ pageShift w := ha'.2
      have hge : g.start.toNat ≤ a := ha.1
      omega
  · obtain ⟨hqp, hq⟩ := hpending hq
    rcases List.mem_append.mp hg with hg | hg
    · exact h.pending_below q nr' hq g hg hne
    · rw [List.mem_singleton.mp hg] at hne ⊢
      obtain rfl := (h.pending_unique p q nr nr' hqp.symm hp hq).resolve_left hne
      simpa using (h.toNat_vfreeTop hp hne).ge

theorem Run.inv (h : Run Alone top s) : Inv top s := by
  induction h with
  | init => exact .init top
  | step _ hstep ih =>
    cases hstep with
    | decrement hp halone => exact ih.decrement hp halone
    | read hp => exact ih.read hp

/-- For any number of CPUs, any calls on each and any interleaving in which `vfree_top` is only
moved where there is room and no other CPU is between its steps, the ranges handed out are disjoint
and lie below the first `vfree_top`. -/
theorem run_disjoint (h : Run Alone top s) :
    (s.ranges.Pairwise fun g g' => Disjoint g.bytes g'.bytes) ∧
      ∀ g ∈ s.ranges, g.stop ≤ spaceBelow top :=
  ⟨h.inv.disjoint, h.inv.stop_le⟩

/-- Where a CPU moves `vfree_top` while another is between its steps, both asking for pages, the
two may read the same start, and their ranges overlap. -/
theorem overlap {q : Cpu} {nr' : BitVec w} (hp : s.pending p = none) (hq : s.pending q = some nr')
    (hnr : nr ≠ 0) (hnr' : nr' ≠ 0) :
    ∃ s' g g', Relation.ReflTransGen (Step fun _ _ => True) s s' ∧
      s'.ranges = s.ranges ++ [g, g'] ∧ g.nr = nr ∧ g'.nr = nr' ∧ ¬Disjoint g.bytes g'.bytes := by
  have hqp : q ≠ p := by
    rintro rfl
    rw [hp] at hq
    cases hq
  let start := allocVpages.locked nr s.vfreeTop
  let s₁ : VpageSmp Cpu w :=
    { s with
      vfreeTop := start
      left := s.left - nr.toNat * 2 ^ pageShift w
      pending := Function.update s.pending p (some nr) }
  let s₂ : VpageSmp Cpu w :=
    { s₁ with pending := Function.update s₁.pending p none, ranges := s₁.ranges ++ [⟨start, nr⟩] }
  have hstep₁ : Step (fun _ _ => True) s s₁ := .decrement hp trivial
  have hstep₂ : Step (fun _ _ => True) s₁ s₂ := .read (Function.update_self p (some nr) s.pending)
  have hq₂ : s₂.pending q = some nr' :=
    (Function.update_of_ne hqp _ _).trans ((Function.update_of_ne hqp _ _).trans hq)
  refine ⟨_, ⟨start, nr⟩, ⟨start, nr'⟩,
    ((Relation.ReflTransGen.single hstep₁).tail hstep₂).tail (.read hq₂),
    List.append_assoc .., rfl, rfl, ?_⟩
  have hpos : ∀ {n : BitVec w}, n ≠ 0 → start.toNat ∈ VRange.bytes ⟨start, n⟩ := fun {n} hn => by
    have hn' : 0 < n.toNat := Nat.pos_of_ne_zero fun hz => hn (BitVec.eq_of_toNat_eq hz)
    exact ⟨le_rfl, Nat.lt_add_of_pos_right (Nat.mul_pos hn' (Nat.two_pow_pos _))⟩
  exact fun hdisj => Set.disjoint_left.mp hdisj (hpos hnr) (hpos hnr')

/-- Without room, a range goes round the address space : it ends by a whole address space or more
beyond what was left. -/
theorem no_room (h : Run Alone top s) (hroom : s.left < nr.toNat * 2 ^ pageShift w) :
    s.left + 2 ^ w ≤ VRange.stop ⟨allocVpages.locked nr s.vfreeTop, nr⟩ := by
  have hmod := (toNat_locked_add nr s.vfreeTop).trans h.inv.left_mod
  have hlt : s.left < VRange.stop ⟨allocVpages.locked nr s.vfreeTop, nr⟩ :=
    hroom.trans_le (Nat.le_add_left _ _)
  exact Nat.ModEq.add_le_of_lt hmod.symm hlt

end Run

/-- A CPU that has moved `vfree_top` by a page. -/
def moved (p : Bool) (s : VpageSmp Bool 64) : VpageSmp Bool 64 :=
  { s with
    vfreeTop := allocVpages.locked 1 s.vfreeTop
    left := s.left - 2 ^ pageShift 64
    pending := Function.update s.pending p (some 1) }

/-- A CPU that has read its result. -/
def told (p : Bool) (s : VpageSmp Bool 64) : VpageSmp Bool 64 :=
  { s with
    pending := Function.update s.pending p none
    ranges := s.ranges ++ [⟨s.vfreeTop, 1⟩] }

/-- One CPU at a time, from the top of the address space down : each of two calls gets its own
page. -/
theorem run_disjoint_two : ∃ s : VpageSmp Bool 64, Run Alone 0 s ∧
    s.ranges = [⟨0xfffffffffffff000, 1⟩, ⟨0xffffffffffffe000, 1⟩] ∧
    (s.ranges.Pairwise fun g g' => Disjoint g.bytes g'.bytes) ∧
    ∀ g ∈ s.ranges, g.stop ≤ 2 ^ 64 := by
  have hmoved : Run Alone 0 (moved false (init 0)) :=
    .step .init (.decrement rfl ⟨by decide, fun _ _ _ hq => by cases hq⟩)
  have htold : Run Alone 0 (told false (moved false (init 0))) :=
    .step hmoved (.read rfl)
  have hmoved' : Run Alone 0 (moved true (told false (moved false (init 0)))) := by
    refine .step htold (.decrement rfl ⟨by decide, fun _ q _ hq => ?_⟩)
    cases q <;> cases hq
  have hrun : Run Alone 0 (told true (moved true (told false (moved false (init 0))))) :=
    .step hmoved' (.read rfl)
  exact ⟨_, hrun, rfl, (run_disjoint hrun).1, (run_disjoint hrun).2⟩

/-- Two CPUs that both move `vfree_top` before either reads it get the same page. -/
theorem same_page : ∃ s : VpageSmp Bool 64, Run (fun _ _ => True) 0x10000 s ∧
    s.ranges = [⟨0xe000, 1⟩, ⟨0xe000, 1⟩] ∧
    ¬s.ranges.Pairwise fun g g' => Disjoint g.bytes g'.bytes := by
  have hmoved : Run (fun _ _ => True) 0x10000 (moved true (moved false (init 0x10000))) :=
    .step (.step .init (.decrement rfl trivial)) (.decrement rfl trivial)
  have hrun : Run (fun _ _ => True) 0x10000
      (told true (told false (moved true (moved false (init 0x10000))))) :=
    .step (.step hmoved (.read rfl)) (.read rfl)
  refine ⟨_, hrun, rfl, fun h => ?_⟩
  have hdisj := List.rel_of_pairwise_cons h List.mem_cons_self
  have hmem : 0xe000 ∈ VRange.bytes (⟨0xe000, 1⟩ : VRange 64) := by
    unfold VRange.bytes VRange.stop
    exact ⟨le_rfl, by decide⟩
  exact Set.disjoint_left.mp hdisj hmem hmem

end VpageSmp

end AcrnUt
