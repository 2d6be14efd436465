import Mathlib.Data.List.Basic
import Mathlib.Order.Basic
import Mathlib.Data.Nat.Init
import Mathlib.Tactic.Common

/-!
# Ordered trees written out in preorder

A tree written out in preorder is a sequence of depths : a node is followed by what
hangs below it, and no node is more than one level below the one before it
(`Descends`). The parent of a node is the last node before it one level up
(`parentIn`), its next sibling the first node behind it that is no deeper, if that
one is on the same level (`nextSibling`).

`visited` asks a search for the next position again and again. A search that always
answers the first position behind with some property enumerates all the positions
that have it, in order (`visited_firstIn`), and the siblings met from the first
child on are the children (`visited_children`).
-/

set_option linter.unusedSectionVars false

namespace AcrnUt

/-! ## Searches over positions -/

/-- The first position from `lo` on and below `hi` that has the property. -/
def firstIn (p : ℕ → Bool) (lo hi : ℕ) : Option ℕ := (List.range' lo (hi - lo)).find? p

theorem firstIn_eq_some_iff {p : ℕ → Bool} {lo hi m : ℕ} :
    firstIn p lo hi = some m ↔
      lo ≤ m ∧ m < hi ∧ p m = true ∧ ∀ j, lo ≤ j → j < m → p j = false := by
  unfold firstIn
  rw [List.find?_range'_eq_some]
  constructor
  · rintro ⟨hp, hm, hj⟩
    rw [List.mem_range'_1] at hm
    exact ⟨hm.1, by omega, hp, fun j h₁ h₂ => by simpa using hj j h₁ h₂⟩
  · rintro ⟨h₁, h₂, hp, hj⟩
    exact ⟨hp, List.mem_range'_1.mpr ⟨h₁, by omega⟩, fun j h₁ h₂ => by simp [hj j h₁ h₂]⟩

theorem firstIn_eq_none_iff {p : ℕ → Bool} {lo hi : ℕ} :
    firstIn p lo hi = none ↔ ∀ j, lo ≤ j → j < hi → p j = false := by
  unfold firstIn
  rw [List.find?_range'_eq_none]
  constructor
  · exact fun h j h₁ h₂ => by simpa using h j h₁ (by omega)
  · exact fun h j h₁ h₂ => by simp [h j h₁ (by omega)]

/-- The last position below `m` that has the property. -/
def lastBelow (p : ℕ → Bool) : ℕ → Option ℕ
  | 0 => none
  | m + 1 => if p m then some m else lastBelow p m

theorem lastBelow_eq_some_iff {p : ℕ → Bool} {m k : ℕ} :
    lastBelow p m = some k ↔ k < m ∧ p k = true ∧ ∀ j, k < j → j < m → p j = false := by
  induction m with
  | zero => simp [lastBelow]
  | succ m ih =>
    unfold lastBelow
    by_cases hm : p m = true
    · rw [if_pos hm]
      constructor
      · rintro ⟨⟩
        exact ⟨by omega, hm, fun j h₁ h₂ => by omega⟩
      · rintro ⟨hk, -, hj⟩
        by_contra hne
        rw [hj m (by simp at hne; omega) (by omega)] at hm
        exact absurd hm (by simp)
    · rw [if_neg hm, ih]
      constructor
      · rintro ⟨hk, hp, hj⟩
        refine ⟨by omega, hp, fun j h₁ h₂ => ?_⟩
        rcases (by omega : j < m ∨ j = m) with h | rfl
        · exact hj j h₁ h
        · simpa using hm
      · rintro ⟨hk, hp, hj⟩
        have hkm : k ≠ m := fun he => hm (he ▸ hp)
        exact ⟨by omega, hp, fun j h₁ h₂ => hj j h₁ (by omega)⟩

theorem lastBelow_eq_none_iff {p : ℕ → Bool} {m : ℕ} :
    lastBelow p m = none ↔ ∀ j, j < m → p j = false := by
  induction m with
  | zero => simp [lastBelow]
  | succ m ih =>
    unfold lastBelow
    split_ifs with hm
    · refine iff_of_false (by simp) fun h => ?_
      rw [h m (Nat.lt_succ_self m)] at hm
      exact absurd hm (by simp)
    · rw [ih]
      refine ⟨fun h j hj => ?_, fun h j hj => h j (Nat.lt_succ_of_lt hj)⟩
      rcases Nat.lt_succ_iff_lt_or_eq.mp hj with hlt | rfl
      · exact h j hlt
      · simpa using hm

/-- The positions met from `o` on, at most `fuel` of them. -/
def visited (next : ℕ → Option ℕ) : ℕ → Option ℕ → List ℕ
  | 0, _ => []
  | _ + 1, none => []
  | fuel + 1, some s => s :: visited next fuel (next s)

/-- A search for the first position behind with a property meets all that have it. -/
theorem visited_firstIn {next : ℕ → Option ℕ} {p : ℕ → Bool} {N : ℕ}
    (hnext : ∀ s, s < N → p s = true → next s = firstIn p (s + 1) N) :
    ∀ fuel lo, N - lo ≤ fuel →
      visited next fuel (firstIn p lo N) = (List.range' lo (N - lo)).filter p
  | 0, lo, hf => by rw [Nat.le_zero.mp hf]; rfl
  | fuel + 1, lo, hf => by
    cases hfirst : firstIn p lo N with
    | none =>
      rw [firstIn_eq_none_iff] at hfirst
      symm
      rw [visited, List.filter_eq_nil_iff]
      intro j hj
      rw [List.mem_range'_1] at hj
      simp [hfirst j hj.1 (by omega)]
    | some s =>
      rw [firstIn_eq_some_iff] at hfirst
      obtain ⟨hlo, hs, hp, hbefore⟩ := hfirst
      have hsplit : List.range' lo (N - lo)
          = List.range' lo (s - lo) ++ s :: List.range' (s + 1) (N - (s + 1)) := by
        rw [show N - lo = (s - lo) + (N - s) by omega, ← List.range'_append_1,
          show lo + (s - lo) = s by omega, show N - s = (N - (s + 1)) + 1 by omega,
          List.range'_succ]
      have hskip : (List.range' lo (s - lo)).filter p = [] := by
        rw [List.filter_eq_nil_iff]
        intro j hj
        rw [List.mem_range'_1] at hj
        simp [hbefore j hj.1 (by omega)]
      rw [visited, hnext s hs hp, visited_firstIn hnext fuel (s + 1) (by omega), hsplit,
        List.filter_append, hskip, List.nil_append, List.filter_cons_of_pos hp]

/-! ## Parents, children and siblings -/

/-- No node is more than one level below the one before it. -/
def Descends (depth : ℕ → ℕ) (N : ℕ) : Prop := ∀ j, j + 1 < N → depth (j + 1) ≤ depth j + 1

/-- The parent : the last node before that is one level up. -/
def parentIn (depth : ℕ → ℕ) (m : ℕ) : Option ℕ :=
  lastBelow (fun k => depth k + 1 == depth m) m

/-- The first child : the node behind, if it is one level down. -/
def firstChild (depth : ℕ → ℕ) (N n : ℕ) : Option ℕ :=
  if n + 1 < N ∧ depth (n + 1) = depth n + 1 then some (n + 1) else none

/-- The next sibling : the first node behind that is no deeper, if it is on the level. -/
def nextSibling (depth : ℕ → ℕ) (N s : ℕ) : Option ℕ :=
  (firstIn (fun m => decide (depth m ≤ depth s)) (s + 1) N).filter fun m => depth m == depth s

section Tree

variable {depth : ℕ → ℕ} {N n m s : ℕ}

theorem parentIn_eq_some_iff :
    parentIn depth m = some n ↔
      n < m ∧ depth n + 1 = depth m ∧ ∀ j, n < j → j < m → depth j + 1 ≠ depth m := by
  unfold parentIn
  rw [lastBelow_eq_some_iff]
  simp

/-- What stands from a node to one of its children is below the node. -/
theorem lt_depth_of_parentIn (hdesc : Descends depth N) (hm : m < N)
    (hpar : parentIn depth m = some n) {j : ℕ} (hnj : n < j) (hjm : j ≤ m) :
    depth n < depth j := by
  obtain ⟨hnm, hd, hne⟩ := parentIn_eq_some_iff.mp hpar
  -- downwards from the child : a level is never jumped over, and the parent's is not met
  induction hjm using Nat.decreasingInduction with
  | self => omega
  | of_succ j hj ih =>
    have hup := hdesc j (by omega)
    have := hne j hnj hj
    have := ih (by omega)
    omega

/-- Behind a position that is no deeper than `n`, there is no child of `n`. -/
theorem parentIn_ne_of_depth_le (hdesc : Descends depth N) (hnm : n < m)
    (hle : depth m ≤ depth n) {j : ℕ} (hmj : m ≤ j) (hj : j < N) : parentIn depth j ≠ some n :=
  fun hpar => absurd (lt_depth_of_parentIn hdesc hj hpar hnm hmj) (Nat.not_lt.mpr hle)

/-- What is walked over below `s` is no less deep than `s`. -/
theorem depth_le_of_below {j : ℕ} (hsj : s ≤ j)
    (hbelow : ∀ k, s < k → k ≤ j → depth s < depth k) : depth s ≤ depth j := by
  rcases Nat.eq_or_lt_of_le hsj with rfl | hlt
  · exact Nat.le_refl _
  · exact Nat.le_of_lt (hbelow j hlt (Nat.le_refl _))

/-- The walk below `s` goes on to the next position if that is deeper than `s`. -/
theorem below_succ {j : ℕ} (hbelow : ∀ k, s < k → k ≤ j → depth s < depth k)
    (hnext : depth s < depth (j + 1)) : ∀ k, s < k → k ≤ j + 1 → depth s < depth k := by
  intro k hsk hkj
  rcases Nat.eq_or_lt_of_le hkj with rfl | hlt
  · exact hnext
  · exact hbelow k hsk (by omega)

theorem firstChild_eq (hdesc : Descends depth N) :
    firstChild depth N n = firstIn (fun m => parentIn depth m == some n) 0 N := by
  unfold firstChild
  split_ifs with h
  · symm
    rw [firstIn_eq_some_iff]
    refine ⟨by omega, h.1, ?_, fun j _ hj => ?_⟩
    · rw [beq_iff_eq, parentIn_eq_some_iff]
      exact ⟨by omega, h.2.symm, fun j h₁ h₂ => by omega⟩
    · rw [beq_eq_false_iff_ne]
      intro hpar
      have := (parentIn_eq_some_iff.mp hpar).1
      omega
  · symm
    rw [firstIn_eq_none_iff]
    intro j _ hj
    rw [beq_eq_false_iff_ne]
    intro hpar
    have hlt := (parentIn_eq_some_iff.mp hpar).1
    have hbelow : depth n < depth (n + 1) :=
      lt_depth_of_parentIn hdesc hj hpar (by omega) hlt
    have := hdesc n (by omega)
    exact h ⟨by omega, by omega⟩

theorem nextSibling_eq (hdesc : Descends depth N) (hs : s < N)
    (hpar : parentIn depth s = some n) :
    nextSibling depth N s = firstIn (fun m => parentIn depth m == some n) (s + 1) N := by
  obtain ⟨hns, hd, -⟩ := parentIn_eq_some_iff.mp hpar
  unfold nextSibling
  cases hfirst : firstIn (fun m => decide (depth m ≤ depth s)) (s + 1) N with
  | none =>
    rw [firstIn_eq_none_iff] at hfirst
    rw [Option.filter_none]
    symm
    rw [firstIn_eq_none_iff]
    intro j h₁ h₂
    have hdeep := of_decide_eq_false (hfirst j h₁ h₂)
    rw [beq_eq_false_iff_ne]
    intro hj
    have := (parentIn_eq_some_iff.mp hj).2.1
    omega
  | some m =>
    rw [firstIn_eq_some_iff] at hfirst
    obtain ⟨hsm, hm, hle, hbefore⟩ := hfirst
    have hle' : depth m ≤ depth s := of_decide_eq_true hle
    -- what lies between is below `s`, so no child of the parent
    have hskip : ∀ j, s + 1 ≤ j → j < m → depth s < depth j := fun j h₁ h₂ => by
      have := of_decide_eq_false (hbefore j h₁ h₂)
      omega
    have hnot : ∀ j, s + 1 ≤ j → j < m → (parentIn depth j == some n) = false := by
      intro j h₁ h₂
      rw [beq_eq_false_iff_ne]
      intro hj
      have := (parentIn_eq_some_iff.mp hj).2.1
      have := hskip j h₁ h₂
      omega
    by_cases hsame : depth m = depth s
    · rw [Option.filter_some, if_pos (by simpa using hsame)]
      symm
      rw [firstIn_eq_some_iff]
      refine ⟨hsm, hm, ?_, hnot⟩
      rw [beq_iff_eq, parentIn_eq_some_iff]
      refine ⟨by omega, by omega, fun j h₁ h₂ => ?_⟩
      rcases Nat.lt_or_ge s j with h | h
      · have := hskip j h h₂
        omega
      · have := lt_depth_of_parentIn hdesc hs hpar h₁ h
        omega
    · rw [Option.filter_some, if_neg (by simpa using hsame)]
      symm
      rw [firstIn_eq_none_iff]
      intro j h₁ h₂
      rcases Nat.lt_or_ge j m with h | h
      · exact hnot j h₁ h
      · rw [beq_eq_false_iff_ne]
        exact parentIn_ne_of_depth_le hdesc (by omega) (by omega) h h₂

/-- The siblings met from the first child on are the children, in order. -/
theorem visited_children (hdesc : Descends depth N) :
    visited (nextSibling depth N) N (firstChild depth N n)
      = (List.range N).filter fun m => parentIn depth m == some n := by
  rw [firstChild_eq hdesc, List.range_eq_range']
  exact visited_firstIn (fun s hs hp => nextSibling_eq hdesc hs (beq_iff_eq.mp hp)) N 0 (by omega)

end Tree

end AcrnUt
