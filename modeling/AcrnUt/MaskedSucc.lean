import Mathlib.Data.Nat.Bitwise
import Mathlib.Order.Bounds.Basic

/-!
# Counting over the bits outside a mask

`maskedSucc m f` adds one to `f` with the bits of `m` set, so that the carry runs across them, and
clears them again. Among the numbers that have no bit of `m` it is the next one
(`maskedSucc_isLeast`). `members P a n` lists the numbers from `a` up to `n` that satisfy `P`, for
the runs that go from one of them to the next.
-/

set_option linter.unusedSectionVars false

namespace AcrnUt

/-- `f + 1`, counted over the bits outside `m`. -/
def maskedSucc (m f : ℕ) : ℕ :=
  Nat.ldiff ((f ||| m) + 1) m

/-- `f` has no bit of `m`. -/
def MaskFree (m f : ℕ) : Prop :=
  f &&& m = 0

instance (m : ℕ) : DecidablePred (MaskFree m) := fun _ =>
  inferInstanceAs (Decidable (_ = _))

theorem maskFree_bit {b c : Bool} {m f : ℕ} :
    MaskFree (Nat.bit b m) (Nat.bit c f) ↔ (b && c) = false ∧ MaskFree m f := by
  unfold MaskFree
  rw [Nat.land_bit, Nat.bit_eq_zero_iff, Bool.and_comm]
  tauto

theorem bit_true_add_one (x : ℕ) : Nat.bit true x + 1 = Nat.bit false (x + 1) := by
  rw [Nat.bit_val, Nat.bit_val, Bool.toNat_true, Bool.toNat_false]
  omega

/-- The carry runs across a bit of the mask, and across a bit that is set. -/
theorem maskedSucc_carry {b c : Bool} (m f : ℕ) (hbc : (c || b) = true) :
    maskedSucc (Nat.bit b m) (Nat.bit c f) = Nat.bit false (maskedSucc m f) := by
  rw [maskedSucc, Nat.lor_bit, hbc, bit_true_add_one, Nat.ldiff_bit, Bool.false_and, maskedSucc]

theorem ldiff_lor_of_maskFree {m f : ℕ} (h : MaskFree m f) : Nat.ldiff (f ||| m) m = f := by
  apply Nat.eq_of_testBit_eq
  intro i
  have hi : (f.testBit i && m.testBit i) = false := by
    rw [← Nat.testBit_land, h, Nat.zero_testBit]
  rw [Nat.testBit_ldiff, Nat.testBit_lor]
  cases hf : f.testBit i <;> cases hm : m.testBit i <;> simp_all

/-- A free bit that is not set ends the carry. -/
theorem maskedSucc_stop {m f : ℕ} (h : MaskFree m f) :
    maskedSucc (Nat.bit false m) (Nat.bit false f) = Nat.bit true f := by
  have hadd : Nat.bit false (f ||| m) + 1 = Nat.bit true (f ||| m) := by
    rw [Nat.bit_val, Nat.bit_val, Bool.toNat_true, Bool.toNat_false]
  rw [maskedSucc, Nat.lor_bit, Bool.or_false, hadd, Nat.ldiff_bit, ldiff_lor_of_maskFree h,
    Bool.not_false, Bool.and_true]

theorem maskedSucc_zero (f : ℕ) : maskedSucc 0 f = f + 1 := by
  rw [maskedSucc, Nat.or_zero]
  exact Nat.eq_of_testBit_eq fun i => by
    rw [Nat.testBit_ldiff, Nat.zero_testBit, Bool.not_false, Bool.and_true]

theorem bit_lt_bit_iff {b c : Bool} {f g : ℕ} :
    Nat.bit b f < Nat.bit c g ↔ f < g ∨ f = g ∧ b = false ∧ c = true := by
  rw [Nat.bit_val, Nat.bit_val]
  cases b <;> cases c <;> simp <;> omega

theorem bit_le_bit_iff {b c : Bool} {f g : ℕ} :
    Nat.bit b f ≤ Nat.bit c g ↔ f < g ∨ f = g ∧ (b = false ∨ c = true) := by
  rw [Nat.bit_val, Nat.bit_val]
  cases b <;> cases c <;> simp <;> omega

/-- The next number without a bit of the mask. By induction on the mask, from the lowest bit. -/
theorem maskedSucc_isLeast (m f : ℕ) (h : MaskFree m f) :
    IsLeast {g | f < g ∧ MaskFree m g} (maskedSucc m f) := by
  induction m using Nat.binaryRec generalizing f with
  | zero =>
    rw [maskedSucc_zero]
    exact ⟨⟨Nat.lt_succ_self f, Nat.and_zero _⟩, fun g hg => hg.1⟩
  | bit b m ih =>
    induction f using Nat.bitCasesOn with
    | bit c f =>
    obtain ⟨hbc, hf⟩ := maskFree_bit.mp h
    obtain ⟨⟨hlt, hfree⟩, hmin⟩ := ih f hf
    by_cases hcarry : (c || b) = true
    · rw [maskedSucc_carry m f hcarry]
      refine ⟨⟨bit_lt_bit_iff.mpr (.inl hlt), maskFree_bit.mpr ⟨Bool.and_false b, hfree⟩⟩, ?_⟩
      rintro g ⟨hg, hgfree⟩
      induction g using Nat.bitCasesOn with
      | bit d g =>
      obtain ⟨hbd, hgm⟩ := maskFree_bit.mp hgfree
      -- equal upper bits would need a free bit that `f` has and `g` has not
      have hfg : f < g := by
        rcases bit_lt_bit_iff.mp hg with hfg | ⟨-, rfl, rfl⟩
        · exact hfg
        · simp_all
      have := hmin ⟨hfg, hgm⟩
      rw [bit_le_bit_iff]
      rcases this.lt_or_eq with hlt' | heq
      · exact .inl hlt'
      · exact .inr ⟨heq, .inl rfl⟩
    · obtain ⟨rfl, rfl⟩ : c = false ∧ b = false := by simpa using hcarry
      rw [maskedSucc_stop hf]
      refine ⟨⟨bit_lt_bit_iff.mpr (.inr ⟨rfl, rfl, rfl⟩), maskFree_bit.mpr ⟨rfl, hf⟩⟩, ?_⟩
      rintro g ⟨hg, -⟩
      induction g using Nat.bitCasesOn with
      | bit d g =>
      rw [bit_le_bit_iff]
      rcases bit_lt_bit_iff.mp hg with hfg | ⟨rfl, -, rfl⟩
      · exact .inl hfg
      · exact .inr ⟨rfl, .inr rfl⟩

/-! ## Runs over a set of numbers -/

section Members

variable (P : ℕ → Prop) [DecidablePred P]

/-- The numbers from `a` up to `n` that satisfy `P`, in ascending order. -/
def members (a n : ℕ) : List ℕ :=
  (List.range' a (n - a)).filter (P ·)

theorem mem_members {a n f : ℕ} : f ∈ members P a n ↔ a ≤ f ∧ f < n ∧ P f := by
  rw [members, List.mem_filter, List.mem_range'_1, decide_eq_true_iff, and_assoc]
  refine and_congr_right fun hf => and_congr_left fun _ => ?_
  omega

theorem members_pairwise_lt (a n : ℕ) : (members P a n).Pairwise (· < ·) :=
  List.Pairwise.filter _ List.pairwise_lt_range'

theorem members_of_le {a n : ℕ} (h : n ≤ a) : members P a n = [] := by
  rw [members, Nat.sub_eq_zero_of_le h, List.range'_zero, List.filter_nil]

theorem members_eq_cons {a n : ℕ} (h : a < n) (ha : P a) :
    members P a n = a :: members P (a + 1) n := by
  obtain ⟨k, rfl⟩ : ∃ k, n = a + (k + 1) := ⟨n - a - 1, by omega⟩
  rw [members, members, show a + (k + 1) - a = k + 1 by omega, List.range'_succ,
    List.filter_cons_of_pos (by simpa using ha), show a + (k + 1) - (a + 1) = k by omega]

theorem members_eq_of_not {a n : ℕ} (ha : ¬ P a) : members P a n = members P (a + 1) n := by
  rcases Nat.lt_or_ge a n with h | h
  · obtain ⟨k, rfl⟩ : ∃ k, n = a + (k + 1) := ⟨n - a - 1, by omega⟩
    rw [members, members, show a + (k + 1) - a = k + 1 by omega, List.range'_succ,
      List.filter_cons_of_neg (by simpa using ha), show a + (k + 1) - (a + 1) = k by omega]
  · rw [members_of_le P h, members_of_le P (by omega)]

/-- Numbers that do not satisfy `P` are passed over. -/
theorem members_skip {a b n : ℕ} (hab : a ≤ b) (h : ∀ g, a ≤ g → g < b → ¬ P g) :
    members P a n = members P b n := by
  induction b, hab using Nat.le_induction with
  | base => rfl
  | succ b hab ih =>
    rw [ih fun g hg hgb => h g hg (by omega), members_eq_of_not P (h b hab (by omega))]

end Members

end AcrnUt
