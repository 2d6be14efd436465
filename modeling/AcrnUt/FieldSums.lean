import Mathlib.Data.Nat.Bitwise
import Mathlib.Data.Nat.Digits.Lemmas
import Mathlib.Tactic.Linarith
import Mathlib.Tactic.Ring

/-!
# Sums of the fields of a word

A word is read as a list of fields of `k` bits, `Nat.ofDigits (2 ^ k) ds`. The mask that keeps every
other field turns it into a word of fields of `2 k` bits (`ofDigits_land_altMask`), so that adding
the fields at the even and at the odd places adds the fields in pairs (`pairSums`). Starting from
fields of one bit, the sum of the fields is the number of bits that are set
(`sum_bitFields`).
-/

set_option linter.unusedSectionVars false

namespace AcrnUt

open Nat (ofDigits)

/-- The entries at even places. -/
def evens : List ℕ → List ℕ
  | [] => []
  | [a] => [a]
  | a :: _ :: l => a :: evens l

/-- The sums of two neighbours each. -/
def pairSums : List ℕ → List ℕ
  | [] => []
  | [a] => [a]
  | a :: b :: l => (a + b) :: pairSums l

/-- The sums of an entry and the one behind it. -/
def adjacentSums : List ℕ → List ℕ
  | [] => []
  | [a] => [a]
  | a :: b :: l => (a + b) :: adjacentSums (b :: l)

/-- The mask of the lower one of two fields of `k` bits each, `n` times. -/
def altMask (k n : ℕ) : ℕ :=
  ofDigits (2 ^ (2 * k)) (List.replicate n (2 ^ k - 1))

theorem evens_cons (a : ℕ) (l : List ℕ) : evens (a :: l) = a :: evens l.tail := by
  cases l with
  | nil => rfl
  | cons b l => rfl

theorem sum_pairSums (l : List ℕ) : (pairSums l).sum = l.sum := by
  fun_induction pairSums l with
  | case1 => rfl
  | case2 => rfl
  | case3 a b l ih => rw [List.sum_cons, ih, List.sum_cons, List.sum_cons, Nat.add_assoc]

theorem length_pairSums (l : List ℕ) : (pairSums l).length = (l.length + 1) / 2 := by
  fun_induction pairSums l with
  | case1 => rfl
  | case2 a => rw [List.length_singleton]
  | case3 a b l ih =>
    rw [List.length_cons, ih, List.length_cons, List.length_cons]
    omega

theorem pairSums_le {l : List ℕ} {c : ℕ} (h : ∀ d ∈ l, d ≤ c) : ∀ d ∈ pairSums l, d ≤ 2 * c := by
  fun_induction pairSums l with
  | case1 => exact fun d hd => absurd hd List.not_mem_nil
  | case2 a =>
    intro d hd
    have := h d hd
    omega
  | case3 a b l ih =>
    intro d hd
    rcases List.mem_cons.mp hd with rfl | hd
    · have := h a (by simp)
      have := h b (by simp)
      omega
    · exact ih (fun e he => h e (by simp [he])) d hd

theorem evens_adjacentSums (l : List ℕ) : evens (adjacentSums l) = pairSums l := by
  fun_induction pairSums l with
  | case1 => rfl
  | case2 => rfl
  | case3 a b l ih =>
    cases l with
    | nil => rfl
    | cons c l => rw [adjacentSums, adjacentSums, evens, ih]

theorem adjacentSums_le {l : List ℕ} {c : ℕ} (h : ∀ d ∈ l, d ≤ c) :
    ∀ d ∈ adjacentSums l, d ≤ 2 * c := by
  fun_induction adjacentSums l with
  | case1 => exact fun d hd => absurd hd List.not_mem_nil
  | case2 a =>
    intro d hd
    have := h d hd
    omega
  | case3 a b l ih =>
    intro d hd
    rcases List.mem_cons.mp hd with rfl | hd
    · have := h a (by simp)
      have := h b (by simp)
      omega
    · exact ih (fun e he => h e (List.mem_cons_of_mem _ he)) d hd

theorem length_adjacentSums (l : List ℕ) : (adjacentSums l).length = l.length := by
  fun_induction adjacentSums l with
  | case1 => rfl
  | case2 => rfl
  | case3 a b l ih => rw [List.length_cons, ih, List.length_cons (a := a)]

/-- Fields at even and odd places together. -/
theorem ofDigits_evens_add (B : ℕ) (l : List ℕ) :
    ofDigits B (evens l) + ofDigits B (evens l.tail) = ofDigits B (pairSums l) := by
  fun_induction pairSums l with
  | case1 => rfl
  | case2 a => rfl
  | case3 a b l ih =>
    rw [List.tail_cons, evens_cons, evens_cons, List.tail_cons, Nat.ofDigits_cons,
      Nat.ofDigits_cons, Nat.ofDigits_cons, ← ih]
    ring

theorem ofDigits_add_tail (B : ℕ) (l : List ℕ) :
    ofDigits B l + ofDigits B l.tail = ofDigits B (adjacentSums l) := by
  fun_induction adjacentSums l with
  | case1 => rfl
  | case2 a => rfl
  | case3 a b l ih =>
    rw [List.tail_cons] at ih
    rw [List.tail_cons, Nat.ofDigits_cons, Nat.ofDigits_cons, Nat.ofDigits_cons, ← ih,
      Nat.ofDigits_cons]
    ring

/-- A word from its fields at even and at odd places. -/
theorem ofDigits_eq_evens (B : ℕ) (l : List ℕ) :
    ofDigits B l = ofDigits (B * B) (evens l) + B * ofDigits (B * B) (evens l.tail) := by
  fun_induction evens l with
  | case1 => rfl
  | case2 a => rfl
  | case3 a b l ih =>
    rw [List.tail_cons, evens_cons, Nat.ofDigits_cons, Nat.ofDigits_cons, Nat.ofDigits_cons,
      Nat.ofDigits_cons, ih]
    ring

/-- A word of one field less. -/
theorem ofDigits_shiftRight {k : ℕ} {l : List ℕ} (hd : ∀ d ∈ l, d < 2 ^ k) :
    ofDigits (2 ^ k) l >>> k = ofDigits (2 ^ k) l.tail := by
  cases l with
  | nil => exact Nat.zero_shiftRight k
  | cons a l =>
    rw [Nat.shiftRight_eq_div_pow, Nat.ofDigits_cons, List.tail_cons,
      Nat.add_mul_div_left _ _ (Nat.two_pow_pos k), Nat.div_eq_of_lt (hd a List.mem_cons_self),
      Nat.zero_add]

theorem land_two_pow_add {k x m : ℕ} (y z : ℕ) (hx : x < 2 ^ k) (hm : m < 2 ^ k) :
    (x + 2 ^ k * y) &&& (m + 2 ^ k * z) = (x &&& m) + 2 ^ k * (y &&& z) := by
  have hxm : x &&& m < 2 ^ k := Nat.and_lt_two_pow x hm
  apply Nat.eq_of_testBit_eq
  intro i
  rw [Nat.testBit_land, Nat.add_comm x, Nat.add_comm m, Nat.add_comm (x &&& m),
    Nat.testBit_two_pow_mul_add _ hx, Nat.testBit_two_pow_mul_add _ hm,
    Nat.testBit_two_pow_mul_add _ hxm]
  split <;> rw [Nat.testBit_land]

/-- The mask takes the lower one of the two lowest fields. -/
theorem land_altMask_succ {k a b : ℕ} (y n : ℕ) (ha : a < 2 ^ k) (hb : b < 2 ^ k) :
    (a + 2 ^ k * (b + 2 ^ k * y)) &&& altMask k (n + 1)
      = a + 2 ^ (2 * k) * (y &&& altMask k n) := by
  have hk : 2 ^ (2 * k) = 2 ^ k * 2 ^ k := by rw [two_mul, pow_add]
  have hmask : 2 ^ k - 1 < 2 ^ (2 * k) :=
    lt_of_lt_of_le (Nat.sub_lt (Nat.two_pow_pos k) one_pos)
      (Nat.pow_le_pow_right two_pos (by omega))
  have hab : a + 2 ^ k * b < 2 ^ (2 * k) := by
    rw [hk]
    nlinarith
  have hlow : (a + 2 ^ k * b) &&& (2 ^ k - 1) = a := by
    rw [Nat.and_two_pow_sub_one_eq_mod, Nat.add_mul_mod_self_left, Nat.mod_eq_of_lt ha]
  have hsplit : a + 2 ^ k * (b + 2 ^ k * y) = a + 2 ^ k * b + 2 ^ (2 * k) * y := by
    rw [hk]
    ring
  rw [hsplit, altMask, List.replicate_succ, Nat.ofDigits_cons, land_two_pow_add _ _ hab hmask, hlow,
    altMask]

/-- Every other field, from the lowest one on. -/
theorem ofDigits_land_altMask {k n : ℕ} {l : List ℕ} (hd : ∀ d ∈ l, d < 2 ^ k)
    (hn : l.length ≤ 2 * n) :
    ofDigits (2 ^ k) l &&& altMask k n = ofDigits (2 ^ (2 * k)) (evens l) := by
  fun_induction evens l generalizing n with
  | case1 => exact Nat.zero_and _
  | case2 a =>
    rw [List.length_singleton] at hn
    obtain ⟨n, rfl⟩ := Nat.exists_eq_succ_of_ne_zero (show n ≠ 0 by omega)
    have := land_altMask_succ 0 n (hd a List.mem_cons_self) (Nat.two_pow_pos k)
    rwa [Nat.mul_zero, Nat.add_zero, Nat.mul_zero, Nat.zero_and, Nat.mul_zero] at this
  | case3 a b l ih =>
    rw [List.length_cons, List.length_cons] at hn
    obtain ⟨n, rfl⟩ := Nat.exists_eq_succ_of_ne_zero (show n ≠ 0 by omega)
    rw [Nat.ofDigits_cons, Nat.ofDigits_cons,
      land_altMask_succ _ n (hd a List.mem_cons_self) (hd b (by simp)),
      ih (fun d hl => hd d (by simp [hl])) (by omega), Nat.ofDigits_cons]

/-- The fields in pairs : both halves masked, and added. -/
theorem ofDigits_pairSums {k n : ℕ} {l : List ℕ} (hd : ∀ d ∈ l, d < 2 ^ k)
    (hn : l.length ≤ 2 * n) :
    (ofDigits (2 ^ k) l &&& altMask k n) + (ofDigits (2 ^ k) l >>> k &&& altMask k n) =
      ofDigits (2 ^ (2 * k)) (pairSums l) := by
  rw [ofDigits_shiftRight hd, ofDigits_land_altMask hd hn,
    ofDigits_land_altMask (fun d h => hd d (List.mem_of_mem_tail h))
      (le_trans (by rw [List.length_tail]; omega) hn), ofDigits_evens_add]

/-- The fields of one bit in pairs : `a + 2 b` less `b`. -/
theorem ofDigits_sub_pairSums {n : ℕ} {l : List ℕ} (hd : ∀ d ∈ l, d < 2 ^ 1)
    (hn : l.length ≤ 2 * n) :
    ofDigits (2 ^ 1) l - (ofDigits (2 ^ 1) l >>> 1 &&& altMask 1 n) =
      ofDigits (2 ^ (2 * 1)) (pairSums l) := by
  rw [ofDigits_shiftRight hd, ofDigits_land_altMask (fun d h => hd d (List.mem_of_mem_tail h))
    (le_trans (by rw [List.length_tail]; omega) hn), ← ofDigits_evens_add,
    ofDigits_eq_evens (2 ^ 1) l]
  norm_num
  omega

/-- The fields in pairs : added first, and masked, if the sums fit a field. -/
theorem ofDigits_add_land {k n c : ℕ} {l : List ℕ} (hd : ∀ d ∈ l, d ≤ c) (hc : 2 * c < 2 ^ k)
    (hn : l.length ≤ 2 * n) :
    (ofDigits (2 ^ k) l + ofDigits (2 ^ k) l >>> k) &&& altMask k n =
      ofDigits (2 ^ (2 * k)) (pairSums l) := by
  rw [ofDigits_shiftRight fun d h => by have := hd d h; omega, ofDigits_add_tail,
    ofDigits_land_altMask (fun d h => lt_of_le_of_lt (adjacentSums_le hd d h) hc)
      (by rwa [length_adjacentSums]), evens_adjacentSums]

/-! ## Bits -/

/-- The fields of one bit of the lower `k` bits of `x`. -/
def bitFields (x k : ℕ) : List ℕ :=
  (List.range k).map fun i => (x.testBit i).toNat

theorem ofDigits_bitFields (x k : ℕ) : ofDigits 2 (bitFields x k) = x % 2 ^ k := by
  induction k with
  | zero => rw [pow_zero, Nat.mod_one]; rfl
  | succ k ih =>
    rw [bitFields, List.range_succ, List.map_append, Nat.ofDigits_append, ← bitFields, ih,
      Nat.mod_pow_succ, List.map_singleton, Nat.ofDigits_singleton, Nat.toNat_testBit, bitFields,
      List.length_map, List.length_range]

theorem bitFields_le (x k : ℕ) : ∀ d ∈ bitFields x k, d ≤ 1 := by
  intro d hd
  obtain ⟨i, -, rfl⟩ := List.mem_map.mp hd
  exact Bool.toNat_le _

theorem sum_bitFields (x k : ℕ) : (bitFields x k).sum = (List.range k).countP x.testBit := by
  induction k with
  | zero => rfl
  | succ k ih =>
    rw [bitFields, List.range_succ, List.map_append, List.sum_append, ← bitFields, ih,
      List.countP_append, List.map_singleton, List.sum_singleton, List.countP_singleton]
    cases x.testBit k <;> rfl

/-! ## The product with a field of ones -/

/-- The sums of the entries up to each place. -/
def partialSums : List ℕ → List ℕ
  | [] => []
  | a :: l => a :: (partialSums l).map (a + ·)

/-- `n` fields of value 1. -/
def onesWord (B n : ℕ) : ℕ :=
  ofDigits B (List.replicate n 1)

theorem onesWord_succ (B n : ℕ) : onesWord B (n + 1) = 1 + B * onesWord B n := by
  rw [onesWord, List.replicate_succ, Nat.ofDigits_cons, onesWord]

theorem onesWord_succ' (B n : ℕ) : onesWord B (n + 1) = onesWord B n + B ^ n := by
  rw [onesWord, List.replicate_succ', Nat.ofDigits_append, onesWord, List.length_replicate,
    Nat.ofDigits_singleton, Nat.mul_one]

theorem ofDigits_map_add (B a : ℕ) (l : List ℕ) :
    ofDigits B (l.map (a + ·)) = a * onesWord B l.length + ofDigits B l := by
  induction l with
  | nil => rfl
  | cons b l ih =>
    rw [List.map_cons, Nat.ofDigits_cons, ih, List.length_cons, onesWord_succ, Nat.ofDigits_cons]
    ring

theorem length_partialSums (l : List ℕ) : (partialSums l).length = l.length := by
  induction l with
  | nil => rfl
  | cons a l ih => rw [partialSums, List.length_cons, List.length_map, ih, List.length_cons]

/-- The lower fields of the product are the partial sums, while no carry comes in. -/
theorem ofDigits_mul_onesWord (B : ℕ) (l : List ℕ) :
    ofDigits B l * onesWord B l.length ≡ ofDigits B (partialSums l) [MOD B ^ l.length] := by
  induction l with
  | nil => rfl
  | cons a l ih =>
    have hsum : ofDigits B (partialSums (a :: l)) =
        a * onesWord B (l.length + 1) + B * ofDigits B (partialSums l) := by
      rw [partialSums, Nat.ofDigits_cons, ofDigits_map_add, length_partialSums, onesWord_succ]
      ring
    have hprod : ofDigits B (a :: l) * onesWord B (l.length + 1) =
        a * onesWord B (l.length + 1) + B * (ofDigits B l * onesWord B l.length) +
          B ^ (l.length + 1) * ofDigits B l := by
      rw [Nat.ofDigits_cons, add_mul, onesWord_succ']
      ring
    rw [List.length_cons, hsum, hprod, Nat.ModEq, Nat.add_mul_mod_self_left, pow_succ']
    exact (Nat.ModEq.mul_left' B ih).add_left _

theorem partialSums_le_sum (l : List ℕ) : ∀ d ∈ partialSums l, d ≤ l.sum := by
  induction l with
  | nil => exact fun d hd => absurd hd List.not_mem_nil
  | cons a l ih =>
    intro d hd
    rw [List.sum_cons]
    rcases List.mem_cons.mp hd with rfl | hd
    · exact Nat.le_add_right _ _
    · obtain ⟨e, he, rfl⟩ := List.mem_map.mp hd
      exact Nat.add_le_add_left (ih e he) a

theorem drop_partialSums (a : ℕ) (l : List ℕ) :
    (partialSums (a :: l)).drop l.length = [(a :: l).sum] := by
  induction l generalizing a with
  | nil => rfl
  | cons b l ih =>
    rw [partialSums, List.length_cons, List.drop_succ_cons, ← List.map_drop, ih, List.map_singleton,
      List.sum_cons (l := b :: l)]

/-- The highest field of the product is the sum of all fields. -/
theorem ofDigits_mul_onesWord_div {B n : ℕ} {l : List ℕ} (hB : 1 < B) (hlen : l.length = n + 1)
    (hsum : l.sum < B) :
    ofDigits B l * onesWord B (n + 1) % B ^ (n + 1) / B ^ n = l.sum := by
  have hlt := fun d hd => lt_of_le_of_lt (partialSums_le_sum l d hd) hsum
  have hpow := Nat.ofDigits_lt_base_pow_length hB hlt
  rw [length_partialSums, hlen] at hpow
  have hmod := ofDigits_mul_onesWord B l
  rw [hlen] at hmod
  rw [hmod, Nat.mod_eq_of_lt hpow, Nat.ofDigits_div_pow_eq_ofDigits_drop n (by omega) _ hlt]
  obtain ⟨a, l, rfl⟩ := List.exists_cons_of_length_eq_add_one hlen
  obtain rfl : l.length = n := by simpa using hlen
  rw [drop_partialSums, Nat.ofDigits_singleton]

end AcrnUt
