import Mathlib.Data.Nat.Notation
import Mathlib.Tactic

/-!
# Bit-fields

A field of a word is a run of `len` bits from bit `lo` (`BitField`). `get` reads it and
`set` writes it, as a C compiler reads and writes a member `x : len` of a packed struct.
A write is read back (`get_set`), and leaves the fields it does not overlap
(`get_set_of_disjoint`).
-/

set_option linter.unusedSectionVars false

namespace AcrnUt

/-- A field of `len` bits in a word of `w` bits. -/
structure BitField (w len : ℕ) where
  lo : ℕ
  fits : lo + len ≤ w

namespace BitField

variable {w len len' : ℕ} (f : BitField w len) (g : BitField w len')

/-- The value of the field. -/
def get (x : BitVec w) : BitVec len :=
  x.extractLsb' f.lo len

/-- The bits of the field. -/
def mask : BitVec w :=
  (BitVec.allOnes len).setWidth w <<< f.lo

/-- Store a value in the field. -/
def set (x : BitVec w) (v : BitVec len) : BitVec w :=
  (x &&& ~~~f.mask) ||| (v.setWidth w <<< f.lo)

/-- The fields have no bit in common. -/
def Disjoint : Prop :=
  f.lo + len ≤ g.lo ∨ g.lo + len' ≤ f.lo

instance : Decidable (f.Disjoint g) :=
  inferInstanceAs (Decidable (_ ∨ _))

theorem getLsbD_get (x : BitVec w) (i : ℕ) :
    (f.get x).getLsbD i = (decide (i < len) && x.getLsbD (f.lo + i)) :=
  BitVec.getLsbD_extractLsb' ..

theorem getLsbD_mask {i : ℕ} (hi : i < w) :
    f.mask.getLsbD i = (decide (f.lo ≤ i) && decide (i < f.lo + len)) := by
  have hfits := f.fits
  unfold mask
  rw [BitVec.getLsbD_shiftLeft, BitVec.getLsbD_setWidth, BitVec.getLsbD_allOnes, Bool.eq_iff_iff]
  simp only [hi, decide_true, Bool.true_and, Bool.and_eq_true, Bool.not_eq_true',
    decide_eq_true_eq, decide_eq_false_iff_not]
  omega

theorem getLsbD_set (x : BitVec w) (v : BitVec len) {i : ℕ} (hi : i < w) :
    (f.set x v).getLsbD i =
      if f.lo ≤ i ∧ i < f.lo + len then v.getLsbD (i - f.lo) else x.getLsbD i := by
  unfold set
  rw [BitVec.getLsbD_or, BitVec.getLsbD_and, BitVec.getLsbD_not, f.getLsbD_mask hi,
    BitVec.getLsbD_shiftLeft, BitVec.getLsbD_setWidth]
  by_cases hlo : f.lo ≤ i
  · have hsub : i - f.lo < w := by omega
    by_cases hhi : i < f.lo + len
    · simp [hi, hlo, hhi, hsub, not_lt.mpr hlo]
    · have hge : len ≤ i - f.lo := by omega
      simp [hi, hlo, hhi, hsub, BitVec.getLsbD_of_ge _ _ hge]
  · simp [hi, hlo, not_le.mp hlo]

@[simp] theorem get_zero : f.get 0 = 0 := by
  ext i hi
  simp [get]

/-- What is written is read back. -/
@[simp] theorem get_set (x : BitVec w) (v : BitVec len) : f.get (f.set x v) = v := by
  have hfits := f.fits
  ext i hi
  rw [← BitVec.getLsbD_eq_getElem, ← BitVec.getLsbD_eq_getElem, getLsbD_get,
    f.getLsbD_set x v (by omega), if_pos (by omega)]
  simp [hi]

/-- A write leaves the other fields. -/
theorem get_set_of_disjoint {f : BitField w len} {g : BitField w len'} (h : f.Disjoint g)
    (x : BitVec w) (v : BitVec len') : f.get (g.set x v) = f.get x := by
  have hfits := f.fits
  unfold Disjoint at h
  ext i hi
  rw [← BitVec.getLsbD_eq_getElem, ← BitVec.getLsbD_eq_getElem, getLsbD_get, getLsbD_get,
    g.getLsbD_set x v (by omega), if_neg (by omega)]

theorem get_or (x y : BitVec w) : f.get (x ||| y) = f.get x ||| f.get y := by
  ext i hi
  simp [get]

/-- A word that is nothing but the field. -/
theorem set_zero (v : BitVec len) : f.set 0 v = v.setWidth w <<< f.lo := by
  rw [set, BitVec.ofNat_eq_ofNat, BitVec.zero_and, BitVec.zero_or]

theorem get_shiftLeft (v : BitVec len) : f.get (v.setWidth w <<< f.lo) = v := by
  rw [← set_zero, get_set]

theorem get_shiftLeft_of_disjoint {f : BitField w len} {g : BitField w len'} (h : f.Disjoint g)
    (v : BitVec len') : f.get (v.setWidth w <<< g.lo) = 0 := by
  rw [← set_zero, get_set_of_disjoint h, get_zero]

end BitField

end AcrnUt
