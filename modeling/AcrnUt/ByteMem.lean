import Mathlib.Data.BitVec
import Mathlib.Tactic

/-!
# Bytes in memory

A memory of bytes at integer addresses. `Holds m a l` says that the bytes of `l` stand from `a`
on : it splits along `++`, a block that is written holds, and what holds elsewhere stays. Words of
32 bits stand with the most significant byte first (`be32`).
-/

set_option linter.unusedSectionVars false

namespace AcrnUt

/-- A memory. -/
abbrev ByteMem := ℤ → BitVec 8

namespace ByteMem

variable {m : ByteMem} {a b : ℤ} {l l' : List (BitVec 8)}

/-! ## Blocks -/

/-- The bytes of `l` stand from `a` on. -/
def Holds (m : ByteMem) : ℤ → List (BitVec 8) → Prop
  | _, [] => True
  | a, x :: l => m a = x ∧ Holds m (a + 1) l

/-- The `n` bytes from `a` on. -/
def read (m : ByteMem) (a : ℤ) : ℕ → List (BitVec 8)
  | 0 => []
  | n + 1 => m a :: read m (a + 1) n

/-- `memcpy` of the bytes of `l` to `a`. -/
def write (m : ByteMem) (a : ℤ) (l : List (BitVec 8)) : ByteMem :=
  fun x => if a ≤ x ∧ x < a + l.length then l.getD (x - a).toNat 0 else m x

theorem holds_append : Holds m a (l ++ l') ↔ Holds m a l ∧ Holds m (a + l.length) l' := by
  induction l generalizing a with
  | nil => simp [Holds]
  | cons x l ih =>
    simp only [List.cons_append, Holds, ih, List.length_cons, and_assoc]
    rw [show a + 1 + (l.length : ℤ) = a + ((l.length + 1 : ℕ) : ℤ) by push_cast; omega]

theorem holds_read (m : ByteMem) (a : ℤ) (n : ℕ) : Holds m a (m.read a n) := by
  induction n generalizing a with
  | zero => trivial
  | succ n ih => exact ⟨rfl, ih _⟩

theorem length_read (m : ByteMem) (a : ℤ) (n : ℕ) : (m.read a n).length = n := by
  induction n generalizing a with
  | zero => rfl
  | succ n ih => simp [read, ih]

theorem holds_iff_read : Holds m a l ↔ m.read a l.length = l := by
  induction l generalizing a with
  | nil => simp [Holds, read]
  | cons x l ih => simp [Holds, read, ih]

/-- What holds is decided by the bytes of its block. -/
theorem Holds.congr {m' : ByteMem} (h : Holds m a l)
    (heq : ∀ x, a ≤ x → x < a + l.length → m' x = m x) : Holds m' a l := by
  induction l generalizing a with
  | nil => trivial
  | cons x l ih =>
    rw [List.length_cons] at heq
    refine ⟨(heq a le_rfl (by push_cast; omega)).trans h.1, ih h.2 fun y hy hy' => ?_⟩
    exact heq y (by omega) (by push_cast; omega)

theorem Holds.getD (h : Holds m a l) {i : ℕ} (hi : i < l.length) : m (a + i) = l.getD i 0 := by
  induction l generalizing a i with
  | nil => simp at hi
  | cons x l ih =>
    cases i with
    | zero => simpa using h.1
    | succ i =>
      have hrest := ih h.2 (i := i) (by simpa using hi)
      rw [List.getD_cons_succ, ← hrest]
      congr 1
      push_cast
      omega

theorem holds_of_getD (h : ∀ i : ℕ, i < l.length → m (a + i) = l.getD i 0) : Holds m a l := by
  induction l generalizing a with
  | nil => trivial
  | cons x l ih =>
    refine ⟨by simpa using h 0 (by simp), ih fun i hi => ?_⟩
    have hi' := h (i + 1) (by simpa using hi)
    rw [List.getD_cons_succ] at hi'
    rw [← hi']
    congr 1
    push_cast
    omega

/-- Outside of the block that is written, nothing changes. -/
theorem write_of_outside {x : ℤ} (h : x < a ∨ a + l.length ≤ x) : m.write a l x = m x :=
  if_neg (by omega)

/-- A block that is written holds. -/
theorem holds_write (m : ByteMem) (a : ℤ) (l : List (BitVec 8)) : Holds (m.write a l) a l := by
  refine holds_of_getD fun i hi => ?_
  rw [write, if_pos (by omega)]
  congr 1
  omega

/-- What holds elsewhere stays. -/
theorem Holds.write (h : Holds m b l') (hne : b + l'.length ≤ a ∨ a + l.length ≤ b) :
    Holds (m.write a l) b l' :=
  h.congr fun _ _ _ => write_of_outside (by omega)

/-- What holds stands where its bytes are copied to. -/
theorem Holds.copy {m' : ByteMem} (h : Holds m a l)
    (heq : ∀ i : ℕ, i < l.length → m' (b + i) = m (a + i)) : Holds m' b l :=
  holds_of_getD fun i hi => (heq i hi).trans (h.getD hi)

/-- A block that is moved : its bytes stand at the new place. -/
theorem write_read (m : ByteMem) (a b : ℤ) {n i : ℕ} (hi : i < n) :
    m.write a (m.read b n) (a + i) = m (b + i) := by
  have hi' : i < (m.read b n).length := by rwa [length_read]
  exact ((holds_write m a _).getD hi').trans ((holds_read m b n).getD hi').symm

/-! ## Words -/

/-- The word at `a`, the most significant byte first. -/
def be32 (m : ByteMem) (a : ℤ) : BitVec 32 :=
  m a ++ m (a + 1) ++ m (a + 2) ++ m (a + 3)

/-- The first byte of a word. -/
theorem extractLsb'_be32 (m : ByteMem) (a : ℤ) : (m.be32 a).extractLsb' 24 8 = m a := by
  refine BitVec.eq_of_getLsbD_eq fun i hi => ?_
  rw [BitVec.getLsbD_extractLsb', be32, BitVec.getLsbD_append, BitVec.getLsbD_append,
    BitVec.getLsbD_append, if_neg (by omega), if_neg (by omega), if_neg (by omega),
    decide_eq_true hi, Bool.true_and]
  congr 1
  omega

/-- The bytes of a word, the most significant one first. -/
def be32Bytes (v : BitVec 32) : List (BitVec 8) :=
  [v.extractLsb' 24 8, v.extractLsb' 16 8, v.extractLsb' 8 8, v.extractLsb' 0 8]

/-- A store of a word. -/
def writeBe32 (m : ByteMem) (a : ℤ) (v : BitVec 32) : ByteMem :=
  m.write a (be32Bytes v)

theorem writeBe32_of_outside {v : BitVec 32} {x : ℤ} (h : x < a ∨ a + 4 ≤ x) :
    m.writeBe32 a v x = m x :=
  write_of_outside h

theorem append_extract (v : BitVec 32) :
    v.extractLsb' 24 8 ++ v.extractLsb' 16 8 ++ v.extractLsb' 8 8 ++ v.extractLsb' 0 8 = v := by
  refine BitVec.eq_of_getLsbD_eq fun i hi => ?_
  simp only [BitVec.getLsbD_append, BitVec.getLsbD_extractLsb']
  rcases (by omega : i < 8 ∨ (8 ≤ i ∧ i < 16) ∨ (16 ≤ i ∧ i < 24) ∨ 24 ≤ i) with h | h | h | h
  · simp [h]
  · simp [show ¬ i < 8 by omega, show i - 8 < 8 by omega, show 8 + (i - 8) = i by omega]
  · simp [show ¬ i < 8 by omega, show ¬ i - 8 < 8 by omega, show i - 8 - 8 < 8 by omega,
      show 16 + (i - 8 - 8) = i by omega]
  · simp [show ¬ i < 8 by omega, show ¬ i - 8 < 8 by omega, show ¬ i - 8 - 8 < 8 by omega,
      show i - 8 - 8 - 8 < 8 by omega, show 24 + (i - 8 - 8 - 8) = i by omega]

/-- The word of a block of four bytes. -/
theorem be32_of_holds {v : BitVec 32} (h : Holds m a (be32Bytes v)) : m.be32 a = v := by
  obtain ⟨h₀, h₁, h₂, h₃, -⟩ := h
  rw [be32, h₀, h₁, show a + 2 = a + 1 + 1 by omega, h₂, show a + 3 = a + 1 + 1 + 1 by omega, h₃]
  exact append_extract v

theorem be32_congr {m' : ByteMem} (h : ∀ x, a ≤ x → x < a + 4 → m' x = m x) :
    m'.be32 a = m.be32 a := by
  rw [be32, be32, h a le_rfl (by omega), h (a + 1) (by omega) (by omega),
    h (a + 2) (by omega) (by omega), h (a + 3) (by omega) (by omega)]

@[simp] theorem be32_writeBe32 (m : ByteMem) (a : ℤ) (v : BitVec 32) :
    (m.writeBe32 a v).be32 a = v :=
  be32_of_holds (holds_write m a _)

theorem be32_write (h : b + 4 ≤ a ∨ a + l.length ≤ b) : (m.write a l).be32 b = m.be32 b :=
  be32_congr fun _ _ _ => write_of_outside (by omega)

theorem be32_writeBe32_of_ne {v : BitVec 32} (h : b + 4 ≤ a ∨ a + 4 ≤ b) :
    (m.writeBe32 a v).be32 b = m.be32 b :=
  be32_write h

end ByteMem

end AcrnUt
