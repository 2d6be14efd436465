import AcrnUt.Bytes

/-!
# A stack of words in a memory of bytes

A stack that grows down : a push stores a word below the stack pointer and moves it
there. After a series of pushes the words stand one below the other from the old stack
pointer on (`loadWord_pushAll`), and nothing outside of them has changed
(`pushAll_of_notMem`). The addresses are taken modulo the address space.
-/

set_option linter.unusedSectionVars false

namespace AcrnUt

variable {w : ℕ}

/-- `k` words, as a distance of addresses. -/
def wordSpan (w k : ℕ) : BitVec w := BitVec.ofNat w (w / 8 * k)

@[simp] theorem wordSpan_zero : wordSpan w 0 = 0 := rfl

theorem wordSpan_succ (k : ℕ) : wordSpan w (k + 1) = wordSpan w k + wordSpan w 1 := by
  unfold wordSpan
  rw [← BitVec.ofNat_add, Nat.mul_one, Nat.mul_succ]

theorem wordSpan_add (j k : ℕ) : wordSpan w (j + k) = wordSpan w j + wordSpan w k := by
  unfold wordSpan
  rw [← BitVec.ofNat_add, Nat.mul_add]

/-- The memory after pushing the words, from the stack pointer `sp`. -/
def pushAll : List (BitVec w) → BitVec w → (BitVec w → BitVec 8) → BitVec w → BitVec 8
  | [], _, bytes => bytes
  | x :: xs, sp, bytes => pushAll xs (sp - wordSpan w 1) (storeWord bytes (sp - wordSpan w 1) x)

/-- The span of fewer words than the address space holds. -/
theorem toNat_wordSpan {k : ℕ} (hk : w / 8 * k < 2 ^ w) : (wordSpan w k).toNat = w / 8 * k := by
  unfold wordSpan
  rw [BitVec.toNat_ofNat, Nat.mod_eq_of_lt hk]

theorem sub_wordSpan_succ (sp : BitVec w) (k : ℕ) :
    sp - wordSpan w (k + 1) = sp - wordSpan w 1 - wordSpan w k := by
  rw [wordSpan_succ, add_comm, sub_add_eq_sub_sub]

theorem pushAll_append (xs ys : List (BitVec w)) (sp : BitVec w) (bytes : BitVec w → BitVec 8) :
    pushAll (xs ++ ys) sp bytes = pushAll ys (sp - wordSpan w xs.length) (pushAll xs sp bytes) := by
  induction xs generalizing sp bytes with
  | nil =>
    rw [List.length_nil, wordSpan_zero, sub_zero]
    rfl
  | cons x xs ih =>
    rw [List.cons_append, pushAll, ih, List.length_cons, sub_wordSpan_succ sp xs.length]
    rfl

/-- What is not below the old and from the new stack pointer on stays as it is. -/
theorem pushAll_of_notMem :
    ∀ (xs : List (BitVec w)) (sp : BitVec w) (bytes : BitVec w → BitVec 8) (b : BitVec w),
      w / 8 * xs.length < 2 ^ w →
      b ∉ byteRange (sp - wordSpan w xs.length) (w / 8 * xs.length) →
      pushAll xs sp bytes b = bytes b
  | [], _, _, _, _, _ => rfl
  | x :: xs, sp, bytes, b, hlen, hb => by
    rw [List.length_cons] at hlen hb
    rw [Nat.mul_succ] at hlen
    rw [sub_wordSpan_succ] at hb
    have hrest : byteRange (sp - wordSpan w 1 - wordSpan w xs.length) (w / 8 * xs.length)
        ⊆ byteRange (sp - wordSpan w 1 - wordSpan w xs.length) (w / 8 * (xs.length + 1)) := by
      have h : byteRange (sp - wordSpan w 1 - wordSpan w xs.length + 0) (w / 8 * xs.length)
          ⊆ byteRange (sp - wordSpan w 1 - wordSpan w xs.length) (w / 8 * (xs.length + 1)) := by
        refine byteRange_subset ?_
        rw [Nat.mul_succ]
        simp
      rwa [add_zero] at h
    have hfirst : byteRange (sp - wordSpan w 1) (w / 8)
        ⊆ byteRange (sp - wordSpan w 1 - wordSpan w xs.length) (w / 8 * (xs.length + 1)) := by
      have h : byteRange (sp - wordSpan w 1 - wordSpan w xs.length + wordSpan w xs.length) (w / 8)
          ⊆ byteRange (sp - wordSpan w 1 - wordSpan w xs.length) (w / 8 * (xs.length + 1)) := by
        refine byteRange_subset ?_
        rw [toNat_wordSpan (by omega), Nat.mul_succ]
      rwa [sub_add_cancel] at h
    rw [pushAll, pushAll_of_notMem xs _ _ b (by omega) fun h => hb (hrest h)]
    exact storeWord_of_notMem fun h => hb (hfirst h)

/-- Word `i` pushed stands `i + 1` words below the old stack pointer. -/
theorem loadWord_pushAll [WholeBytes w] (xs : List (BitVec w)) (sp : BitVec w)
    (bytes : BitVec w → BitVec 8) (i : ℕ) (hi : i < xs.length) (hlen : w / 8 * xs.length < 2 ^ w) :
    loadWord (pushAll xs sp bytes) (sp - wordSpan w (i + 1)) = xs[i] := by
  induction xs generalizing sp bytes i with
  | nil => exact absurd hi (Nat.not_lt_zero i)
  | cons x xs ih =>
    rw [List.length_cons, Nat.mul_succ] at hlen
    rw [pushAll]
    rcases i with _ | i
    · have hapart : ∀ b ∈ byteRange (sp - wordSpan w 1 - wordSpan w xs.length + 0)
          (w / 8 * xs.length), b ∉ byteRange
            (sp - wordSpan w 1 - wordSpan w xs.length + wordSpan w xs.length) (w / 8) := by
        refine byteRange_disjoint ?_ ?_
        · rw [toNat_wordSpan (by omega)]
          simp
        · rw [toNat_wordSpan (by omega)]
          omega
      rw [add_zero, sub_add_cancel] at hapart
      have hkeep : ∀ b ∈ byteRange (sp - wordSpan w 1) (w / 8),
          pushAll xs (sp - wordSpan w 1) (storeWord bytes (sp - wordSpan w 1) x) b
            = storeWord bytes (sp - wordSpan w 1) x b := fun b hb =>
        pushAll_of_notMem xs _ _ b (by omega) fun hmem => hapart b hmem hb
      rw [List.getElem_cons_zero, zero_add, loadWord_congr hkeep, loadWord_storeWord]
    · rw [List.getElem_cons_succ, sub_wordSpan_succ sp (i + 1)]
      exact ih _ _ i (by simpa using hi) (by omega)

end AcrnUt
