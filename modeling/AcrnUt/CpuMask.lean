import AcrnUt.Page
import Mathlib.Data.Finset.Sort

/-!
# Masks of CPUs

`lib/arm/asm/cpumask.h` and the bit operations of `lib/arm/bitops.c`, for words of `w` bits. A
mask has a bit for each of `NR_CPUS` CPUs; only the words up to `nr_cpus` are cleared, filled and
looked at. The last of them may end behind `nr_cpus`, and `cpumask_next` tests the bit at `nr_cpus`,
which may lie behind the array.

A mask that is cleared or filled, and then changed by its operations, stands for a set of CPUs
below `nr_cpus` (`CpuMask.Refines`); what is read of it is what the set says (`CpuMask.run_agrees`).
-/

set_option linter.unusedSectionVars false

namespace AcrnUt

/-- `NR_CPUS`. -/
def maxCpus : ℕ :=
  512

/-- `CPUMASK_NR_LONGS`. -/
def cpumaskNrLongs (w : ℕ) : ℕ :=
  (maxCpus + w - 1) / w

/-- `cpumask_t` : the words of its array, and behind them the words that follow it. -/
structure CpuMask (w : ℕ) where
  bits : ℕ → BitVec w

/-- `BIT_MASK`. -/
def bitMask (w nr : ℕ) : BitVec w :=
  1#w <<< (nr % w)

/-- `BIT_WORD`. -/
def bitWord (w nr : ℕ) : ℕ :=
  nr / w

namespace CpuMask

variable {w : ℕ}

/-- Store `x` in a word. -/
def store (mask : CpuMask w) (word : ℕ) (x : BitVec w) : CpuMask w :=
  ⟨Function.update mask.bits word x⟩

/-- `cpumask_set_cpu`, through `set_bit`. -/
def setCpu (mask : CpuMask w) (cpu : ℕ) : CpuMask w :=
  mask.store (bitWord w cpu) (mask.bits (bitWord w cpu) ||| bitMask w cpu)

/-- `cpumask_clear_cpu`, through `clear_bit`. -/
def clearCpu (mask : CpuMask w) (cpu : ℕ) : CpuMask w :=
  mask.store (bitWord w cpu) (mask.bits (bitWord w cpu) &&& ~~~bitMask w cpu)

/-- `cpumask_test_cpu`, through `test_bit`. -/
def testCpu (mask : CpuMask w) (cpu : ℕ) : Bool :=
  (mask.bits (bitWord w cpu) &&& bitMask w cpu) != 0

/-- `cpumask_test_and_set_cpu`, through `test_and_set_bit`. -/
def testAndSetCpu (mask : CpuMask w) (cpu : ℕ) : CpuMask w × Bool :=
  let old := mask.bits (bitWord w cpu)
  (mask.store (bitWord w cpu) (old ||| bitMask w cpu), (old &&& bitMask w cpu) != 0)

/-- `cpumask_test_and_clear_cpu`, through `test_and_clear_bit`. -/
def testAndClearCpu (mask : CpuMask w) (cpu : ℕ) : CpuMask w × Bool :=
  let old := mask.bits (bitWord w cpu)
  (mask.store (bitWord w cpu) (old &&& ~~~bitMask w cpu), (old &&& bitMask w cpu) != 0)

/-- How many words are looked at. -/
def usedWords (w nrCpus : ℕ) : ℕ :=
  (nrCpus + w - 1) / w

/-- The values of `i` in `for (i = 0; i < nr_cpus; i += BITS_PER_LONG)`. -/
def wordStarts (w nrCpus : ℕ) : List ℕ :=
  (List.range (usedWords w nrCpus)).map (· * w)

/-- Store `x` in the words of the loop. -/
def fill (nrCpus : ℕ) (x : BitVec w) (mask : CpuMask w) : CpuMask w :=
  (wordStarts w nrCpus).foldl (fun mask i => mask.store (bitWord w i) x) mask

/-- `cpumask_setall`. -/
def setall (nrCpus : ℕ) (mask : CpuMask w) : CpuMask w :=
  let mask := mask.fill nrCpus (BitVec.allOnes w)
  let i : ℤ := usedWords w nrCpus * w - w
  if nrCpus - i < w then
    mask.store (bitWord w i.toNat) (bitMask w (nrCpus - i).toNat - 1)
  else mask

/-- `cpumask_clear`. -/
def clear (nrCpus : ℕ) (mask : CpuMask w) : CpuMask w :=
  mask.fill nrCpus 0

/-- `cpumask_empty`. -/
def empty (nrCpus : ℕ) (mask : CpuMask w) : Bool :=
  (wordStarts w nrCpus).all fun i => !(i < maxCpus && mask.bits (bitWord w i) != 0)

/-- `cpumask_full`. -/
def full (nrCpus : ℕ) (mask : CpuMask w) : Bool :=
  (wordStarts w nrCpus).all fun i =>
    !(mask.bits (bitWord w i) != BitVec.allOnes w &&
      (w ≤ nrCpus - i || mask.bits (bitWord w i) != bitMask w (nrCpus - i) - 1))

/-- `cpumask_weight`. -/
def weight (nrCpus : ℕ) (mask : CpuMask w) : ℕ :=
  (List.range nrCpus).foldl (fun n i => if mask.testCpu i then n + 1 else n) 0

/-- `cpumask_next`. -/
def next (nrCpus : ℕ) (mask : CpuMask w) (cpu : ℤ) : ℤ :=
  if cpu < nrCpus then
    if mask.testCpu (cpu + 1).toNat then cpu + 1 else next nrCpus mask (cpu + 1)
  else cpu
termination_by (nrCpus - cpu).toNat

theorem next_of_le {nrCpus : ℕ} (mask : CpuMask w) {cpu : ℤ} (h : nrCpus ≤ cpu) :
    mask.next nrCpus cpu = cpu := by
  rw [next, if_neg (by omega)]

/-- The CPU that is found is the first one behind `cpu` with its bit set. -/
theorem next_spec (nrCpus : ℕ) (mask : CpuMask w) (cpu : ℤ) (h : cpu < nrCpus) :
    cpu < mask.next nrCpus cpu ∧ mask.next nrCpus cpu ≤ nrCpus ∧
      (∀ j, cpu < j → j < mask.next nrCpus cpu → mask.testCpu j.toNat = false) ∧
      (mask.next nrCpus cpu < nrCpus → mask.testCpu (mask.next nrCpus cpu).toNat) := by
  rw [next, if_pos h]
  split
  case isTrue htest =>
    exact ⟨by omega, by omega, fun j h1 h2 => by omega, fun _ => htest⟩
  case isFalse htest =>
    have htest' : mask.testCpu (cpu + 1).toNat = false := by simpa using htest
    rcases (show cpu + 1 ≤ nrCpus by omega).lt_or_eq with hlt | heq
    · obtain ⟨h1, h2, h3, h4⟩ := next_spec nrCpus mask (cpu + 1) hlt
      refine ⟨by omega, h2, fun j hj hj' => ?_, h4⟩
      rcases (show cpu + 1 ≤ j by omega).lt_or_eq with hj1 | rfl
      · exact h3 j hj1 hj'
      · exact htest'
    · rw [next_of_le mask heq.ge]
      exact ⟨by omega, heq.le, fun j h1 h2 => by omega, fun h => by omega⟩
termination_by (nrCpus - cpu).toNat

theorem lt_next {nrCpus : ℕ} {mask : CpuMask w} {cpu : ℤ} (h : mask.next nrCpus cpu < nrCpus) :
    cpu < mask.next nrCpus cpu := by
  rcases lt_or_ge cpu nrCpus with hlt | hge
  · exact (next_spec nrCpus mask cpu hlt).1
  · rw [next_of_le mask hge] at h
    omega

/-- The CPUs that `for_each_cpu` visits behind `cpu`. -/
def forEachFrom (nrCpus : ℕ) (mask : CpuMask w) (cpu : ℤ) : List ℕ :=
  if mask.next nrCpus cpu < nrCpus then
    (mask.next nrCpus cpu).toNat :: forEachFrom nrCpus mask (mask.next nrCpus cpu)
  else []
termination_by (nrCpus - cpu).toNat
decreasing_by
  have := lt_next (by assumption)
  omega

/-- The CPUs that `for_each_cpu` visits, in their order. -/
def forEach (nrCpus : ℕ) (mask : CpuMask w) : List ℕ :=
  mask.forEachFrom nrCpus (-1)

/-! ## What a mask reads as -/

section Test

variable [NeZero w] (mask : CpuMask w) (cpu j nrCpus : ℕ)

theorem getLsbD_bitMask : (bitMask w cpu).getLsbD j = decide (j = cpu % w) := by
  have hlt := Nat.mod_lt cpu (NeZero.pos w)
  rw [bitMask, ← BitVec.twoPow_eq, BitVec.getLsbD_twoPow, decide_eq_true hlt, Bool.true_and]
  simp only [eq_comm]

theorem testCpu_eq : mask.testCpu cpu = (mask.bits (cpu / w)).getLsbD (cpu % w) := by
  have hlt := Nat.mod_lt cpu (NeZero.pos w)
  have hne : BitVec.twoPow w (cpu % w) ≠ 0 := by
    intro h
    have hbit := congrArg (BitVec.getLsbD · (cpu % w)) h
    simp [hlt] at hbit
  rw [testCpu, bitWord, bitMask, ← BitVec.twoPow_eq, BitVec.and_twoPow]
  split <;> simp_all

theorem eq_iff_word_bit : j = cpu ↔ j / w = cpu / w ∧ j % w = cpu % w := by
  constructor
  · rintro rfl
    exact ⟨rfl, rfl⟩
  · rintro ⟨hdiv, hmod⟩
    rw [← Nat.div_add_mod j w, hdiv, hmod, Nat.div_add_mod]

theorem bits_store (word : ℕ) (x : BitVec w) :
    (mask.store word x).bits j = if j = word then x else mask.bits j :=
  Function.update_apply ..

theorem testCpu_setCpu : (mask.setCpu cpu).testCpu j = (j == cpu || mask.testCpu j) := by
  rw [testCpu_eq, testCpu_eq, setCpu, bits_store, bitWord, Bool.eq_iff_iff]
  by_cases h : j / w = cpu / w
  · rw [if_pos h, BitVec.getLsbD_or, getLsbD_bitMask, ← h]
    simp [eq_iff_word_bit (w := w) cpu j, h, or_comm]
  · simp [eq_iff_word_bit (w := w) cpu j, h]

theorem testCpu_clearCpu : (mask.clearCpu cpu).testCpu j = (j != cpu && mask.testCpu j) := by
  have hlt := Nat.mod_lt j (NeZero.pos w)
  rw [testCpu_eq, testCpu_eq, clearCpu, bits_store, bitWord, Bool.eq_iff_iff]
  by_cases h : j / w = cpu / w
  · rw [if_pos h, BitVec.getLsbD_and, BitVec.getLsbD_not, getLsbD_bitMask, ← h]
    simp [eq_iff_word_bit (w := w) cpu j, h, hlt, and_comm]
  · simp [eq_iff_word_bit (w := w) cpu j, h]

end Test

/-! ## The words that are looked at -/

section Words

variable [NeZero w] {mask : CpuMask w} {i k nrCpus : ℕ}

theorem lt_usedWords_iff : k < usedWords w nrCpus ↔ k * w < nrCpus := by
  have hw := NeZero.pos w
  rw [usedWords, Nat.lt_iff_add_one_le, Nat.le_div_iff_mul_le hw, add_mul]
  omega

/-- The last word that is looked at. -/
theorem exists_last_word (hpos : 0 < nrCpus) :
    ∃ k, usedWords w nrCpus = k + 1 ∧ k * w < nrCpus ∧ nrCpus ≤ (k + 1) * w := by
  have hne : usedWords w nrCpus ≠ 0 := (lt_usedWords_iff.2 (by omega)).ne'
  obtain ⟨k, hk⟩ := Nat.exists_eq_succ_of_ne_zero hne
  refine ⟨k, hk, lt_usedWords_iff.1 (by omega), ?_⟩
  exact not_lt.1 (mt lt_usedWords_iff.2 (by omega))

/-- The part of the last word below `nr_cpus`. -/
theorem getLsbD_bitMask_sub_one (hk : k < w) (i : ℕ) :
    (bitMask w k - 1).getLsbD i = decide (i < k) := by
  rw [bitMask, Nat.mod_eq_of_lt hk, BitVec.getLsbD, toNat_one_shiftLeft_sub_one hk,
    Nat.testBit_two_pow_sub_one]

/-- The CPUs of a word. -/
theorem testCpu_word (hi : i < w) : mask.testCpu (k * w + i) = (mask.bits k).getLsbD i := by
  rw [testCpu_eq, mul_comm, Nat.mul_add_div (NeZero.pos w), Nat.mul_add_mod, Nat.div_eq_of_lt hi,
    Nat.mod_eq_of_lt hi, add_zero]

theorem bits_fill (x : BitVec w) (mask : CpuMask w) :
    (mask.fill nrCpus x).bits k = if k < usedWords w nrCpus then x else mask.bits k := by
  have h : ∀ n, (((List.range n).map (· * w)).foldl (fun mask i => mask.store (bitWord w i) x)
      mask).bits k = if k < n then x else mask.bits k := by
    intro n
    induction n with
    | zero => rfl
    | succ n ih =>
      rw [List.range_succ, List.map_append, List.foldl_append]
      simp only [List.map_cons, List.map_nil, List.foldl_cons, List.foldl_nil]
      rw [bits_store, ih, bitWord, Nat.mul_div_cancel _ (NeZero.pos w)]
      rcases lt_trichotomy k n with hlt | rfl | hgt
      · simp [hlt.ne, hlt, hlt.trans (Nat.lt_succ_self n)]
      · simp
      · simp [hgt.ne', hgt.not_gt, Nat.not_lt.2 (Nat.succ_le_of_lt hgt)]
  exact h _

end Words

/-! ## The set of a mask -/

/-- An operation on a mask, or a store of the rest of the program behind its array. -/
inductive Op (w : ℕ)
  | setCpu (cpu : ℕ)
  | clearCpu (cpu : ℕ)
  | testAndSetCpu (cpu : ℕ)
  | testAndClearCpu (cpu : ℕ)
  | behind (word : ℕ) (x : BitVec w)

namespace Op

/-- The mask after an operation, and what it returns. -/
def exec (mask : CpuMask w) : Op w → CpuMask w × Option Bool
  | setCpu cpu => (mask.setCpu cpu, none)
  | clearCpu cpu => (mask.clearCpu cpu, none)
  | testAndSetCpu cpu => ((mask.testAndSetCpu cpu).1, some (mask.testAndSetCpu cpu).2)
  | testAndClearCpu cpu => ((mask.testAndClearCpu cpu).1, some (mask.testAndClearCpu cpu).2)
  | behind word x => (mask.store word x, none)

/-- The operation on sets of CPUs. -/
def apply (s : Finset ℕ) : Op w → Finset ℕ × Option Bool
  | setCpu cpu => (insert cpu s, none)
  | clearCpu cpu => (s.erase cpu, none)
  | testAndSetCpu cpu => (insert cpu s, some (cpu ∈ s))
  | testAndClearCpu cpu => (s.erase cpu, some (cpu ∈ s))
  | behind _ _ => (s, none)

/-- The CPU of an operation is below `nr_cpus`. -/
def Valid (nrCpus : ℕ) : Op w → Prop
  | setCpu cpu | clearCpu cpu | testAndSetCpu cpu | testAndClearCpu cpu => cpu < nrCpus
  | behind word _ => cpumaskNrLongs w ≤ word

end Op

/-- A run of operations, with what they return. -/
def run : List (Op w) → CpuMask w → CpuMask w × List (Option Bool)
  | [], mask => (mask, [])
  | op :: ops, mask =>
    let r := run ops (op.exec mask).1
    (r.1, (op.exec mask).2 :: r.2)

/-- The run on sets. -/
def runSet : List (Op w) → Finset ℕ → Finset ℕ × List (Option Bool)
  | [], s => (s, [])
  | op :: ops, s =>
    let r := runSet ops (op.apply s).1
    (r.1, (op.apply s).2 :: r.2)

/-- The words that are looked at hold the CPUs of `s`, and no bit behind `nr_cpus`. -/
structure Refines (nrCpus : ℕ) (mask : CpuMask w) (s : Finset ℕ) : Prop where
  test : ∀ cpu, cpu / w < usedWords w nrCpus → mask.testCpu cpu = decide (cpu ∈ s)
  lt : ∀ cpu ∈ s, cpu < nrCpus

section Refines

variable [NeZero w] {mask : CpuMask w} {s : Finset ℕ} {nrCpus cpu : ℕ}

theorem word_lt_usedWords (h : cpu < nrCpus) : cpu / w < usedWords w nrCpus :=
  lt_usedWords_iff.2 ((Nat.div_mul_le_self cpu w).trans_lt h)

theorem Refines.test_lt (h : Refines nrCpus mask s) (hcpu : cpu < nrCpus) :
    mask.testCpu cpu = decide (cpu ∈ s) :=
  h.test cpu (word_lt_usedWords hcpu)

theorem refines_clear (mask : CpuMask w) : Refines nrCpus (mask.clear nrCpus) ∅ where
  test cpu hcpu := by
    rw [testCpu_eq, clear, bits_fill, if_pos hcpu]
    simp
  lt cpu h := by simp at h

/-- The last word is cut at `nr_cpus`, unless it ends there. -/
theorem bits_setall {k : ℕ} (hk : usedWords w nrCpus = k + 1) (hlt : k * w < nrCpus) (i : ℕ) :
    (mask.setall nrCpus).bits i =
      if i = k ∧ nrCpus < (k + 1) * w then bitMask w (nrCpus - k * w) - 1
      else if i < k + 1 then BitVec.allOnes w else mask.bits i := by
  have hi : (usedWords w nrCpus : ℤ) * w - w = (k * w : ℕ) := by
    rw [hk]
    push_cast
    ring
  have hsub : ((nrCpus : ℤ) - (k * w : ℕ)).toNat = nrCpus - k * w := by omega
  have hcond : (nrCpus : ℤ) - (k * w : ℕ) < w ↔ nrCpus < (k + 1) * w := by
    rw [add_mul]
    omega
  simp only [setall, hi, hsub, hcond, Int.toNat_natCast, bitWord,
    Nat.mul_div_cancel k (NeZero.pos w)]
  by_cases h : nrCpus < (k + 1) * w
  · rw [if_pos h, bits_store, bits_fill, hk]
    simp only [h, and_true]
  · rw [if_neg h, bits_fill, hk]
    simp only [h, and_false, if_false]

theorem refines_setall (hpos : 0 < nrCpus) (mask : CpuMask w) :
    Refines nrCpus (mask.setall nrCpus) (Finset.range nrCpus) where
  test cpu hcpu := by
    obtain ⟨k, hk, hlt, hle⟩ := exists_last_word (w := w) hpos
    have hmod := Nat.mod_lt cpu (NeZero.pos w)
    have hsplit := Nat.div_add_mod cpu w
    rw [testCpu_eq, bits_setall hk hlt]
    rw [mul_comm] at hsplit
    rw [hk] at hcpu
    split
    case isTrue h =>
      obtain ⟨rfl, h⟩ := h
      rw [add_mul] at h
      rw [getLsbD_bitMask_sub_one (by omega), decide_eq_decide, Finset.mem_range]
      omega
    case isFalse h =>
      have hmem : cpu < nrCpus := by
        rcases (Nat.lt_succ_iff.1 hcpu).lt_or_eq with hlast | hlast
        · have := Nat.mul_le_mul_right w (Nat.succ_le_of_lt hlast)
          rw [Nat.succ_mul] at this
          omega
        · rw [hlast] at hsplit
          rw [add_mul] at h hle
          omega
      rw [BitVec.getLsbD_allOnes, decide_eq_decide, Finset.mem_range]
      exact iff_of_true hmod hmem
  lt cpu h := Finset.mem_range.1 h

theorem Refines.insert (h : Refines nrCpus mask s) (hcpu : cpu < nrCpus) :
    Refines nrCpus (mask.setCpu cpu) (insert cpu s) where
  test j hj := by
    rw [testCpu_setCpu, h.test j hj]
    simp [Bool.beq_eq_decide_eq]
  lt j hj := by
    rcases Finset.mem_insert.1 hj with rfl | hj
    · exact hcpu
    · exact h.lt j hj

theorem Refines.erase (h : Refines nrCpus mask s) :
    Refines nrCpus (mask.clearCpu cpu) (s.erase cpu) where
  test j hj := by
    rw [testCpu_clearCpu, h.test j hj]
    simp [bne, Bool.beq_eq_decide_eq]
  lt j hj := h.lt j (Finset.mem_of_mem_erase hj)

/-- Behind the array nothing is looked at. -/
theorem Refines.behind (h : Refines nrCpus mask s) (hmax : nrCpus ≤ maxCpus) {word : ℕ}
    (hword : cpumaskNrLongs w ≤ word) (x : BitVec w) : Refines nrCpus (mask.store word x) s where
  test j hj := by
    have hused : usedWords w nrCpus ≤ cpumaskNrLongs w := Nat.div_le_div_right (by omega)
    rw [← h.test j hj, testCpu_eq, testCpu_eq, bits_store, if_neg (by omega)]
  lt := h.lt

/-- An operation does with the mask what it does with the set. -/
theorem Refines.exec (h : Refines nrCpus mask s) (hmax : nrCpus ≤ maxCpus) {op : Op w}
    (hop : op.Valid nrCpus) :
    Refines nrCpus (op.exec mask).1 (op.apply s).1 ∧ (op.exec mask).2 = (op.apply s).2 := by
  cases op with
  | setCpu cpu => exact ⟨h.insert hop, rfl⟩
  | clearCpu cpu => exact ⟨h.erase, rfl⟩
  | testAndSetCpu cpu => exact ⟨h.insert hop, congrArg some (h.test_lt hop)⟩
  | testAndClearCpu cpu => exact ⟨h.erase, congrArg some (h.test_lt hop)⟩
  | behind word x => exact ⟨h.behind hmax hop x, rfl⟩

theorem Refines.run (hmax : nrCpus ≤ maxCpus) : ∀ (ops : List (Op w)) {mask : CpuMask w}
    {s : Finset ℕ}, Refines nrCpus mask s → (∀ op ∈ ops, op.Valid nrCpus) →
    Refines nrCpus (CpuMask.run ops mask).1 (runSet ops s).1 ∧
      (CpuMask.run ops mask).2 = (runSet ops s).2
  | [], _, _, h, _ => ⟨h, rfl⟩
  | op :: ops, mask, s, h, hops => by
    obtain ⟨hstep, hret⟩ := h.exec hmax (hops op List.mem_cons_self)
    obtain ⟨hrun, hrets⟩ := Refines.run hmax ops hstep fun op' hop =>
      hops op' (List.mem_cons_of_mem _ hop)
    exact ⟨hrun, congrArg₂ List.cons hret hrets⟩

/-! ### What is read of the mask -/

/-- A word that is looked at. -/
theorem forall_wordStarts {p : ℕ → Prop} :
    (∀ i ∈ wordStarts w nrCpus, p i) ↔ ∀ k < usedWords w nrCpus, p (k * w) := by
  simp [wordStarts]

theorem bitWord_mul (k : ℕ) : bitWord w (k * w) = k :=
  Nat.mul_div_cancel k (NeZero.pos w)

theorem Refines.getLsbD (h : Refines nrCpus mask s) {k i : ℕ} (hk : k < usedWords w nrCpus)
    (hi : i < w) : (mask.bits k).getLsbD i = decide (k * w + i ∈ s) := by
  rw [← testCpu_word hi]
  refine h.test _ ?_
  rwa [mul_comm, Nat.mul_add_div (NeZero.pos w), Nat.div_eq_of_lt hi, add_zero]

theorem Refines.empty_eq (h : Refines nrCpus mask s) (hmax : nrCpus ≤ maxCpus) :
    mask.empty nrCpus = decide (s = ∅) := by
  rw [Bool.eq_iff_iff, decide_eq_true_iff, empty, List.all_eq_true, forall_wordStarts]
  constructor
  · intro hall
    refine Finset.eq_empty_of_forall_notMem fun cpu hcpu => ?_
    have hlt := h.lt cpu hcpu
    have hword := word_lt_usedWords (w := w) hlt
    have hzero : mask.bits (cpu / w) = 0 := by
      have hstart := (lt_usedWords_iff.1 hword).trans_le hmax
      simpa [bitWord_mul, hstart] using hall _ hword
    have htest := h.test_lt hlt
    rw [testCpu_eq, hzero] at htest
    simp [hcpu] at htest
  · rintro rfl k hk
    have hzero : mask.bits k = 0 := by
      refine BitVec.eq_of_getLsbD_eq fun i hi => ?_
      rw [h.getLsbD hk hi]
      simp
    simp [bitWord_mul, hzero]

/-- The last word is full if it is all ones, or cut at `nr_cpus`. -/
theorem Refines.full_eq (h : Refines nrCpus mask s) :
    mask.full nrCpus = decide (s = Finset.range nrCpus) := by
  rw [Bool.eq_iff_iff, decide_eq_true_iff, full, List.all_eq_true, forall_wordStarts]
  constructor
  · intro hall
    refine Finset.Subset.antisymm (fun cpu hcpu => Finset.mem_range.2 (h.lt cpu hcpu)) ?_
    intro cpu hcpu
    have hlt := Finset.mem_range.1 hcpu
    have hword := word_lt_usedWords (w := w) hlt
    have hmod := Nat.mod_lt cpu (NeZero.pos w)
    have hsplit := Nat.div_add_mod' cpu w
    have hbit : (mask.bits (cpu / w)).getLsbD (cpu % w) = true := by
      have hfull := hall _ hword
      simp only [bitWord_mul, Bool.not_eq_true', Bool.and_eq_false_iff, bne_eq_false_iff_eq,
        Bool.or_eq_false_iff, decide_eq_false_iff_not] at hfull
      rcases hfull with hones | ⟨hlast, hcut⟩
      · rw [hones, BitVec.getLsbD_allOnes, decide_eq_true hmod]
      · rw [hcut, getLsbD_bitMask_sub_one (by omega), decide_eq_true_iff]
        omega
    rw [← testCpu_eq, h.test_lt hlt] at hbit
    exact of_decide_eq_true hbit
  · rintro rfl k hk
    have hlt := lt_usedWords_iff.1 hk
    simp only [bitWord_mul, Bool.not_eq_true', Bool.and_eq_false_iff, bne_eq_false_iff_eq,
      Bool.or_eq_false_iff, decide_eq_false_iff_not]
    by_cases hw : w ≤ nrCpus - k * w
    · refine Or.inl (BitVec.eq_of_getLsbD_eq fun i hi => ?_)
      rw [h.getLsbD hk hi, BitVec.getLsbD_allOnes, decide_eq_decide, Finset.mem_range]
      omega
    · refine Or.inr ⟨hw, BitVec.eq_of_getLsbD_eq fun i hi => ?_⟩
      rw [h.getLsbD hk hi, getLsbD_bitMask_sub_one (by omega), decide_eq_decide, Finset.mem_range]
      omega

theorem foldl_count (p : ℕ → Bool) (l : List ℕ) (n : ℕ) :
    l.foldl (fun n i => if p i then n + 1 else n) n = n + l.countP p := by
  induction l generalizing n with
  | nil => rfl
  | cons i l ih =>
    rw [List.foldl_cons, ih, List.countP_cons]
    split <;> omega

theorem Refines.eq_toFinset (h : Refines nrCpus mask s) :
    s = ((List.range nrCpus).filter mask.testCpu).toFinset := by
  ext cpu
  rw [List.mem_toFinset, List.mem_filter, List.mem_range]
  constructor
  · intro hcpu
    exact ⟨h.lt cpu hcpu, by rw [h.test_lt (h.lt cpu hcpu), decide_eq_true hcpu]⟩
  · rintro ⟨hlt, htest⟩
    rw [h.test_lt hlt] at htest
    exact of_decide_eq_true htest

theorem Refines.weight_eq (h : Refines nrCpus mask s) : mask.weight nrCpus = s.card := by
  rw [weight, foldl_count, zero_add, List.countP_eq_length_filter, h.eq_toFinset,
    List.toFinset_card_of_nodup (List.nodup_range.filter _)]

/-- The CPUs are visited in ascending order, each one behind `cpu` whose bit is set. -/
theorem forEachFrom_spec (nrCpus : ℕ) (mask : CpuMask w) (cpu : ℤ) (hcpu : -1 ≤ cpu) :
    (mask.forEachFrom nrCpus cpu).Pairwise (· < ·) ∧
      ∀ i, i ∈ mask.forEachFrom nrCpus cpu ↔ cpu < i ∧ i < nrCpus ∧ mask.testCpu i := by
  rw [forEachFrom]
  split
  case isTrue h =>
    have hlt := lt_next h
    obtain ⟨-, -, hskip, htest⟩ := next_spec nrCpus mask cpu (by omega)
    obtain ⟨hsorted, hmem⟩ := forEachFrom_spec nrCpus mask (mask.next nrCpus cpu) (by omega)
    refine ⟨List.pairwise_cons.2 ⟨fun i hi => ?_, hsorted⟩, fun i => ?_⟩
    · have := ((hmem i).1 hi).1
      omega
    · rw [List.mem_cons, hmem]
      constructor
      · rintro (rfl | ⟨hi, hnr, hset⟩)
        · exact ⟨by omega, by omega, htest h⟩
        · exact ⟨by omega, hnr, hset⟩
      · rintro ⟨hi, hnr, hset⟩
        rcases lt_trichotomy (i : ℤ) (mask.next nrCpus cpu) with hbefore | heq | hafter
        · have := hskip i hi hbefore
          simp [hset] at this
        · exact Or.inl (by omega)
        · exact Or.inr ⟨hafter, hnr, hset⟩
  case isFalse h =>
    refine ⟨List.Pairwise.nil, fun i => ⟨fun hi => by simp at hi, ?_⟩⟩
    rintro ⟨hi, hnr, hset⟩
    obtain ⟨-, -, hskip, -⟩ := next_spec nrCpus mask cpu (by omega)
    have := hskip i hi (by omega)
    simp [hset] at this
termination_by (nrCpus - cpu).toNat

theorem Refines.forEach_eq (h : Refines nrCpus mask s) : mask.forEach nrCpus = s.sort := by
  obtain ⟨hsorted, hmem⟩ := forEachFrom_spec nrCpus mask (-1) le_rfl
  have hset : s = (mask.forEach nrCpus).toFinset := by
    ext cpu
    rw [h.eq_toFinset, List.mem_toFinset, List.mem_toFinset, List.mem_filter, List.mem_range,
      forEach, hmem]
    constructor
    · rintro ⟨hlt, htest⟩
      exact ⟨by omega, hlt, htest⟩
    · rintro ⟨-, hlt, htest⟩
      exact ⟨hlt, htest⟩
  rw [hset]
  exact ((List.toFinset_sort (· ≤ ·) (hsorted.imp fun h => h.ne)).2
    (hsorted.imp fun h => h.le)).symm

end Refines

/-- How a mask is set up. -/
inductive Start
  | clear
  | setall

/-- The mask that is set up. -/
def Start.mask (nrCpus : ℕ) (mask : CpuMask w) : Start → CpuMask w
  | .clear => mask.clear nrCpus
  | .setall => mask.setall nrCpus

/-- The set that it stands for. -/
def Start.cpus (nrCpus : ℕ) : Start → Finset ℕ
  | .clear => ∅
  | .setall => Finset.range nrCpus

/-- What is read of a mask is what the set of its CPUs says, after any operations and whatever
the memory behind the array holds. -/
theorem run_agrees [NeZero w] {nrCpus : ℕ} (hpos : 0 < nrCpus) (hmax : nrCpus ≤ maxCpus)
    (mask : CpuMask w) (start : Start) {ops : List (Op w)} (hops : ∀ op ∈ ops, op.Valid nrCpus) :
    let r := run ops (start.mask nrCpus mask)
    let s := runSet ops (start.cpus nrCpus)
    r.2 = s.2 ∧ r.1.empty nrCpus = decide (s.1 = ∅) ∧
      r.1.full nrCpus = decide (s.1 = Finset.range nrCpus) ∧ r.1.weight nrCpus = s.1.card ∧
      r.1.forEach nrCpus = s.1.sort ∧ ∀ cpu < nrCpus, r.1.testCpu cpu = decide (cpu ∈ s.1) := by
  have hstart : Refines nrCpus (start.mask nrCpus mask) (start.cpus nrCpus) := by
    cases start with
    | clear => exact refines_clear mask
    | setall => exact refines_setall hpos mask
  obtain ⟨h, hret⟩ := Refines.run hmax ops hstart hops
  exact ⟨hret, h.empty_eq hmax, h.full_eq, h.weight_eq, h.forEach_eq, fun cpu => h.test_lt⟩

theorem run_agrees_all_cpus :
    let ops : List (Op 64) := [.testAndClearCpu 511, .behind 8 (-1), .setCpu 3]
    let r := run ops (Start.setall.mask 512 ⟨fun _ => -1⟩)
    let s := runSet ops (Start.setall.cpus 512)
    r.2 = s.2 ∧ r.1.empty 512 = decide (s.1 = ∅) ∧
      r.1.full 512 = decide (s.1 = Finset.range 512) ∧ r.1.weight 512 = s.1.card ∧
      r.1.forEach 512 = s.1.sort ∧ ∀ cpu < 512, r.1.testCpu cpu = decide (cpu ∈ s.1) :=
  @run_agrees 64 _ 512 (by norm_num) le_rfl _ .setall _ (by
    rintro op (_ | ⟨_, _ | ⟨_, _ | ⟨_, ⟨⟩⟩⟩⟩)
    · exact Nat.lt_succ_self 511
    · exact le_rfl
    · exact (by norm_num : 3 < 512))

end CpuMask

end AcrnUt
