import Mathlib.Data.List.Nodup
import Mathlib.Tactic

/-!
# Words and pages

The word and page size of a build (`asm/page.h`), and the arithmetic of pages in a
`w`-bit address space : `pageAt start j` is the `j`-th page from `start`, `pageRun
start n` the first `n` of them, `pageOf a` the page a byte address lies in. Pages less
than an address space apart are different (`pageAt_inj`), so a run that fits the address
space repeats no page (`pageRun_nodup`).

`and_sub_one_eq_zero_iff` reads the alignment masks of the source : the mask below
`1 << k` tests divisibility by `2^k`, also when the shift drops the bit. `align` is the
`ALIGN` of `libcflat.h`.
-/

namespace AcrnUt

/-- Word size and page size of a build (`asm/page.h`). -/
class PageGeom (w : ℕ) where
  /-- `PAGE_SHIFT`. -/
  pageShift : ℕ
  pageShift_lt : pageShift < w

export PageGeom (pageShift pageShift_lt)

/-- x86_64, and the 64-bit builds on `asm-generic/page.h`. -/
instance pageGeom64 : PageGeom 64 where
  pageShift := 12
  pageShift_lt := by decide

/-- i386 and arm. -/
instance pageGeom32 : PageGeom 32 where
  pageShift := 12
  pageShift_lt := by decide

variable {w : ℕ}

theorem toNat_one_shiftLeft {k : ℕ} (hk : k < w) : (1#w <<< k).toNat = 2 ^ k := by
  have h : 2 ^ k < 2 ^ w := Nat.pow_lt_pow_right (by decide) hk
  simp [BitVec.toNat_shiftLeft, Nat.shiftLeft_eq, Nat.mod_eq_of_lt h, Nat.zero_lt_of_lt hk,
    Nat.one_mod_two_pow]

theorem toNat_one_shiftLeft_sub_one {k : ℕ} (hk : k < w) : ((1#w <<< k) - 1).toNat = 2 ^ k - 1 := by
  have hone : (1 : BitVec w).toNat = 1 := by
    simp [Nat.zero_lt_of_lt hk, Nat.one_mod_two_pow]
  have := Nat.two_pow_pos k
  rw [BitVec.toNat_sub_of_le, toNat_one_shiftLeft hk, hone]
  rw [BitVec.le_def, toNat_one_shiftLeft hk, hone]
  omega

/-- The mask below `1 << k` tests divisibility by `2^k`. A shift by the word size or
more leaves the mask of all ones, which only `0` passes. -/
theorem and_sub_one_eq_zero_iff (x : BitVec w) (k : ℕ) :
    x &&& ((1#w <<< k) - 1) = 0 ↔ x.toNat % 2 ^ k = 0 := by
  rw [← BitVec.toNat_inj, BitVec.toNat_and]
  rcases Nat.lt_or_ge k w with hk | hk
  · rw [toNat_one_shiftLeft_sub_one hk, Nat.and_two_pow_sub_one_eq_mod]
    rfl
  · have hmask : (1#w <<< k) - 1 = BitVec.allOnes w := by
      rw [BitVec.shiftLeft_eq_zero hk, BitVec.zero_sub, ← BitVec.neg_one_eq_allOnes]
      rfl
    have hx : x.toNat < 2 ^ k := lt_of_lt_of_le x.isLt (Nat.pow_le_pow_right (by decide) hk)
    rw [hmask, ← BitVec.toNat_and, BitVec.and_allOnes, Nat.mod_eq_of_lt hx]
    rfl

/-- `ALIGN`. -/
def align (x a : BitVec w) : BitVec w :=
  (x + (a - 1)) &&& ~~~(a - 1)

/-- The bits below `2^k` are the rest of a division. -/
theorem toNat_and_mask (x : BitVec w) {k : ℕ} (hk : k < w) :
    (x &&& ((1#w <<< k) - 1)).toNat = x.toNat % 2 ^ k := by
  rw [BitVec.toNat_and, toNat_one_shiftLeft_sub_one hk, Nat.and_two_pow_sub_one_eq_mod]

/-- A word without the bits below `2^k` is rounded down. -/
theorem toNat_and_not_mask (x : BitVec w) {k : ℕ} (hk : k < w) :
    (x &&& ~~~((1#w <<< k) - 1)).toNat = x.toNat / 2 ^ k * 2 ^ k := by
  refine Nat.eq_of_testBit_eq fun i => ?_
  have hmask : ((1#w <<< k) - 1).getLsbD i = decide (i < k) := by
    rw [BitVec.getLsbD, toNat_one_shiftLeft_sub_one hk, Nat.testBit_two_pow_sub_one]
  have hand : (x &&& ~~~((1#w <<< k) - 1)).getLsbD i = (x.getLsbD i && decide (k ≤ i)) := by
    rw [BitVec.getLsbD_and, BitVec.getLsbD_not, hmask]
    have hle : (!decide (i < k)) = decide (k ≤ i) := by
      rw [← decide_not, decide_eq_decide, not_lt]
    by_cases hi : i < w
    · simp [hi, hle]
    · simp [BitVec.getLsbD_of_ge _ _ (not_lt.mp hi)]
  rw [Nat.testBit_mul_two_pow, Nat.testBit_div_two_pow, ← BitVec.getLsbD, ← BitVec.getLsbD, hand]
  by_cases hi : k ≤ i
  · simp [hi]
  · simp [hi]

/-- Rounding up, where the sum may come round. -/
theorem toNat_align_eq (x : BitVec w) {k : ℕ} (hk : k < w) :
    (align x (1#w <<< k)).toNat = (x.toNat + (2 ^ k - 1)) % 2 ^ w / 2 ^ k * 2 ^ k := by
  rw [align, toNat_and_not_mask _ hk, BitVec.toNat_add, toNat_one_shiftLeft_sub_one hk]

theorem toNat_align {x : BitVec w} {k : ℕ} (hk : k < w) (h : x.toNat + (2 ^ k - 1) < 2 ^ w) :
    (align x (1#w <<< k)).toNat = (x.toNat + (2 ^ k - 1)) / 2 ^ k * 2 ^ k := by
  rw [toNat_align_eq x hk, Nat.mod_eq_of_lt h]

theorem align_mod (x : BitVec w) {k : ℕ} (hk : k < w) :
    (align x (1#w <<< k)).toNat % 2 ^ k = 0 := by
  rw [align, toNat_and_not_mask _ hk, Nat.mul_mod_left]

variable [PageGeom w]

/-- `PAGE_SIZE`. -/
def pageSize : BitVec w :=
  1#w <<< pageShift w

theorem toNat_pageSize : (pageSize : BitVec w).toNat = 2 ^ pageShift w :=
  toNat_one_shiftLeft pageShift_lt

theorem ofNat_pageSize : BitVec.ofNat w (2 ^ pageShift w) = pageSize := by
  rw [← toNat_pageSize, BitVec.ofNat_toNat, BitVec.setWidth_eq]

/-- The `j`-th page from `start`. -/
def pageAt (start : BitVec w) (j : ℕ) : BitVec w :=
  start + BitVec.ofNat w (j * 2 ^ pageShift w)

/-- The first `n` pages from `start`, in ascending order. -/
def pageRun (start : BitVec w) (n : ℕ) : List (BitVec w) :=
  (List.range n).map (pageAt start)

@[simp] theorem pageAt_zero (start : BitVec w) : pageAt start 0 = start := by
  simp [pageAt]

theorem pageAt_add (start : BitVec w) (i j : ℕ) :
    pageAt (pageAt start i) j = pageAt start (i + j) := by
  simp only [pageAt, BitVec.add_assoc, ← BitVec.ofNat_add, ← Nat.add_mul]

theorem pageAt_one (start : BitVec w) : pageAt start 1 = start + pageSize := by
  rw [pageAt, one_mul, ofNat_pageSize]

theorem pageAt_succ (start : BitVec w) (j : ℕ) :
    pageAt start (j + 1) = pageAt start j + pageSize := by
  rw [← pageAt_add, pageAt_one]

/-- Pages less than an address space apart are different. -/
theorem pageAt_inj {start : BitVec w} {i j : ℕ} (hi : i * 2 ^ pageShift w < 2 ^ w)
    (hj : j * 2 ^ pageShift w < 2 ^ w) (h : pageAt start i = pageAt start j) : i = j := by
  have h' := congrArg BitVec.toNat ((BitVec.add_right_inj start).mp h)
  rw [BitVec.toNat_ofNat, BitVec.toNat_ofNat, Nat.mod_eq_of_lt hi, Nat.mod_eq_of_lt hj] at h'
  exact Nat.eq_of_mul_eq_mul_right (Nat.two_pow_pos _) h'

/-- A page below the top of the address space is at its natural offset. -/
theorem toNat_pageAt {start : BitVec w} {j : ℕ}
    (h : start.toNat + j * 2 ^ pageShift w < 2 ^ w) :
    (pageAt start j).toNat = start.toNat + j * 2 ^ pageShift w := by
  rw [pageAt, BitVec.toNat_add, BitVec.toNat_ofNat, Nat.add_mod_mod, Nat.mod_eq_of_lt h]

theorem mem_pageRun {start p : BitVec w} {n : ℕ} :
    p ∈ pageRun start n ↔ ∃ j < n, pageAt start j = p := by
  simp [pageRun]

@[simp] theorem pageRun_zero (start : BitVec w) : pageRun start 0 = [] :=
  rfl

theorem pageRun_succ (start : BitVec w) (n : ℕ) :
    pageRun start (n + 1) = pageRun start n ++ [pageAt start n] := by
  simp [pageRun, List.range_succ]

theorem pageRun_cons (start : BitVec w) (n : ℕ) :
    pageRun start (n + 1) = start :: pageRun (start + pageSize) n := by
  simp only [pageRun, List.range_succ_eq_map, List.map_cons, List.map_map, pageAt_zero]
  congr 1
  refine List.map_congr_left fun j _ => ?_
  rw [← pageAt_one, pageAt_add, Nat.add_comm]
  rfl

theorem pageRun_add (start : BitVec w) (n k : ℕ) :
    pageRun start (n + k) = pageRun start n ++ pageRun (pageAt start n) k := by
  rw [pageRun, pageRun, pageRun, List.range_add, List.map_append, List.map_map]
  congr 1
  exact List.map_congr_left fun i _ => (pageAt_add start n i).symm

theorem mem_pageRun_self (start : BitVec w) {n : ℕ} (hn : 0 < n) : start ∈ pageRun start n :=
  mem_pageRun.mpr ⟨0, hn, pageAt_zero start⟩

/-- A run that fits the address space repeats no page. -/
theorem pageRun_nodup {start : BitVec w} {n : ℕ} (hn : n * 2 ^ pageShift w ≤ 2 ^ w) :
    (pageRun start n).Nodup := by
  have hlt : ∀ k, k < n → k * 2 ^ pageShift w < 2 ^ w := fun k hk =>
    lt_of_lt_of_le (Nat.mul_lt_mul_of_pos_right hk (Nat.two_pow_pos _)) hn
  refine List.nodup_range.map_on fun i hi j hj h => ?_
  exact pageAt_inj (hlt i (List.mem_range.mp hi)) (hlt j (List.mem_range.mp hj)) h

/-! ## Aligned addresses, and the page of an address -/

/-- The address of a page. -/
def PageAligned (p : BitVec w) : Prop :=
  p.toNat % 2 ^ pageShift w = 0

/-- The byte address `a` lies in the page at `p`. -/
def InPage (a p : BitVec w) : Prop :=
  (a - p).toNat < 2 ^ pageShift w

instance (a p : BitVec w) : Decidable (InPage a p) :=
  inferInstanceAs (Decidable ((a - p).toNat < 2 ^ pageShift w))

theorem pageSize_dvd : 2 ^ pageShift w ∣ 2 ^ w :=
  Nat.pow_dvd_pow 2 (pageShift_lt (w := w)).le

theorem pageAligned_iff {p : BitVec w} : p % pageSize = 0 ↔ PageAligned p := by
  rw [PageAligned, ← BitVec.toNat_inj, BitVec.toNat_umod, toNat_pageSize]
  rfl

theorem PageAligned.pageAt {p : BitVec w} (h : PageAligned p) (j : ℕ) :
    PageAligned (pageAt p j) := by
  rw [PageAligned, AcrnUt.pageAt, BitVec.toNat_add, Nat.mod_mod_of_dvd _ pageSize_dvd, Nat.add_mod,
    BitVec.toNat_ofNat, Nat.mod_mod_of_dvd _ pageSize_dvd, Nat.mul_mod_left, h, Nat.add_zero,
    Nat.zero_mod]

theorem PageAligned.add_le {p : BitVec w} (h : PageAligned p) :
    p.toNat + 2 ^ pageShift w ≤ 2 ^ w := by
  obtain ⟨c, hc⟩ := Nat.dvd_of_mod_eq_zero h
  obtain ⟨d, hd⟩ := pageSize_dvd (w := w)
  have hlt : c < d := Nat.lt_of_mul_lt_mul_left (a := 2 ^ pageShift w)
    (by rw [← hc, ← hd]; exact p.isLt)
  rw [hc, hd, ← Nat.mul_succ]
  exact Nat.mul_le_mul_left _ hlt

/-- The page that the byte address `a` lies in. -/
def pageOf (a : BitVec w) : BitVec w :=
  BitVec.ofNat w (a.toNat / 2 ^ pageShift w * 2 ^ pageShift w)

theorem toNat_pageOf (a : BitVec w) :
    (pageOf a).toNat = a.toNat / 2 ^ pageShift w * 2 ^ pageShift w := by
  rw [pageOf, BitVec.toNat_ofNat]
  exact Nat.mod_eq_of_lt (lt_of_le_of_lt (Nat.div_mul_le_self _ _) a.isLt)

theorem pageAligned_pageOf (a : BitVec w) : PageAligned (pageOf a) := by
  rw [PageAligned, toNat_pageOf, Nat.mul_mod_left]

theorem pageOf_eq_self_iff {p : BitVec w} : pageOf p = p ↔ PageAligned p := by
  constructor
  · intro h
    rw [← h]
    exact pageAligned_pageOf p
  · intro h
    refine BitVec.eq_of_toNat_eq ?_
    rw [toNat_pageOf, Nat.div_mul_cancel (Nat.dvd_of_mod_eq_zero h)]

/-- A small offset stays in the page. -/
theorem PageAligned.pageOf_add {p : BitVec w} (h : PageAligned p) {k : ℕ}
    (hk : k < 2 ^ pageShift w) : pageOf (p + BitVec.ofNat w k) = p := by
  have hle := h.add_le
  refine BitVec.eq_of_toNat_eq ?_
  rw [toNat_pageOf, BitVec.toNat_add, BitVec.toNat_ofNat, Nat.add_mod_mod,
    Nat.mod_eq_of_lt (by omega)]
  obtain ⟨c, hc⟩ := Nat.dvd_of_mod_eq_zero h
  rw [hc, Nat.mul_add_div (Nat.two_pow_pos _), Nat.div_eq_of_lt hk, Nat.add_zero, Nat.mul_comm]

theorem inPage_iff {a p : BitVec w} (h : PageAligned p) : InPage a p ↔ pageOf a = p := by
  constructor
  · intro hap
    have hsum : a = p + BitVec.ofNat w (a - p).toNat := by
      rw [BitVec.ofNat_toNat, BitVec.setWidth_eq, BitVec.add_comm, BitVec.sub_add_cancel]
    rw [hsum]
    exact h.pageOf_add hap
  · rintro rfl
    have hle : (pageOf a).toNat ≤ a.toNat := by
      rw [toNat_pageOf]
      exact Nat.div_mul_le_self _ _
    rw [InPage, BitVec.toNat_sub_of_le hle, toNat_pageOf]
    have := Nat.mod_lt a.toNat (Nat.two_pow_pos (pageShift w))
    have := Nat.div_add_mod' a.toNat (2 ^ pageShift w)
    omega

omit [PageGeom w] in
/-- A multiple of `2^n` has its low `n` bits clear. -/
theorem toNat_mod_two_pow_eq_zero_iff {x : BitVec w} {n : ℕ} :
    x.toNat % 2 ^ n = 0 ↔ ∀ i < n, x.getLsbD i = false := by
  constructor
  · intro h i hi
    have hbit := congrArg (Nat.testBit · i) h
    simpa [Nat.testBit_mod_two_pow, hi, BitVec.getLsbD] using hbit
  · intro h
    refine Nat.eq_of_testBit_eq fun i => ?_
    rw [Nat.testBit_mod_two_pow, Nat.zero_testBit]
    by_cases hi : i < n
    · simpa [hi, BitVec.getLsbD] using h i hi
    · simp [hi]

omit [PageGeom w] in
/-- Two addresses in one block of `2^n` bytes, by the start of the block. -/
theorem shift_eq_iff {x y : BitVec w} {n : ℕ} (h : x.toNat % 2 ^ n = 0) :
    x >>> n = y >>> n ↔ x.toNat ≤ y.toNat ∧ y.toNat < x.toNat + 2 ^ n := by
  rw [← BitVec.toNat_inj, BitVec.toNat_ushiftRight, BitVec.toNat_ushiftRight,
    Nat.shiftRight_eq_div_pow, Nat.shiftRight_eq_div_pow]
  have hpos := Nat.two_pow_pos n
  have hstart := Nat.div_mul_cancel (Nat.dvd_of_mod_eq_zero h)
  have hle := Nat.le_div_iff_mul_le (x := x.toNat / 2 ^ n) (y := y.toNat) hpos
  have hlt := Nat.div_lt_iff_lt_mul (x := y.toNat) (y := x.toNat / 2 ^ n + 1) hpos
  rw [hstart] at hle
  rw [Nat.add_mul, Nat.one_mul, hstart] at hlt
  omega

omit [PageGeom w] in
/-- They have the same bits above the block. -/
theorem getLsbD_of_shift_eq {x y : BitVec w} {n i : ℕ} (h : x >>> n = y >>> n) (hi : n ≤ i) :
    x.getLsbD i = y.getLsbD i := by
  have hbit := congrArg (BitVec.getLsbD · (i - n)) h
  simpa only [BitVec.getLsbD_ushiftRight, Nat.add_sub_cancel' hi] using hbit

theorem pageAligned_of_getLsbD {p : BitVec w} (h : ∀ i < pageShift w, p.getLsbD i = false) :
    PageAligned p :=
  toNat_mod_two_pow_eq_zero_iff.mpr h

/-- A page lies in no other page. -/
theorem PageAligned.eq_of_inPage {p q : BitVec w} (hp : PageAligned p) (hq : PageAligned q)
    (h : InPage q p) : q = p := by
  rw [← pageOf_eq_self_iff.mpr hq, (inPage_iff hp).mp h]

/-- An address within a run of pages lies in one of them. -/
theorem pageOf_mem_pageRun {a start : BitVec w} {n : ℕ} (hstart : PageAligned start)
    (hle : start.toNat ≤ a.toNat) (hlt : a.toNat < start.toNat + n * 2 ^ pageShift w) :
    pageOf a ∈ pageRun start n := by
  obtain ⟨c, hc⟩ := Nat.dvd_of_mod_eq_zero hstart
  have hpos := Nat.two_pow_pos (pageShift w)
  have hj : (a.toNat - start.toNat) / 2 ^ pageShift w < n :=
    Nat.div_lt_of_lt_mul (by rw [Nat.mul_comm]; omega)
  refine mem_pageRun.mpr ⟨_, hj, BitVec.eq_of_toNat_eq ?_⟩
  have hdm := Nat.div_mul_le_self (a.toNat - start.toNat) (2 ^ pageShift w)
  have hdiv : a.toNat / 2 ^ pageShift w = c + (a.toNat - start.toNat) / 2 ^ pageShift w := by
    rw [← Nat.mul_add_div hpos, ← hc, Nat.add_sub_cancel' hle]
  rw [toNat_pageAt (by have := a.isLt; omega), toNat_pageOf, hdiv, Nat.add_mul, hc, Nat.mul_comm c]

end AcrnUt
