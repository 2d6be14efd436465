import AcrnUt.FieldSums
import AcrnUt.MemSlot

/-!
# The dirty log of a memory slot

`mem_slot::update_dirty_log` of `api/memmap.cc` adds up `hweight` over the words that the kernel
fills in, and `mem_slot::is_dirty` looks at the bit of one page. A word of the log is an
`unsigned long` of `w` bits, extended to the 64 bits of `hweight`. The sum is the number of the
pages of the slot that are dirty afterwards (`DirtySlot.updateDirtyLog_eq`).
-/

set_option linter.unusedSectionVars false

namespace AcrnUt

/-- `hweight` of `api/memmap.cc`. -/
def hweight (w : BitVec 64) : BitVec 32 :=
  let w := w - ((w >>> 1) &&& 0x5555555555555555#64)
  let w := (w &&& 0x3333333333333333#64) + ((w >>> 2) &&& 0x3333333333333333#64)
  let w := (w + (w >>> 4)) &&& 0x0f0f0f0f0f0f0f0f#64
  ((w * 0x0101010101010101#64) >>> 56).setWidth 32

/-- A `mem_slot` that logs dirty pages : what the log needs of it. The words of `_log` have `w`
bits. -/
structure DirtySlot (w : ℕ) where
  gpa : BitVec 64
  size : BitVec 64
  log : List (BitVec w)

namespace DirtySlot

variable {w : ℕ}

/-- The `int logsize` of `mem_slot::set_dirty_logging`. -/
def logsize (w : ℕ) (size : BitVec 64) : BitVec 32 :=
  (((size >>> 12) + BitVec.ofNat 64 w - 1#64) / BitVec.ofNat 64 w).setWidth 32

/-- `mem_slot::update_dirty_log`, for the bitmap that `get_dirty_log` fills in. -/
def updateDirtyLog (m : DirtySlot w) (bitmap : List (BitVec w)) : DirtySlot w × BitVec 32 :=
  let m := { m with log := bitmap }
  (m, m.log.foldl (fun prev elem => prev + hweight (elem.setWidth 64)) 0)

/-- `mem_slot::is_dirty`. Behind the log there is nothing to be read. -/
def isDirty (m : DirtySlot w) (gpa : BitVec 64) : Option Bool :=
  let pagenr := (gpa - m.gpa) >>> 12
  let wordnr := pagenr / BitVec.ofNat 64 w
  let bit : BitVec w := (1#64 <<< (pagenr % BitVec.ofNat 64 w)).setWidth w
  m.log[(wordnr.setWidth w).toNat]?.map fun word => word &&& bit != 0

/-- The number of whole pages of the slot. -/
def pages (m : DirtySlot w) : ℕ :=
  (m.size >>> 12).toNat

theorem logsize_eq (size : BitVec 64) : logsize 64 size = AcrnUt.logsize size := by
  have h : size >>> 12 + 64#64 - 1#64 = size >>> 12 + 63#64 := by
    rw [BitVec.sub_eq_add_neg, BitVec.add_assoc]
    rfl
  exact congrArg (fun y : BitVec 64 => (y / 64).setWidth 32) h

end DirtySlot

/-! ## The weight of a word -/

open Nat (ofDigits)

section Hweight

variable {x : BitVec 64} {l : List ℕ}

theorem lt_two_pow_of_le {c k : ℕ} (hd : ∀ d ∈ l, d ≤ c) (hc : c < 2 ^ k) :
    ∀ d ∈ l, d < 2 ^ k :=
  fun d h => lt_of_le_of_lt (hd d h) hc

/-- A word of fields that fit has no more bits than they have. -/
theorem ofDigits_lt_of_le {c k n : ℕ} (hk : 0 < k) (hd : ∀ d ∈ l, d ≤ c) (hc : c < 2 ^ k)
    (hlen : l.length = n) : ofDigits (2 ^ k) l < 2 ^ (k * n) := by
  have := Nat.ofDigits_lt_base_pow_length (Nat.one_lt_two_pow hk.ne') (lt_two_pow_of_le hd hc)
  rwa [hlen, ← pow_mul] at this

theorem toNat_sub_pairs (hx : x.toNat = ofDigits (2 ^ 1) l) (hd : ∀ d ∈ l, d ≤ 1)
    (hlen : l.length = 64) :
    (x - ((x >>> 1) &&& 0x5555555555555555#64)).toNat = ofDigits (2 ^ 2) (pairSums l) := by
  have hmask : (0x5555555555555555#64).toNat = altMask 1 32 := rfl
  have hle : (x >>> 1) &&& 0x5555555555555555#64 ≤ x := by
    rw [BitVec.le_def, BitVec.toNat_and, BitVec.toNat_ushiftRight]
    exact le_trans Nat.and_le_left (Nat.shiftRight_le _ _)
  rw [BitVec.toNat_sub_of_le hle, BitVec.toNat_and, BitVec.toNat_ushiftRight, hmask, hx]
  exact ofDigits_sub_pairSums (lt_two_pow_of_le hd (by norm_num)) hlen.le

theorem toNat_add_pairs (hx : x.toNat = ofDigits (2 ^ 2) l) (hd : ∀ d ∈ l, d ≤ 2)
    (hlen : l.length = 32) :
    ((x &&& 0x3333333333333333#64) + ((x >>> 2) &&& 0x3333333333333333#64)).toNat =
      ofDigits (2 ^ 4) (pairSums l) := by
  have hmask : (0x3333333333333333#64).toNat = altMask 2 16 := rfl
  have hsum := ofDigits_pairSums (k := 2) (n := 16) (lt_two_pow_of_le hd (by norm_num)) hlen.le
  have hlt := ofDigits_lt_of_le (k := 4) (n := 16) (by norm_num) (pairSums_le hd) (by norm_num)
    (by rw [length_pairSums, hlen])
  rw [BitVec.toNat_add, BitVec.toNat_and, BitVec.toNat_and, BitVec.toNat_ushiftRight, hmask, hx,
    hsum, Nat.mod_eq_of_lt hlt]

theorem toNat_and_pairs (hx : x.toNat = ofDigits (2 ^ 4) l) (hd : ∀ d ∈ l, d ≤ 4)
    (hlen : l.length = 16) :
    ((x + (x >>> 4)) &&& 0x0f0f0f0f0f0f0f0f#64).toNat = ofDigits (2 ^ 8) (pairSums l) := by
  have hmask : (0x0f0f0f0f0f0f0f0f#64).toNat = altMask 4 8 := rfl
  have hsum := ofDigits_add_land (n := 8) hd (k := 4) (by norm_num) hlen.le
  have hlt := ofDigits_lt_of_le (k := 4) (n := 16) (by norm_num) (adjacentSums_le hd) (by norm_num)
    (by rw [length_adjacentSums, hlen])
  have hadd : (x + x >>> 4).toNat = ofDigits (2 ^ 4) l + ofDigits (2 ^ 4) l >>> 4 := by
    rw [BitVec.toNat_add, BitVec.toNat_ushiftRight, hx]
    apply Nat.mod_eq_of_lt
    rwa [ofDigits_shiftRight (lt_two_pow_of_le hd (by norm_num)), ofDigits_add_tail]
  rw [BitVec.toNat_and, hadd, hmask, hsum]

theorem toNat_mul_ones (hx : x.toNat = ofDigits (2 ^ 8) l) (hsum : l.sum < 2 ^ 8)
    (hlen : l.length = 8) :
    ((x * 0x0101010101010101#64) >>> 56).toNat = l.sum := by
  have hones : (0x0101010101010101#64).toNat = onesWord (2 ^ 8) 8 := rfl
  have := ofDigits_mul_onesWord_div (by norm_num) hlen hsum
  rw [← pow_mul, ← pow_mul] at this
  rw [BitVec.toNat_ushiftRight, BitVec.toNat_mul, hones, hx, Nat.shiftRight_eq_div_pow]
  exact this

end Hweight

/-- `hweight` counts the bits that are set. -/
theorem hweight_eq (x : BitVec 64) :
    (hweight x).toNat = (List.range 64).countP x.getLsbD := by
  have hx : x.toNat = ofDigits (2 ^ 1) (bitFields x.toNat 64) := by
    rw [pow_one, ofDigits_bitFields, Nat.mod_eq_of_lt x.isLt]
  have hlen : (bitFields x.toNat 64).length = 64 := by
    rw [bitFields, List.length_map, List.length_range]
  have hd := bitFields_le x.toNat 64
  have hsum := sum_bitFields x.toNat 64
  have hcount : (List.range 64).countP x.toNat.testBit = (List.range 64).countP x.getLsbD := rfl
  have hle : (List.range 64).countP x.getLsbD ≤ 64 := by
    simpa using List.countP_le_length (p := x.getLsbD) (l := List.range 64)
  generalize bitFields x.toNat 64 = l at hx hlen hd hsum
  have h1 := toNat_sub_pairs hx hd hlen
  have h2 := toNat_add_pairs h1 (pairSums_le hd) (by rw [length_pairSums, hlen])
  have h3 := toNat_and_pairs h2 (pairSums_le (pairSums_le hd))
    (by rw [length_pairSums, length_pairSums, hlen])
  have hsums : (pairSums (pairSums (pairSums l))).sum = (List.range 64).countP x.getLsbD := by
    rw [sum_pairSums, sum_pairSums, sum_pairSums, hsum, hcount]
  have h4 := toNat_mul_ones h3 (by rw [hsums]; omega)
    (by rw [length_pairSums, length_pairSums, length_pairSums, hlen])
  simp only [hweight]
  rw [BitVec.toNat_setWidth, h4, hsums, Nat.mod_eq_of_lt (by omega)]

/-! ## The bits of the log -/

/-- Bit `p` of the words of a log. -/
def bitmapBit {w : ℕ} (bitmap : List (BitVec w)) (p : ℕ) : Bool :=
  match bitmap[p / w]? with
  | some word => word.getLsbD (p % w)
  | none => false

theorem countP_range_eq_of_false {P : ℕ → Bool} {a b : ℕ} (hab : a ≤ b)
    (h : ∀ p, a ≤ p → P p = false) : (List.range b).countP P = (List.range a).countP P := by
  obtain ⟨k, rfl⟩ := Nat.exists_eq_add_of_le hab
  rw [List.range_add, List.countP_append, List.countP_map]
  have hzero : (List.range k).countP (P ∘ fun i => a + i) = 0 := by
    rw [List.countP_eq_zero]
    intro i _
    rw [Function.comp_apply, h _ (Nat.le_add_right a i)]
    exact Bool.false_ne_true
  rw [hzero, Nat.add_zero]

section Bitmap

variable {w : ℕ}

theorem hweight_setWidth (hw : w ≤ 64) (word : BitVec w) :
    (hweight (word.setWidth 64)).toNat = (List.range w).countP word.getLsbD := by
  rw [hweight_eq, ← countP_range_eq_of_false hw fun p hp => BitVec.getLsbD_of_ge word p hp]
  refine List.countP_congr fun p hp => ?_
  rw [BitVec.getLsbD_setWidth, decide_eq_true (List.mem_range.mp hp), Bool.true_and]

theorem countP_bitmapBit_cons (hw : 0 < w) (word : BitVec w) (l : List (BitVec w)) :
    (List.range (w * (word :: l).length)).countP (bitmapBit (word :: l)) =
      (List.range w).countP word.getLsbD + (List.range (w * l.length)).countP (bitmapBit l) := by
  rw [List.length_cons, Nat.mul_succ, Nat.add_comm, List.range_add, List.countP_append,
    List.countP_map]
  congr 1
  · refine List.countP_congr fun p hp => ?_
    have hp := List.mem_range.mp hp
    rw [bitmapBit, Nat.div_eq_of_lt hp, Nat.mod_eq_of_lt hp]
    rfl
  · refine List.countP_congr fun p _ => ?_
    rw [Function.comp_apply, bitmapBit, Nat.add_div_left _ hw, Nat.add_mod_left]
    rfl

/-- The sum over the words, while it fits the accumulator. -/
theorem foldl_hweight (hw : 0 < w) (hw' : w ≤ 64) (log : List (BitVec w)) (acc : BitVec 32)
    (h : acc.toNat + (List.range (w * log.length)).countP (bitmapBit log) < 2 ^ 32) :
    (log.foldl (fun prev elem => prev + hweight (elem.setWidth 64)) acc).toNat =
      acc.toNat + (List.range (w * log.length)).countP (bitmapBit log) := by
  induction log generalizing acc with
  | nil => rfl
  | cons word l ih =>
    rw [countP_bitmapBit_cons hw] at h ⊢
    have hadd : (acc + hweight (word.setWidth 64)).toNat =
        acc.toNat + (List.range w).countP word.getLsbD := by
      rw [BitVec.toNat_add, hweight_setWidth hw', Nat.mod_eq_of_lt (by omega)]
    rw [List.foldl_cons, ih _ (by omega), hadd, Nat.add_assoc]

end Bitmap

namespace DirtySlot

variable {w : ℕ}

theorem bitsPerWord_toNat (hw : w = 32 ∨ w = 64) : (BitVec.ofNat 64 w).toNat = w := by
  rcases hw with rfl | rfl <;> rfl

theorem shiftLeft_setWidth (hw : w ≤ 64) {x : BitVec 64} (hx : x.toNat < w) :
    ((1#64 <<< x).setWidth w : BitVec w) = BitVec.twoPow w x.toNat := by
  apply BitVec.eq_of_toNat_eq
  have hw' : 2 ^ x.toNat < 2 ^ w := Nat.pow_lt_pow_right (by norm_num) hx
  have h64 : 2 ^ x.toNat < 2 ^ 64 := Nat.pow_lt_pow_right (by norm_num) (by omega)
  rw [BitVec.shiftLeft_eq', ← BitVec.twoPow_eq, BitVec.toNat_setWidth,
    BitVec.toNat_twoPow_of_lt (by omega), BitVec.toNat_twoPow_of_lt hx, Nat.mod_eq_of_lt hw']

theorem and_twoPow_ne_zero (word : BitVec w) {i : ℕ} (hi : i < w) :
    (word &&& BitVec.twoPow w i != 0) = word.getLsbD i := by
  have hne : BitVec.twoPow w i ≠ 0 := by
    intro h
    have := congrArg (BitVec.getLsbD · i) h
    simp [hi] at this
  rw [BitVec.and_twoPow]
  cases word.getLsbD i with
  | false => rfl
  | true => exact bne_iff_ne.mpr hne

/-- The query for any address of page `p`, with its own word and bit arithmetic. -/
theorem isDirty_eq (hw : w = 32 ∨ w = 64) (m : DirtySlot w) {p off : ℕ} (hp : p < 2 ^ 31)
    (hoff : off < 4096) (hlog : p / w < m.log.length) :
    m.isDirty (m.gpa + BitVec.ofNat 64 (4096 * p + off)) = some (bitmapBit m.log p) := by
  have hpagenr : ((m.gpa + BitVec.ofNat 64 (4096 * p + off) - m.gpa) >>> 12).toNat = p := by
    rw [BitVec.add_comm, BitVec.add_sub_cancel, BitVec.toNat_ushiftRight, BitVec.toNat_ofNat,
      Nat.shiftRight_eq_div_pow]
    omega
  have hwNat := bitsPerWord_toNat hw
  have hpw : p / w < 2 ^ w := by
    rcases hw with rfl | rfl <;> omega
  have hmod : p % w < w := Nat.mod_lt _ (by omega)
  simp only [isDirty]
  rw [shiftLeft_setWidth (by omega) (by rwa [BitVec.toNat_umod, hpagenr, hwNat]),
    BitVec.toNat_setWidth, BitVec.toNat_udiv, BitVec.toNat_umod, hpagenr, hwNat,
    Nat.mod_eq_of_lt hpw, List.getElem?_eq_getElem hlog, Option.map_some,
    and_twoPow_ne_zero _ hmod, bitmapBit, List.getElem?_eq_getElem hlog]

/-- The log has room for a bit of every page. -/
theorem pages_le_logsize (hw : w = 32 ∨ w = 64) (m : DirtySlot w) (hp : m.pages < 2 ^ 31) :
    m.pages ≤ w * (logsize w m.size).toNat := by
  have hsum : (m.size >>> 12 + BitVec.ofNat 64 w - 1#64).toNat = m.pages + w - 1 := by
    have hone : (1#64).toNat = 1 := rfl
    rw [BitVec.toNat_sub, BitVec.toNat_add, bitsPerWord_toNat hw, hone, ← pages]
    omega
  rw [logsize, BitVec.toNat_setWidth, BitVec.toNat_udiv, hsum, bitsPerWord_toNat hw]
  rcases hw with rfl | rfl <;> omega

/-- After `update_dirty_log`, `is_dirty` answers for every page of the slot with its bit of the
kernel's bitmap, at whatever address of the page it is asked, and `update_dirty_log` returns the
number of pages that it holds for. -/
theorem updateDirtyLog_eq (hw : w = 32 ∨ w = 64) (m : DirtySlot w) (hpages : m.pages < 2 ^ 31)
    (bitmap : List (BitVec w)) (hlen : bitmap.length = (logsize w m.size).toNat)
    (hbeyond : ∀ p, m.pages ≤ p → bitmapBit bitmap p = false)
    (off : ℕ → ℕ) (hoff : ∀ p, off p < 4096) :
    (∀ p < m.pages, (m.updateDirtyLog bitmap).1.isDirty
      (m.gpa + BitVec.ofNat 64 (4096 * p + off p)) = some (bitmapBit bitmap p)) ∧
    (m.updateDirtyLog bitmap).2.toInt =
      (List.range m.pages).countP fun p =>
        (m.updateDirtyLog bitmap).1.isDirty (m.gpa + BitVec.ofNat 64 (4096 * p + off p)) =
          some true := by
  have hroom := m.pages_le_logsize hw hpages
  rw [← hlen] at hroom
  have hdirty : ∀ p < m.pages, (m.updateDirtyLog bitmap).1.isDirty
      (m.gpa + BitVec.ofNat 64 (4096 * p + off p)) = some (bitmapBit bitmap p) := fun p hp =>
    (m.updateDirtyLog bitmap).1.isDirty_eq hw (by omega) (hoff p)
      (Nat.div_lt_of_lt_mul (lt_of_lt_of_le hp hroom))
  have hcount : (List.range (w * bitmap.length)).countP (bitmapBit bitmap) =
      (List.range m.pages).countP (bitmapBit bitmap) := countP_range_eq_of_false hroom hbeyond
  have hle : (List.range m.pages).countP (bitmapBit bitmap) ≤ m.pages := by
    simpa using List.countP_le_length (p := bitmapBit bitmap) (l := List.range m.pages)
  have hsum := foldl_hweight (by omega) (by omega) bitmap 0#32 (by
    rw [hcount, BitVec.toNat_zero]
    omega)
  rw [hcount, BitVec.toNat_zero, Nat.zero_add] at hsum
  have hquery : (List.range m.pages).countP (bitmapBit bitmap) =
      (List.range m.pages).countP fun p =>
        (m.updateDirtyLog bitmap).1.isDirty (m.gpa + BitVec.ofNat 64 (4096 * p + off p)) =
          some true := by
    refine List.countP_congr fun p hp => ?_
    rw [decide_eq_true_iff, hdirty p (List.mem_range.mp hp), Option.some_inj]
  refine ⟨hdirty, ?_⟩
  rw [← hquery, BitVec.toInt_eq_toNat_of_lt]
  · exact congrArg _ hsum
  · rw [updateDirtyLog]
    exact lt_of_eq_of_lt (congrArg _ hsum) (by omega)

/-- Five pages of a 32-bit host, three of them dirty. -/
def fivePages : DirtySlot 32 :=
  ⟨0x1000, 0x5000, [0]⟩

theorem bitmapBit_beyond {n : ℕ} {word : BitVec 32} (h : word.toNat < 2 ^ n) (p : ℕ) (hp : n ≤ p) :
    bitmapBit [word] p = false := by
  rw [bitmapBit]
  rcases Nat.lt_or_ge p 32 with hlt | hge
  · rw [Nat.div_eq_of_lt hlt, Nat.mod_eq_of_lt hlt]
    exact Nat.testBit_lt_two_pow (lt_of_lt_of_le h (Nat.pow_le_pow_right (by norm_num) hp))
  · rw [List.getElem?_eq_none (Nat.div_pos hge (by norm_num))]

theorem updateDirtyLog_fivePages :
    (fivePages.updateDirtyLog [0x16]).1.isDirty (fivePages.gpa + 0x4008) = some true ∧
    (fivePages.updateDirtyLog [0x16]).2.toInt =
      (List.range fivePages.pages).countP fun p =>
        (fivePages.updateDirtyLog [0x16]).1.isDirty
          (fivePages.gpa + BitVec.ofNat 64 (4096 * p + 8)) = some true := by
  obtain ⟨hdirty, hcount⟩ := fivePages.updateDirtyLog_eq (.inl rfl) (by decide) [0x16] rfl
    (bitmapBit_beyond (n := 5) (by decide)) (fun _ => 8) (fun _ => by norm_num)
  exact ⟨hdirty 4 (by decide), hcount⟩

example : (fivePages.updateDirtyLog [0x16]).2 = 3 := by decide

end DirtySlot

end AcrnUt
