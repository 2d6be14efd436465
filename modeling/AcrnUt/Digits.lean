import Mathlib.Data.Nat.Digits.Lemmas
import Mathlib.Data.BitVec
import Mathlib.Tactic

/-!
# Digit buffers

`print_int` and `print_unsigned` of `lib/printf.c` write the digits of a number into a local buffer,
low digit first, then the sign or the prefix, turn the buffer round and end it with a NUL. Its size
is a formula in `sizeof(long)`, of a build with longs of `w` bits, and the number always has 64
bits. A store outside the buffer, or a digit that is not in the table, is `none`.

The digits are those of `Nat.digits` (`digitLoop_eq`), so what fits is a bound on the number
(`printBufs_iff`). On a build with 8-byte longs all numbers fit; with 4-byte longs large ones do
not, and on both the negation of the smallest number is negative, which has no digits.
-/

set_option linter.unusedSectionVars false

namespace AcrnUt

/-! ## The source -/

/-- `digits`. -/
def digitTable : List (BitVec 8) :=
  [0x30, 0x31, 0x32, 0x33, 0x34, 0x35, 0x36, 0x37, 0x38, 0x39, 0x61, 0x62, 0x63, 0x64, 0x65, 0x66]

/-- `digits[i]`. -/
def digitAt (i : ℤ) : Option (BitVec 8) :=
  if 0 ≤ i then digitTable[i.toNat]? else none

/-- `*p++ = c`, in a buffer of `cap` bytes that is filled up to `p`. -/
def pushChar (cap : ℕ) (p : List (BitVec 8)) (c : BitVec 8) : Option (List (BitVec 8)) :=
  if p.length < cap then some (p ++ [c]) else none

/-- The loop over the digits of a number. -/
def digitLoop (cap base : ℕ) : ℕ → ℤ → List (BitVec 8) → Option (List (BitVec 8))
  | 0, _, _ => none
  | fuel + 1, n, p =>
    if n = 0 then some p
    else do
      let c ← digitAt (n.tmod base)
      let p ← pushChar cap p c
      digitLoop cap base fuel (n.tdiv base) p

/-- A turn of the loop that reverses a buffer filled up to `p`. -/
def swapEnds (p : ℕ) (buf : List (BitVec 8)) (i : ℕ) : List (BitVec 8) :=
  let tmp := buf.getD i 0
  let buf := buf.set i (buf.getD (p - 1 - i) 0)
  buf.set (p - 1 - i) tmp

/-- The loop that reverses the buffer. -/
def reverseLoop (buf : List (BitVec 8)) : List (BitVec 8) :=
  (List.range (buf.length / 2)).foldl (swapEnds buf.length) buf

/-- `strprops_t`. -/
@[ext] structure StrProps where
  pad : BitVec 8
  npad : BitVec 32
  alternate : Bool

/-- The local buffer of `print_int`, up to the NUL. -/
def printIntBuf (w : ℕ) (n : BitVec 64) (base : ℕ) : Option (List (BitVec 8)) := do
  let cap := w / 8 * 3 + 2
  let s : Bool := n.toInt < 0
  let n := if s then -n else n
  let p ← digitLoop cap base 65 n.toInt []
  let p ← if s then pushChar cap p 0x2d else some p
  let p ← if p.length = 0 then pushChar cap p 0x30 else some p
  let buf := reverseLoop p
  let _ ← pushChar cap buf 0
  return buf

/-- The local buffer of `print_unsigned`, up to the NUL. -/
def printUnsignedBuf (w : ℕ) (n : BitVec 64) (base : ℕ) (props : StrProps) :
    Option (List (BitVec 8)) := do
  let cap := w / 8 * 3 + 3
  let p ← digitLoop cap base 65 n.toNat []
  let p ←
    if p.length = 0 then pushChar cap p 0x30
    else if props.alternate ∧ base = 16 then
      if props.pad = 0x30 then some p
      else do
        let p ← pushChar cap p 0x78
        pushChar cap p 0x30
    else some p
  let buf := reverseLoop p
  let _ ← pushChar cap buf 0
  return buf

/-! ## Digits -/

/-- The character of a digit. -/
def digitChar (d : ℕ) : BitVec 8 :=
  digitTable.getD d 0

/-- The characters of a number, low digit first. -/
def digitChars (base n : ℕ) : List (BitVec 8) :=
  (Nat.digits base n).map digitChar

section Digits

variable {cap base n fuel : ℕ} {p : List (BitVec 8)} {c : BitVec 8}

theorem digitAt_natCast {d : ℕ} (hd : d < 16) : digitAt d = some (digitChar d) := by
  have hlen : d < digitTable.length := hd
  unfold digitAt digitChar
  rw [if_pos (Int.natCast_nonneg d), Int.toNat_natCast, List.getD_eq_getElem?_getD,
    List.getElem?_eq_getElem hlen, Option.getD_some]

theorem digitAt_of_neg {i : ℤ} (hi : i < 0) : digitAt i = none :=
  if_neg (not_le.mpr hi)

theorem pushChar_eq (h : p.length < cap) : pushChar cap p c = some (p ++ [c]) :=
  if_pos h

theorem pushChar_eq_none (h : cap ≤ p.length) : pushChar cap p c = none :=
  if_neg (not_lt.mpr h)

/-- The loop stores the digits of a number if the buffer has room for them. -/
theorem digitLoop_eq (hbase : 1 < base ∧ base ≤ 16) (hfuel : n < base ^ fuel)
    (hp : p.length ≤ cap) :
    digitLoop cap base (fuel + 1) n p =
      if p.length + (digitChars base n).length ≤ cap then some (p ++ digitChars base n)
      else none := by
  induction fuel generalizing n p with
  | zero =>
    obtain rfl : n = 0 := by simpa using hfuel
    simp [digitLoop, digitChars, hp]
  | succ fuel ih =>
    rcases Nat.eq_zero_or_pos n with rfl | hn
    · simp [digitLoop, digitChars, hp]
    have hne : (n : ℤ) ≠ 0 := by exact_mod_cast hn.ne'
    have hdigits : digitChars base n = digitChar (n % base) :: digitChars base (n / base) := by
      unfold digitChars
      rw [Nat.digits_def' hbase.1 hn, List.map_cons]
    have hdiv : n / base < base ^ fuel := Nat.div_lt_of_lt_mul (by rwa [← pow_succ'])
    unfold digitLoop
    rw [if_neg hne, ← Int.ofNat_tmod, ← Int.ofNat_tdiv,
      digitAt_natCast ((Nat.mod_lt n (by omega)).trans_le hbase.2), hdigits, List.length_cons]
    simp only [Option.bind_eq_bind, Option.bind_some]
    rcases Nat.lt_or_ge p.length cap with hlt | hge
    · rw [pushChar_eq hlt, Option.bind_some, ih hdiv (by simpa using hlt), List.length_append,
        List.length_singleton, List.append_assoc, List.singleton_append]
      split_ifs <;> first | rfl | omega
    · rw [pushChar_eq_none hge, if_neg (by omega)]
      rfl

/-- A negative number has no digits. -/
theorem digitLoop_of_neg {n : ℤ} (hbase : 0 < base) (hn : n < 0) :
    digitLoop cap base fuel n p = none := by
  induction fuel generalizing n p with
  | zero => rfl
  | succ fuel ih =>
    obtain ⟨k, rfl⟩ : ∃ k : ℕ, n = -k := ⟨n.natAbs, by omega⟩
    have hmod : ((-k : ℤ)).tmod base = -((k % base : ℕ) : ℤ) := by
      rw [Int.neg_tmod, Int.ofNat_tmod]
    have hdiv : ((-k : ℤ)).tdiv base = -((k / base : ℕ) : ℤ) := by
      rw [Int.neg_tdiv, Int.ofNat_tdiv]
    unfold digitLoop
    rw [if_neg hn.ne, hmod, hdiv]
    rcases Nat.eq_zero_or_pos (k % base) with hzero | hpos
    · -- the low digit is zero, and what is left is still negative
      have hleft : 0 < k / base := by
        refine Nat.div_pos ?_ hbase
        by_contra hlt
        rw [Nat.mod_eq_of_lt (not_le.mp hlt)] at hzero
        omega
      have hrest : ∀ p, digitLoop cap base fuel (-((k / base : ℕ) : ℤ)) p = none := fun p =>
        ih (by omega)
      simp only [hrest, Option.bind_eq_bind, Option.bind_fun_none]
    · rw [digitAt_of_neg (by omega)]
      rfl

end Digits

/-! ## The reversal -/

theorem length_swapEnds (n : ℕ) (p : List (BitVec 8)) (i : ℕ) :
    (swapEnds n p i).length = p.length := by
  simp [swapEnds]

theorem length_foldl_swapEnds (n : ℕ) (p : List (BitVec 8)) (l : List ℕ) :
    (l.foldl (swapEnds n) p).length = p.length := by
  induction l generalizing p with
  | nil => rfl
  | cons i l ih => rw [List.foldl_cons, ih, length_swapEnds]

/-- A turn changes two places. -/
theorem swapEnds_getElem? {p : List (BitVec 8)} {n i : ℕ} (hi : i < p.length)
    (hn : n - 1 - i < p.length) (j : ℕ) :
    (swapEnds n p i)[j]? =
      if j = n - 1 - i then p[i]? else if j = i then p[n - 1 - i]? else p[j]? := by
  have hget : ∀ m < p.length, some (p.getD m 0) = p[m]? := fun m hm => by
    rw [List.getD_eq_getElem?_getD, List.getElem?_eq_getElem hm, Option.getD_some]
  unfold swapEnds
  simp only
  rw [List.getElem?_set, List.getElem?_set, List.length_set, hget i hi, hget _ hn]
  by_cases hj : n - 1 - i = j
  · rw [if_pos hj, if_pos hn, if_pos hj.symm]
  rw [if_neg hj, if_neg (Ne.symm hj)]
  by_cases hij : i = j
  · rw [if_pos hij, if_pos hi, if_pos hij.symm]
  · rw [if_neg hij, if_neg (Ne.symm hij)]

/-- After `k` turns, the first `k` characters and the last `k` have changed places. -/
theorem foldl_swapEnds_getElem? {p : List (BitVec 8)} {k : ℕ} (hk : k ≤ p.length / 2) (j : ℕ) :
    ((List.range k).foldl (swapEnds p.length) p)[j]? =
      if j < p.length ∧ (j < k ∨ p.length - 1 - j < k) then p[p.length - 1 - j]? else p[j]? := by
  induction k generalizing j with
  | zero => simp
  | succ k ih =>
    have hlen := length_foldl_swapEnds p.length p (List.range k)
    have hfirst := ih (by omega) k
    have hlast := ih (by omega) (p.length - 1 - k)
    rw [if_neg (by omega)] at hfirst hlast
    rw [List.range_succ, List.foldl_concat, swapEnds_getElem? (by rw [hlen]; omega)
      (by rw [hlen]; omega), hfirst, hlast, ih (by omega) j]
    by_cases hj : j = p.length - 1 - k
    · rw [if_pos hj, if_pos (by omega), show p.length - 1 - j = k by omega]
    rw [if_neg hj]
    by_cases hjk : j = k
    · rw [if_pos hjk, if_pos (by omega), hjk]
    · rw [if_neg hjk]
      refine if_congr ?_ rfl rfl
      omega

theorem reverseLoop_eq (p : List (BitVec 8)) : reverseLoop p = p.reverse := by
  refine List.ext_getElem? fun j => ?_
  unfold reverseLoop
  rw [foldl_swapEnds_getElem? le_rfl]
  by_cases hj : j < p.length
  · rw [List.getElem?_reverse hj]
    split_ifs with h
    · rfl
    · congr 1
      omega
  · rw [if_neg fun h => hj h.1, List.getElem?_eq_none (not_lt.mp hj),
      List.getElem?_eq_none (by simpa using hj)]

/-! ## What the buffers hold -/

/-- The numeral of a number. -/
def numeral (base n : ℕ) : List (BitVec 8) :=
  if n = 0 then [0x30] else (digitChars base n).reverse

/-- The sign of `print_int`. -/
def signChars (n : BitVec 64) : List (BitVec 8) :=
  if n.toInt < 0 then [0x2d] else []

/-- The prefix that `print_unsigned` stores in its buffer. -/
def hexPrefix (n : BitVec 64) (base : ℕ) (props : StrProps) : List (BitVec 8) :=
  if n ≠ 0 ∧ props.alternate ∧ base = 16 ∧ props.pad ≠ 0x30 then [0x30, 0x78] else []

section Buffers

variable {w base : ℕ} {n : BitVec 64} {props : StrProps}

theorem length_numeral {k : ℕ} (hbase : 1 < base) (hk : 0 < k) (n : ℕ) :
    (numeral base n).length ≤ k ↔ n < base ^ k := by
  unfold numeral
  split_ifs with hn
  · subst hn
    simp only [List.length_singleton]
    exact ⟨fun _ => by positivity, fun _ => hk⟩
  · rw [List.length_reverse, digitChars, List.length_map, Nat.digits_length_le_iff hbase]

theorem digitChars_length_pos {n : ℕ} (hn : n ≠ 0) : 0 < (digitChars base n).length := by
  unfold digitChars
  rw [List.length_map, List.length_pos_iff]
  exact Nat.digits_ne_nil_iff_ne_zero.mpr hn

/-- A 64-bit number runs out before the fuel of the loop. -/
theorem digitLoop_natCast (hbase : 1 < base ∧ base ≤ 16) {n : ℕ} (hn : n < 2 ^ 64) (cap : ℕ) :
    digitLoop cap base 65 n [] =
      if (digitChars base n).length ≤ cap then some (digitChars base n) else none := by
  have hfuel : n < base ^ 64 := hn.trans_le (Nat.pow_le_pow_left hbase.1 64)
  rw [digitLoop_eq hbase hfuel (Nat.zero_le cap), List.length_nil, Nat.zero_add, List.nil_append]

/-- The buffer is turned round, and the NUL needs a byte too. -/
theorem reverseLoop_bind (cap : ℕ) (p : List (BitVec 8)) :
    ((pushChar cap (reverseLoop p) 0).bind fun _ => some (reverseLoop p)) =
      if p.length < cap then some p.reverse else none := by
  unfold pushChar
  rw [reverseLoop_eq, List.length_reverse]
  split_ifs <;> rfl

/-- A store between the digits and the reversal. -/
theorem pushChar_bind_reverseLoop (cap : ℕ) (p : List (BitVec 8)) (c : BitVec 8) :
    ((pushChar cap p c).bind fun p =>
        (pushChar cap (reverseLoop p) 0).bind fun _ => some (reverseLoop p)) =
      if p.length + 1 < cap then some (c :: p.reverse) else none := by
  rcases Nat.lt_or_ge p.length cap with hlt | hge
  · rw [pushChar_eq hlt, Option.bind_some, reverseLoop_bind, List.length_append,
      List.length_singleton, List.reverse_append, List.reverse_singleton, List.singleton_append]
  · rw [pushChar_eq_none hge, if_neg (by omega), Option.bind_none]

/-- The smallest number has no digits, for its negation is negative. -/
theorem printIntBuf_intMin (hbase : 0 < base) : printIntBuf w (BitVec.intMin 64) base = none := by
  have hneg : (-BitVec.intMin 64).toInt < 0 := by decide
  have hsign : (BitVec.intMin 64).toInt < 0 := by decide
  unfold printIntBuf
  simp only [decide_eq_true_eq, hsign, if_true, digitLoop_of_neg hbase hneg]
  rfl

/-- All numbers but the smallest are printed as sign and numeral, if these and the NUL fit. -/
theorem printIntBuf_eq (hbase : 1 < base ∧ base ≤ 16) (hn : n ≠ BitVec.intMin 64) :
    printIntBuf w n base =
      if (signChars n ++ numeral base n.toInt.natAbs).length < w / 8 * 3 + 2
      then some (signChars n ++ numeral base n.toInt.natAbs) else none := by
  have habs : (if n.toInt < 0 then -n else n).toInt = (n.toInt.natAbs : ℤ) := by
    split_ifs with hneg
    · rw [BitVec.toInt_neg_of_ne_intMin hn]
      omega
    · omega
  have hbound : n.toInt.natAbs < 2 ^ 64 := by
    have := n.isLt
    have := BitVec.toInt_eq_toNat_cond n
    split_ifs at this <;> omega
  have hloop := digitLoop_natCast hbase hbound (w / 8 * 3 + 2)
  unfold printIntBuf
  simp only [decide_eq_true_eq, habs, hloop, Option.bind_eq_bind, Option.pure_def]
  by_cases hzero : n.toInt.natAbs = 0
  · have hsign : ¬n.toInt < 0 := by omega
    simp only [hzero, hsign, numeral, signChars, digitChars, Nat.digits_zero, List.map_nil,
      List.length_nil, Nat.zero_le, if_true, if_false, Option.bind_some, List.nil_append]
    rw [pushChar_bind_reverseLoop]
    rfl
  have hpos := @digitChars_length_pos base _ hzero
  simp only [numeral, if_neg hzero]
  generalize digitChars base n.toInt.natAbs = p at *
  by_cases hfit : p.length ≤ w / 8 * 3 + 2
  · rw [if_pos hfit, Option.bind_some]
    by_cases hsign : n.toInt < 0
    · simp only [hsign, if_true, signChars, List.singleton_append, List.length_cons,
        List.length_reverse]
      rcases Nat.lt_or_ge p.length (w / 8 * 3 + 2) with hlt | hge
      · rw [pushChar_eq hlt, Option.bind_some, if_neg (by simp), Option.bind_some,
          reverseLoop_bind]
        simp
      · rw [pushChar_eq_none hge, Option.bind_none, if_neg (by omega)]
    · simp only [hsign, if_false, signChars, hpos.ne', Option.bind_some, List.nil_append,
        List.length_reverse]
      exact reverseLoop_bind _ _
  · rw [if_neg hfit, if_neg, Option.bind_none]
    rw [List.length_append, List.length_reverse]
    omega

/-- `print_unsigned` prints the prefix of its buffer and the numeral, if these and the NUL fit. -/
theorem printUnsignedBuf_eq (hbase : 1 < base ∧ base ≤ 16) :
    printUnsignedBuf w n base props =
      if (hexPrefix n base props ++ numeral base n.toNat).length < w / 8 * 3 + 3
      then some (hexPrefix n base props ++ numeral base n.toNat) else none := by
  have hloop := digitLoop_natCast hbase n.isLt (w / 8 * 3 + 3)
  unfold printUnsignedBuf
  simp only [hloop, Option.bind_eq_bind, Option.pure_def]
  by_cases hzero : n = 0
  · have hnat : n.toNat = 0 := by rw [hzero]; rfl
    have hpre : hexPrefix n base props = [] := if_neg fun h => h.1 hzero
    simp only [hpre, hnat, numeral, digitChars, Nat.digits_zero, List.map_nil, List.length_nil,
      Nat.zero_le, if_true, Option.bind_some, List.nil_append]
    rw [pushChar_bind_reverseLoop]
    rfl
  have hnat : n.toNat ≠ 0 := fun h => hzero (BitVec.eq_of_toNat_eq h)
  have hpos := @digitChars_length_pos base _ hnat
  simp only [numeral, if_neg hnat]
  generalize digitChars base n.toNat = p at *
  by_cases hfit : p.length ≤ w / 8 * 3 + 3
  · rw [if_pos hfit, Option.bind_some, if_neg hpos.ne']
    by_cases halt : props.alternate ∧ base = 16
    · rw [if_pos halt]
      by_cases hpad : props.pad = 0x30
      · have hpre : hexPrefix n base props = [] := if_neg fun h => h.2.2.2 hpad
        rw [if_pos hpad, hpre, List.nil_append, List.length_reverse, Option.bind_some]
        exact reverseLoop_bind _ _
      · have hpre : hexPrefix n base props = [0x30, 0x78] :=
          if_pos ⟨hzero, halt.1, halt.2, hpad⟩
        rw [if_neg hpad, hpre]
        rcases Nat.lt_or_ge p.length (w / 8 * 3 + 3) with hlt | hge
        · rw [pushChar_eq hlt, Option.bind_some, pushChar_bind_reverseLoop]
          simp
        · rw [pushChar_eq_none hge, Option.bind_none, if_neg]
          simp
          omega
    · have hpre : hexPrefix n base props = [] := if_neg fun h => halt ⟨h.2.1, h.2.2.1⟩
      rw [if_neg halt, hpre, List.nil_append, List.length_reverse, Option.bind_some]
      exact reverseLoop_bind _ _
  · rw [if_neg hfit, if_neg, Option.bind_none]
    rw [List.length_append, List.length_reverse]
    omega

theorem length_signChars (n : BitVec 64) : (signChars n).length = if n.toInt < 0 then 1 else 0 := by
  unfold signChars
  split_ifs <;> rfl

theorem length_hexPrefix (hn : n ≠ 0) :
    (hexPrefix n base props).length =
      if props.alternate ∧ base = 16 ∧ props.pad ≠ 0x30 then 2 else 0 := by
  unfold hexPrefix
  rw [if_congr (and_iff_right hn) rfl rfl]
  split_ifs <;> rfl

theorem isSome_if_length {p : List (BitVec 8)} {cap : ℕ} :
    (if p.length < cap then some p else none).isSome ↔ p.length < cap := by
  simp

/-- All numbers below a power of the base fit the buffer of `print_int`, the smallest apart. -/
theorem isSome_printIntBuf (hw : w = 32 ∨ w = 64) (hbase : 1 < base ∧ base ≤ 16) (n : BitVec 64) :
    (printIntBuf w n base).isSome ↔ n ≠ BitVec.intMin 64 ∧
      n.toInt.natAbs < base ^ (w / 8 * 3 + 1 - if n.toInt < 0 then 1 else 0) := by
  have hcap : 12 ≤ w / 8 * 3 := by omega
  by_cases hn : n = BitVec.intMin 64
  · simp [hn, printIntBuf_intMin (zero_lt_one.trans hbase.1)]
  rw [printIntBuf_eq hbase hn, isSome_if_length, List.length_append, length_signChars,
    ← length_numeral hbase.1 (by split_ifs <;> omega), and_iff_right hn]
  split_ifs <;> omega

/-- All numbers below a power of the base fit the buffer of `print_unsigned`. -/
theorem isSome_printUnsignedBuf (hw : w = 32 ∨ w = 64) (hbase : 1 < base ∧ base ≤ 16)
    (n : BitVec 64) (props : StrProps) :
    (printUnsignedBuf w n base props).isSome ↔ n.toNat < base ^ (w / 8 * 3 + 2 -
      if props.alternate ∧ base = 16 ∧ props.pad ≠ 0x30 then 2 else 0) := by
  have hcap : 12 ≤ w / 8 * 3 := by omega
  rw [printUnsignedBuf_eq hbase, isSome_if_length, List.length_append,
    ← length_numeral hbase.1 (by split_ifs <;> omega)]
  by_cases hzero : n = 0
  · -- the prefix is left out, and there is room for one digit in any case
    subst hzero
    have hnumeral : (numeral base (0 : BitVec 64).toNat).length = 1 := rfl
    have hpre : hexPrefix 0 base props = [] := if_neg fun h => h.1 rfl
    rw [hnumeral, hpre, List.length_nil]
    split_ifs <;> omega
  · rw [length_hexPrefix hzero]
    split_ifs <;> omega

/-- The buffers take all numbers below a power of the base, the smallest number apart. -/
theorem printBufs_iff (hw : w = 32 ∨ w = 64) (hbase : base = 10 ∨ base = 16) (n : BitVec 64)
    (props : StrProps) :
    ((printIntBuf w n base).isSome ↔
        n ≠ BitVec.intMin 64 ∧
          n.toInt.natAbs < base ^ (w / 8 * 3 + 1 - if n.toInt < 0 then 1 else 0)) ∧
      ((printUnsignedBuf w n base props).isSome ↔
        n.toNat < base ^ (w / 8 * 3 + 2 -
          if props.alternate ∧ base = 16 ∧ props.pad ≠ 0x30 then 2 else 0)) :=
  have hbound : 1 < base ∧ base ≤ 16 := by omega
  ⟨isSome_printIntBuf hw hbound n, isSome_printUnsignedBuf hw hbound n props⟩

/-- With 4-byte longs, 13 decimal digits fit both buffers. -/
theorem printBufs_long :
    (printIntBuf 32 9999999999999 10).isSome ∧
      (printUnsignedBuf 32 9999999999999 10 ⟨0x20, 0, false⟩).isSome :=
  have h := printBufs_iff (Or.inl rfl) (Or.inl rfl) 9999999999999 ⟨0x20, 0, false⟩
  ⟨h.1.mpr (by decide), h.2.mpr (by decide)⟩

/-- One more does not fit, the smallest number has no digits, and the largest is too long. -/
theorem printBufs_overrun :
    printIntBuf 32 10000000000000 10 = none ∧ printIntBuf 64 (BitVec.intMin 64) 10 = none ∧
      printUnsignedBuf 32 (BitVec.allOnes 64) 16 ⟨0x20, 0, false⟩ = none := by
  refine ⟨?_, ?_, ?_⟩ <;> decide +kernel

end Buffers

end AcrnUt
