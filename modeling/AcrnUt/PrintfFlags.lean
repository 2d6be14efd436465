import AcrnUt.Printf

/-!
# Flags

The directives `%d`, `%u` and `%x` with any flags `0`, `-` and `#` in front of a width, and any
number of `l`s, as `morefmt` of `vsnprintf` reads them.

The code has no flag for `-` : it is the sign of the number that follows, so a `#` behind it ends it
(`leftJustified`), and a `0` directly behind it is a digit (`padsZero`). With these two, the
properties of a directive are those of `scanProps` (`morefmt_flags`).
-/

set_option linter.unusedSectionVars false

namespace AcrnUt

/-! ## Directives -/

/-- A flag. -/
inductive Flag
  | zero
  | minus
  | hash
deriving DecidableEq

/-- `'0'`, `'-'` and `'#'`. -/
def Flag.char : Flag → BitVec 8
  | zero => 0x30
  | minus => 0x2d
  | hash => 0x23

/-- `%d`, `%u` and `%x`. -/
inductive Conv
  | d
  | u
  | x
deriving DecidableEq

/-- The character of a conversion. -/
def Conv.char : Conv → BitVec 8
  | d => 0x64
  | u => 0x75
  | x => 0x78

/-- A width as it is written, nothing for none. -/
def widthChars (width : ℕ) : List (BitVec 8) :=
  (digitChars 10 width).reverse

/-- What stands behind the flags and the width, with `j` times `l`. -/
def convChars (j : ℕ) (conv : Conv) : List (BitVec 8) :=
  List.replicate j 0x6c ++ [conv.char]

/-- The characters of a directive. -/
def directiveChars (flags : List Flag) (width j : ℕ) (conv : Conv) : List (BitVec 8) :=
  0x25 :: (flags.map Flag.char ++ widthChars width ++ convChars j conv)

/-! ## What the flags mean -/

/-- A `0` that is not a digit of the number behind a `-`. The first argument says that the flags
follow a `-` and zeros. -/
def padsZero : Bool → List Flag → Bool
  | _, [] => false
  | after, .zero :: flags => !after || padsZero after flags
  | _, .minus :: flags => padsZero true flags
  | _, .hash :: flags => padsZero false flags

/-- The last flag that is not a `0` is a `-`. -/
def leftJustified : Bool → List Flag → Bool
  | after, [] => after
  | after, .zero :: flags => leftJustified after flags
  | _, .minus :: flags => leftJustified true flags
  | _, .hash :: flags => leftJustified false flags

/-! ## The number behind a flag -/

section Numbers

variable {w : ℕ} {r : List (BitVec 8)}

/-- A number ends in front of the rest `r`, and does not begin there either, a minus apart. -/
def EndsNumber (r : List (BitVec 8)) : Prop :=
  ¬isDigit (deref r) ∧ ¬isblank (deref r) ∧ deref r ≠ 0x2b

theorem isDigit_digitChar {d : ℕ} (hd : d < 10) : isDigit (digitChar d) := by
  interval_cases d <;> decide

theorem digitChar_sub (w : ℕ) {d : ℕ} (hd : d < 10) (hw : 8 ≤ w) :
    (digitChar d).setWidth w - 0x30#w = BitVec.ofNat w d := by
  have hchar : digitChar d = BitVec.ofNat 8 (d + 0x30) := by
    interval_cases d <;> rfl
  have hwide : (BitVec.ofNat 8 (d + 0x30)).setWidth w = BitVec.ofNat w (d + 0x30) := by
    have hpow : 2 ^ 8 ≤ 2 ^ w := Nat.pow_le_pow_right (by omega) hw
    apply BitVec.eq_of_toNat_eq
    rw [BitVec.toNat_setWidth, BitVec.toNat_ofNat, BitVec.toNat_ofNat,
      Nat.mod_eq_of_lt (show d + 0x30 < 2 ^ 8 by omega)]
  rw [hchar, hwide, BitVec.ofNat_add, BitVec.add_sub_cancel]

theorem isDigit_of_mem_widthChars {width : ℕ} {c : BitVec 8} (hc : c ∈ widthChars width) :
    isDigit c := by
  unfold widthChars digitChars at hc
  rw [List.mem_reverse, List.mem_map] at hc
  obtain ⟨d, hd, rfl⟩ := hc
  exact isDigit_digitChar (Nat.digits_lt_base (by omega) hd)

/-- The loop of `atol` reads a number back. -/
theorem foldl_widthChars (hw : 8 ≤ w) (width : ℕ) :
    (widthChars width).foldl atol.step 0 = BitVec.ofNat w width := by
  induction width using Nat.strong_induction_on with
  | _ width ih =>
    rcases Nat.eq_zero_or_pos width with rfl | hpos
    · rfl
    have hdigits : widthChars width = widthChars (width / 10) ++ [digitChar (width % 10)] := by
      unfold widthChars digitChars
      rw [Nat.digits_def' (by omega) hpos, List.map_cons, List.reverse_cons]
    rw [hdigits, List.foldl_append, ih _ (Nat.div_lt_self hpos (by omega)), List.foldl_cons,
      List.foldl_nil, atol.step, digitChar_sub w (Nat.mod_lt _ (by omega)) hw,
      show (10 : BitVec w) = BitVec.ofNat w 10 from rfl, ← BitVec.ofNat_mul, ← BitVec.ofNat_add,
      Nat.div_add_mod']

theorem foldl_zeros (hw : 8 ≤ w) (zeros : ℕ) :
    (List.replicate zeros 0x30).foldl atol.step (0 : BitVec w) = 0 := by
  have hchar := digitChar_sub (d := 0) w (by omega) hw
  have hstep : atol.step (0 : BitVec w) 0x30 = 0 := by
    rw [show digitChar 0 = 0x30 from rfl] at hchar
    rw [atol.step, hchar]
    simp
  induction zeros with
  | zero => rfl
  | succ zeros ih => rw [List.replicate_succ, List.foldl_cons, hstep, ih]

/-- What `fmtnum` takes : zeros and a width, behind a minus or not. -/
def numChars (neg : Bool) (zeros width : ℕ) : List (BitVec 8) :=
  (if neg then [0x2d] else []) ++ (List.replicate zeros 0x30 ++ widthChars width)

theorem isDigit_of_mem {zeros width : ℕ} {c : BitVec 8}
    (hc : c ∈ List.replicate zeros 0x30 ++ widthChars width) : isDigit c := by
  rcases List.mem_append.mp hc with h | h
  · rw [List.eq_of_mem_replicate h]
    decide
  · exact isDigit_of_mem_widthChars h

theorem takeWhile_isDigit (hr : EndsNumber r) (zeros width : ℕ) :
    (List.replicate zeros 0x30 ++ widthChars width ++ r).takeWhile isDigit =
      List.replicate zeros 0x30 ++ widthChars width := by
  have hend : r.takeWhile isDigit = [] := by
    rcases r with _ | ⟨c, r⟩
    · rfl
    · exact List.takeWhile_cons_of_neg hr.1
  rw [List.takeWhile_append_of_pos fun c hc => isDigit_of_mem hc, hend, List.append_nil]

/-- The first character, of a number without a minus or of the rest. -/
theorem deref_numChars (zeros width : ℕ) (r : List (BitVec 8)) :
    isDigit (deref (List.replicate zeros 0x30 ++ widthChars width ++ r)) ∨
      numChars false zeros width = [] ∧
        List.replicate zeros 0x30 ++ widthChars width ++ r = r := by
  rcases hnum : List.replicate zeros 0x30 ++ widthChars width with _ | ⟨c, num⟩
  · exact Or.inr ⟨hnum, rfl⟩
  · exact Or.inl (isDigit_of_mem (hnum ▸ List.mem_cons_self))

theorem isDigit_ne {c : BitVec 8} (hc : isDigit c) :
    c ≠ 0x2d ∧ c ≠ 0x2b ∧ ¬isblank c := by
  refine ⟨?_, ?_, ?_⟩ <;> rintro h
  · subst h
    revert hc
    decide
  · subst h
    revert hc
    decide
  · revert hc
    have : c = 0x20 ∨ c = 0x09 := by simpa [isblank] using h
    rcases this with rfl | rfl <;> decide

/-- `fmtnum` takes the number. -/
theorem numLength_numChars (hr : EndsNumber r) (neg : Bool) (zeros width : ℕ)
    (hminus : numChars neg zeros width = [] → deref r ≠ 0x2d) :
    numLength (numChars neg zeros width ++ r) = (numChars neg zeros width).length := by
  unfold numLength
  rcases neg with _ | _
  · have hfirst : deref (numChars false zeros width ++ r) ≠ 0x2d := by
      rcases deref_numChars zeros width r with h | ⟨hnil, -⟩
      · exact (isDigit_ne h).1
      · rw [hnil]
        exact hminus hnil
    simp only [if_neg hfirst, List.drop_zero, Nat.zero_add]
    exact congrArg _ (takeWhile_isDigit hr zeros width)
  · simp only [numChars, if_true, List.cons_append, List.nil_append, deref_cons,
      List.drop_succ_cons, List.drop_zero, takeWhile_isDigit hr, List.length_cons]
    omega

/-- `atol` of a string with a minus. -/
theorem atol_minus (s : List (BitVec 8)) :
    atol w (0x2d :: s) = -(s.takeWhile isDigit).foldl atol.step 0 := by
  have hblank : (0x2d :: s).dropWhile isblank = 0x2d :: s :=
    List.dropWhile_cons_of_neg (by decide)
  unfold atol
  simp only [hblank, deref_cons, decide_true, true_or, if_true, List.tail_cons]

/-- `atol` of a string without blanks or a sign. -/
theorem atol_plain {s : List (BitVec 8)} (hblank : ¬isblank (deref s)) (hminus : deref s ≠ 0x2d)
    (hplus : deref s ≠ 0x2b) : atol w s = (s.takeWhile isDigit).foldl atol.step 0 := by
  have hdrop : s.dropWhile isblank = s := by
    rcases s with _ | ⟨c, s⟩
    · rfl
    · exact List.dropWhile_cons_of_neg hblank
  unfold atol
  simp only [hdrop, hminus, hplus, decide_false, Bool.false_eq_true, or_self, if_false]

/-- `atol` reads the number. -/
theorem atol_numChars (hw : 8 ≤ w) (hr : EndsNumber r) (neg : Bool) (zeros width : ℕ)
    (hminus : numChars neg zeros width = [] → deref r ≠ 0x2d) :
    atol w (numChars neg zeros width ++ r) =
      if neg then -BitVec.ofNat w width else BitVec.ofNat w width := by
  have hnum : ((List.replicate zeros 0x30 ++ widthChars width ++ r).takeWhile isDigit).foldl
      atol.step 0 = BitVec.ofNat w width := by
    rw [takeWhile_isDigit hr, List.foldl_append, foldl_zeros hw, foldl_widthChars hw]
  rcases neg with _ | _
  · have hfirst : ¬isblank (deref (numChars false zeros width ++ r)) ∧
        deref (numChars false zeros width ++ r) ≠ 0x2d ∧
        deref (numChars false zeros width ++ r) ≠ 0x2b := by
      rcases deref_numChars zeros width r with h | ⟨hnil, -⟩
      · exact ⟨(isDigit_ne h).2.2, (isDigit_ne h).1, (isDigit_ne h).2.1⟩
      · rw [hnil]
        exact ⟨hr.2.1, hminus hnil, hr.2.2⟩
    rw [atol_plain hfirst.1 hfirst.2.1 hfirst.2.2]
    exact hnum
  · exact (atol_minus _).trans (congrArg _ hnum)

end Numbers

/-! ## The flags and the width -/

section Scan

variable {w j fuel pos width : ℕ} {conv : Conv} {fmt : CString} {d : Directive}

theorem drop_add {p q : List (BitVec 8)} (h : fmt.bytes.drop pos = p ++ q) :
    fmt.bytes.drop (pos + p.length) = q := by
  rw [← List.drop_drop, h, List.drop_left]

/-- A character of the directive that is read. -/
theorem morefmt_cons {c : BitVec 8} {q : List (BitVec 8)} (h : fmt.bytes.drop pos = c :: q) :
    pos < fmt.bytes.length ∧ fmt.bytes.drop (pos + 1) = q ∧ fmt.at pos = .ok c := by
  have hlt : pos < fmt.bytes.length := by
    by_contra hle
    rw [List.drop_of_length_le (not_lt.mp hle)] at h
    simp at h
  exact ⟨hlt, drop_add (p := [c]) h, by rw [at_eq hlt.le, h, deref_cons]⟩

/-- The step of `morefmt` for each character of a directive. -/
theorem morefmt_step {c : BitVec 8} (h : fmt.at pos = .ok c) :
    morefmt w fmt (fuel + 1) pos d =
      (if c = 0x23 then
        morefmt w fmt fuel (pos + 1) { d with props := { d.props with alternate := true } }
      else if c = 0x30 then do
        let (npad, pos) ← fmtnum w fmt (pos + 1)
        morefmt w fmt fuel pos { d with props := { d.props with pad := 0x30, npad := npad } }
      else if isDigit c ∨ c = 0x2d then do
        let (npad, pos) ← fmtnum w fmt pos
        morefmt w fmt fuel pos { d with props := { d.props with npad := npad } }
      else if c = 0x6c then morefmt w fmt fuel (pos + 1) { d with nlong := d.nlong + 1 }
      else if c = 0x74 ∨ c = 0x7a then morefmt w fmt fuel (pos + 1) { d with nlong := 1 }
      else .ok (c, d, pos + 1)) := by
  rw [morefmt, h]
  rfl

/-- The `l`s and the conversion. -/
theorem morefmt_convChars (h : fmt.bytes.drop pos = convChars j conv)
    (hfuel : fmt.bytes.length < pos + fuel) :
    morefmt w fmt fuel pos d =
      .ok (conv.char, { d with nlong := d.nlong + BitVec.ofNat 32 j }, fmt.bytes.length) := by
  induction j generalizing fuel pos d with
  | zero =>
    obtain ⟨hlt, hnext, hat⟩ := morefmt_cons h
    obtain ⟨fuel, rfl⟩ := Nat.exists_eq_succ_of_ne_zero (show fuel ≠ 0 by omega)
    have hend : pos + 1 = fmt.bytes.length := by
      have := List.drop_eq_nil_iff.mp hnext
      omega
    have hnlong : d.nlong + BitVec.ofNat 32 0 = d.nlong := BitVec.add_zero _
    rw [morefmt_step hat, ← hend, hnlong]
    rcases conv with _ | _ | _ <;> rfl
  | succ j ih =>
    obtain ⟨hlt, hnext, hat⟩ := morefmt_cons h
    obtain ⟨fuel, rfl⟩ := Nat.exists_eq_succ_of_ne_zero (show fuel ≠ 0 by omega)
    have hnlong : d.nlong + 1 + BitVec.ofNat 32 j = d.nlong + BitVec.ofNat 32 (j + 1) := by
      rw [BitVec.ofNat_add, BitVec.add_assoc, BitVec.add_comm 1]
      rfl
    rw [morefmt_step hat, ← hnlong]
    exact ih hnext (by omega)

/-- A width behind a minus, or not, as an `int`. -/
def intWidth (neg : Bool) (width : ℕ) : BitVec 32 :=
  if neg then -BitVec.ofNat 32 width else BitVec.ofNat 32 width

/-- `fmtnum` of the number in front of `r`. -/
theorem fmtnum_numChars (hw : 32 ≤ w) {neg : Bool} {zeros : ℕ} {r : List (BitVec 8)}
    (hr : EndsNumber r) (hminus : numChars neg zeros width = [] → deref r ≠ 0x2d)
    (h : fmt.bytes.drop pos = numChars neg zeros width ++ r) (hpos : pos ≤ fmt.bytes.length) :
    fmtnum w fmt pos = .ok (intWidth neg width, pos + (numChars neg zeros width).length) := by
  have hint : (if neg then -BitVec.ofNat w width else BitVec.ofNat w width).setWidth 32 =
      intWidth neg width := by
    unfold intWidth
    split_ifs
    · rw [BitVec.setWidth_neg_of_le hw, BitVec.setWidth_ofNat_of_le hw]
    · rw [BitVec.setWidth_ofNat_of_le hw]
  rw [fmtnum_eq w hpos, h, atol_numChars (by omega) hr neg zeros width hminus,
    numLength_numChars hr neg zeros width hminus, hint]

theorem endsNumber_convChars (j : ℕ) (conv : Conv) :
    EndsNumber (convChars j conv) ∧ deref (convChars j conv) ≠ 0x2d := by
  unfold EndsNumber
  rcases j with _ | j
  · rcases conv with _ | _ | _ <;> decide
  · rw [convChars, List.replicate_succ, List.cons_append, deref_cons]
    decide

/-- A flag ends a number, if it is no zero. -/
theorem endsNumber_flag {f : Flag} (hf : f ≠ .zero) (t : List (BitVec 8)) :
    EndsNumber (f.char :: t) := by
  unfold EndsNumber
  rw [deref_cons]
  rcases f with _ | _ | _
  · exact absurd rfl hf
  · decide
  · decide

/-- What is left of a directive at its flags. -/
def flagsText (flags : List Flag) (width j : ℕ) (conv : Conv) : List (BitVec 8) :=
  flags.map Flag.char ++ widthChars width ++ convChars j conv

/-- A minus, or not, and zeros. -/
def numFlags (neg : Bool) (zeros : ℕ) : List Flag :=
  (if neg then [.minus] else []) ++ List.replicate zeros .zero

/-- `fmtnum` takes zeros, and the width if no other flag is left. -/
theorem fmtnum_flags (hw : 32 ≤ w) {neg : Bool} {zeros : ℕ} {rest : List Flag}
    (hrest : rest.head? ≠ some .zero) (hneg : neg ∨ rest.head? ≠ some .minus ∨ 0 < zeros)
    (h : fmt.bytes.drop pos = flagsText (numFlags neg zeros ++ rest) width j conv)
    (hpos : pos ≤ fmt.bytes.length) :
    ∃ k, (neg → 0 < k) ∧
      fmtnum w fmt pos = .ok (if rest = [] then intWidth neg width else 0, pos + k) ∧
      fmt.bytes.drop (pos + k) =
        if rest = [] then convChars j conv else flagsText rest width j conv := by
  have hlen : ∀ n, neg → 0 < (numChars neg zeros n).length := fun n hneg => by
    simp [numChars, hneg]
  have hflags : flagsText (numFlags neg zeros ++ rest) width j conv =
      numChars neg zeros 0 ++ flagsText rest width j conv := by
    rcases neg with _ | _ <;>
      simp [numChars, numFlags, flagsText, widthChars, digitChars, Flag.char]
  rw [hflags] at h
  rcases rest with _ | ⟨f, rest⟩
  · have hnum : fmt.bytes.drop pos = numChars neg zeros width ++ convChars j conv := by
      rw [h]
      simp [numChars, flagsText, widthChars, digitChars]
    exact ⟨_, hlen width, fmtnum_numChars hw (endsNumber_convChars j conv).1
      (fun _ => (endsNumber_convChars j conv).2) hnum hpos, drop_add hnum⟩
  · have hf : f ≠ .zero := fun h => hrest (by rw [h]; rfl)
    have hzero : intWidth neg 0 = 0 := by
      rcases neg with _ | _ <;> rfl
    refine ⟨_, hlen 0, ?_, drop_add h⟩
    rw [fmtnum_numChars hw (endsNumber_flag hf _) (fun hnil => ?_) h hpos, hzero]
    · rfl
    · -- without zeros and a minus, the flag is a `#`
      obtain ⟨hminus, hzeros⟩ : neg = false ∧ zeros = 0 := by
        simpa [numChars, widthChars, digitChars] using hnil
      have hflag : f ≠ .minus := by
        simpa [hminus, hzeros] using hneg
      change f.char ≠ 0x2d
      rcases f with _ | _ | _
      · exact absurd rfl hf
      · exact absurd rfl hflag
      · decide

theorem exists_zeros (flags : List Flag) :
    ∃ zeros rest, flags = List.replicate zeros .zero ++ rest ∧ rest.head? ≠ some .zero := by
  induction flags with
  | nil => exact ⟨0, [], rfl, by simp⟩
  | cons f flags ih =>
    by_cases hf : f = .zero
    · obtain ⟨zeros, rest, rfl, hrest⟩ := ih
      exact ⟨zeros + 1, rest, by rw [hf]; rfl, hrest⟩
    · exact ⟨0, f :: flags, rfl, fun h => hf (Option.some.inj h)⟩

/-- What `fmtnum` takes of the flags. -/
theorem exists_numFlags (flags : List Flag) :
    ∃ neg zeros rest, flags = numFlags neg zeros ++ rest ∧ rest.head? ≠ some .zero ∧
      (neg ∨ rest.head? ≠ some .minus ∨ 0 < zeros) := by
  by_cases hminus : flags.head? = some .minus
  · rcases flags with _ | ⟨f, flags⟩
    · simp at hminus
    obtain rfl := Option.some.inj hminus
    obtain ⟨zeros, rest, rfl, hrest⟩ := exists_zeros flags
    exact ⟨true, zeros, rest, rfl, hrest, Or.inl rfl⟩
  · obtain ⟨zeros, rest, rfl, hrest⟩ := exists_zeros flags
    refine ⟨false, zeros, rest, rfl, hrest, Or.inr ?_⟩
    rcases zeros with _ | zeros
    · exact Or.inl hminus
    · exact Or.inr (Nat.succ_pos zeros)

theorem padsZero_zeros (zeros : ℕ) (rest : List Flag) :
    padsZero true (List.replicate zeros .zero ++ rest) = padsZero true rest := by
  induction zeros with
  | zero => rfl
  | succ zeros ih => exact ih

theorem leftJustified_zeros (after : Bool) (zeros : ℕ) (rest : List Flag) :
    leftJustified after (List.replicate zeros .zero ++ rest) = leftJustified after rest := by
  induction zeros with
  | zero => rfl
  | succ zeros ih => exact ih

/-- A flag that is no zero does not depend on what stands before it. -/
theorem scan_of_head {rest : List Flag} (hrest : rest.head? ≠ some .zero) (hne : rest ≠ []) :
    padsZero true rest = padsZero false rest ∧
      ∀ after, leftJustified after rest = leftJustified false rest := by
  rcases rest with _ | ⟨_ | _ | _, rest⟩
  · exact absurd rfl hne
  · exact absurd rfl hrest
  · exact ⟨rfl, fun _ => rfl⟩
  · exact ⟨rfl, fun _ => rfl⟩

section Scanned

variable {rest : List Flag} {zeros : ℕ} {neg : Bool}

/-- The zeros behind a minus pad nothing. -/
theorem padsZero_minus (hrest : rest.head? ≠ some .zero) :
    padsZero false (numFlags true zeros ++ rest) = padsZero false rest := by
  change padsZero true (List.replicate zeros .zero ++ rest) = _
  rw [padsZero_zeros]
  by_cases hnil : rest = []
  · rw [hnil]
    rfl
  · exact (scan_of_head hrest hnil).1

theorem leftJustified_numFlags (hrest : rest.head? ≠ some .zero) :
    leftJustified false (numFlags neg zeros ++ rest) =
      if rest = [] then neg else leftJustified false rest := by
  have hzeros : leftJustified false (numFlags neg zeros ++ rest) = leftJustified neg rest := by
    rcases neg with _ | _
    · exact leftJustified_zeros false zeros rest
    · exact leftJustified_zeros true zeros rest
  rw [hzeros]
  split_ifs with hnil
  · rw [hnil]
    rfl
  · exact (scan_of_head hrest hnil).2 neg

theorem hash_notMem_numFlags : .hash ∉ numFlags neg zeros := by
  rcases neg with _ | _ <;> simp [numFlags]

end Scanned

/-- What the flags and the width of a directive make of the properties. -/
def scanProps (flags : List Flag) (width : ℕ) (props : StrProps) : StrProps where
  pad := if padsZero false flags then 0x30 else props.pad
  npad := intWidth (leftJustified false flags) width
  alternate := props.alternate || decide (.hash ∈ flags)

theorem scanProps_nil (width : ℕ) (props : StrProps) :
    scanProps [] width props = { props with npad := BitVec.ofNat 32 width } := by
  ext <;> simp [scanProps, padsZero, leftJustified, intWidth]

theorem scanProps_hash (flags : List Flag) (width : ℕ) (props : StrProps) :
    scanProps (.hash :: flags) width props =
      scanProps flags width { props with alternate := true } := by
  refine StrProps.ext rfl rfl ?_
  simp [scanProps]

/-- The flags of a number behind a zero. -/
theorem scanProps_zero {neg : Bool} {zeros : ℕ} {rest : List Flag} (hrest : rest.head? ≠ some .zero)
    (width : ℕ) (props : StrProps) :
    scanProps (.zero :: (numFlags neg zeros ++ rest)) width props =
      { scanProps rest width { props with pad := 0x30 } with
        npad := intWidth (if rest = [] then neg else leftJustified false rest) width } := by
  refine StrProps.ext ?_ ?_ ?_
  · simp [scanProps, padsZero]
  · rw [scanProps, leftJustified, leftJustified_numFlags hrest]
  · simp [scanProps, hash_notMem_numFlags]

/-- The flags of a number with a minus. -/
theorem scanProps_minus {zeros : ℕ} {rest : List Flag} (hrest : rest.head? ≠ some .zero)
    (width : ℕ) (props : StrProps) :
    scanProps (numFlags true zeros ++ rest) width props =
      { scanProps rest width props with
        npad := intWidth (if rest = [] then true else leftJustified false rest) width } := by
  refine StrProps.ext ?_ ?_ ?_
  · rw [scanProps, padsZero_minus hrest]
    rfl
  · rw [scanProps, leftJustified_numFlags hrest]
  · simp [scanProps, hash_notMem_numFlags]

theorem widthChars_cons {width : ℕ} (hwidth : 0 < width) :
    ∃ c q, widthChars width = c :: q ∧ isDigit c ∧ c ≠ 0x30 := by
  have hne : Nat.digits 10 width ≠ [] := Nat.digits_ne_nil_iff_ne_zero.mpr hwidth.ne'
  have hlast := Nat.getLast_digit_ne_zero 10 hwidth.ne'
  have hlt : (Nat.digits 10 width).getLast hne < 10 :=
    Nat.digits_lt_base (by omega) (List.getLast_mem hne)
  refine ⟨digitChar ((Nat.digits 10 width).getLast hne),
    ((Nat.digits 10 width).dropLast.map digitChar).reverse, ?_, isDigit_digitChar hlt, ?_⟩
  · unfold widthChars digitChars
    conv_lhs => rw [← List.dropLast_append_getLast hne]
    rw [List.map_append, List.map_singleton, List.reverse_append, List.reverse_singleton,
      List.singleton_append]
  · generalize (Nat.digits 10 width).getLast hne = d at hlast hlt
    interval_cases d <;> first | exact absurd rfl hlast | decide

/-- The directive behind a number : its conversion, or another flag. -/
theorem morefmt_rest {neg : Bool} {rest : List Flag}
    (hrest : fmt.bytes.drop pos =
      if rest = [] then convChars j conv else flagsText rest width j conv)
    (hfuel : fmt.bytes.length < pos + fuel)
    (ih : ∀ d : Directive, d.props.npad = 0 →
      fmt.bytes.drop pos = flagsText rest width j conv → pos ≤ fmt.bytes.length →
      morefmt w fmt fuel pos d =
        .ok (conv.char, ⟨d.nlong + BitVec.ofNat 32 j, scanProps rest width d.props⟩,
          fmt.bytes.length)) (d : Directive) :
    morefmt w fmt fuel pos
        { d with props := { d.props with npad := if rest = [] then intWidth neg width else 0 } } =
      .ok (conv.char, ⟨d.nlong + BitVec.ofNat 32 j,
        { scanProps rest width d.props with
          npad := intWidth (if rest = [] then neg else leftJustified false rest) width }⟩,
        fmt.bytes.length) := by
  by_cases hnil : rest = []
  · subst hnil
    rw [if_pos rfl] at hrest ⊢
    rw [morefmt_convChars hrest hfuel]
    simp [scanProps, padsZero]
  · rw [if_neg hnil] at hrest
    simp only [if_neg hnil]
    have hle : pos ≤ fmt.bytes.length := by
      by_contra hlt
      rw [List.drop_of_length_le (by omega)] at hrest
      simp [flagsText, convChars] at hrest
    rw [ih _ rfl hrest hle]
    rfl

/-- The case of a `-` or of a digit that is no zero. -/
theorem morefmt_number {c : BitVec 8} (h : fmt.at pos = .ok c)
    (hc : isDigit c ∧ c ≠ 0x30 ∨ c = 0x2d) :
    morefmt w fmt (fuel + 1) pos d = (do
      let (npad, pos) ← fmtnum w fmt pos
      morefmt w fmt fuel pos { d with props := { d.props with npad := npad } }) := by
  have hhash : c ≠ 0x23 := by
    rintro rfl
    revert hc
    decide
  have hzero : c ≠ 0x30 := by
    rintro rfl
    revert hc
    decide
  rw [morefmt_step h, if_neg hhash, if_neg hzero, if_pos (hc.imp_left And.left)]

/-- The case of a `0`. -/
theorem morefmt_zero (h : fmt.at pos = .ok 0x30) :
    morefmt w fmt (fuel + 1) pos d = (do
      let (npad, pos) ← fmtnum w fmt (pos + 1)
      morefmt w fmt fuel pos { d with props := { d.props with pad := 0x30, npad := npad } }) := by
  rw [morefmt_step h, if_neg (by decide), if_pos rfl]

/-- The flags, the width and the conversion. -/
theorem morefmt_flags (hw : 32 ≤ w) {flags : List Flag}
    (h : fmt.bytes.drop pos = flagsText flags width j conv) (hpos : pos ≤ fmt.bytes.length)
    (hfuel : fmt.bytes.length < pos + fuel) (hd : d.props.npad = 0) :
    morefmt w fmt fuel pos d =
      .ok (conv.char, ⟨d.nlong + BitVec.ofNat 32 j, scanProps flags width d.props⟩,
        fmt.bytes.length) := by
  induction fuel generalizing pos flags d with
  | zero => omega
  | succ fuel ih =>
    have hrest : ∀ {q : ℕ} {rest : List Flag} (neg : Bool), pos < q →
        (fmt.bytes.drop q = if rest = [] then convChars j conv else flagsText rest width j conv) →
        ∀ d, _ := fun {q rest} neg hq hdrop d =>
      @morefmt_rest w j fuel q width conv fmt neg rest hdrop (by omega)
        (fun d hd hdrop hle => ih hdrop hle (by omega) hd) d
    rcases flags with _ | ⟨_ | _ | _, flags⟩
    · rw [scanProps_nil]
      rcases Nat.eq_zero_or_pos width with rfl | hwidth
      · rw [morefmt_convChars h hfuel, show BitVec.ofNat 32 0 = d.props.npad from hd.symm]
      · -- the width is a number of its own
        obtain ⟨c, q, hc, hdigit, hzero⟩ := widthChars_cons hwidth
        have hnum : fmt.bytes.drop pos = numChars false 0 width ++ convChars j conv := h
        have hlen : 0 < (numChars false 0 width).length := by
          change 0 < (widthChars width).length
          rw [hc]
          exact Nat.zero_lt_succ _
        have hat : fmt.at pos = .ok c := (morefmt_cons (h.trans (by simp [flagsText, hc]; rfl))).2.2
        rw [morefmt_number hat (Or.inl ⟨hdigit, hzero⟩), fmtnum_numChars hw
          (endsNumber_convChars j conv).1 (fun _ => (endsNumber_convChars j conv).2) hnum hpos]
        exact morefmt_convChars (drop_add hnum) (by omega)
    · obtain ⟨hlt, hnext, hat⟩ := morefmt_cons h
      obtain ⟨neg, zeros, rest, rfl, hhead, hneg⟩ := exists_numFlags flags
      obtain ⟨k, -, hnum, hdrop⟩ := fmtnum_flags hw hhead hneg hnext hlt
      rw [morefmt_zero hat, hnum, scanProps_zero hhead]
      exact hrest neg (by omega) hdrop { d with props := { d.props with pad := 0x30 } }
    · obtain ⟨hlt, -, hat⟩ := morefmt_cons h
      obtain ⟨zeros, rest, rfl, hhead⟩ := exists_zeros flags
      change fmt.bytes.drop pos = flagsText (numFlags true zeros ++ rest) width j conv at h
      change _ = Except.ok (_, Directive.mk _ (scanProps (numFlags true zeros ++ rest) _ _), _)
      obtain ⟨k, hk, hnum, hdrop⟩ := fmtnum_flags hw hhead (Or.inl rfl) h hpos
      have hk' := hk rfl
      rw [morefmt_number hat (Or.inr rfl), hnum, scanProps_minus hhead]
      exact hrest true (by omega) hdrop d
    · obtain ⟨hlt, hnext, hat⟩ := morefmt_cons h
      rw [morefmt_step hat, if_pos (by decide), scanProps_hash]
      exact @ih (pos + 1) { d with props := { d.props with alternate := true } } flags hnext hlt
        (by omega) hd

end Scan

end AcrnUt
