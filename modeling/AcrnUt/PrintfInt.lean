import AcrnUt.PrintfFlags

/-!
# Integer directives

The text of `%d`, `%u` and `%x` with any flags, width and number of `l`s, against the text that C
gives it (`cText`).

Zeros go in front of a sign, and the prefix of a number padded with zeros is not counted in a width
on the right. So the text is that of C under a condition on the directive and the number, which has
to fit the local buffer (`vsnprintf_cText_iff`).
-/

set_option linter.unusedSectionVars false

namespace AcrnUt

/-! ## The text in C -/

/-- The numeral of a conversion. -/
def Conv.numeral (conv : Conv) (n : BitVec 64) : List (BitVec 8) :=
  match conv with
  | d => AcrnUt.numeral 10 n.toInt.natAbs
  | u => AcrnUt.numeral 10 n.toNat
  | x => AcrnUt.numeral 16 n.toNat

/-- The sign or the prefix in front of the numeral. -/
def Conv.front (conv : Conv) (flags : List Flag) (n : BitVec 64) : List (BitVec 8) :=
  match conv with
  | d => signChars n
  | u => []
  | x => if .hash ∈ flags ∧ n ≠ 0 then [0x30, 0x78] else []

/-- The text of a directive in C. -/
def cText (conv : Conv) (flags : List Flag) (width : ℕ) (n : BitVec 64) : List (BitVec 8) :=
  let front := conv.front flags n
  let num := conv.numeral n
  let pad := width - (front ++ num).length
  if .minus ∈ flags then front ++ num ++ List.replicate pad 0x20
  else if .zero ∈ flags then front ++ (List.replicate pad 0x30 ++ num)
  else List.replicate pad 0x20 ++ (front ++ num)

/-! ## When `vsnprintf` emits it -/

/-- The prefix of a number padded with zeros is emitted at once. -/
def EarlyPrefix (conv : Conv) (flags : List Flag) (n : BitVec 64) : Prop :=
  conv = .x ∧ .hash ∈ flags ∧ n ≠ 0 ∧ padsZero false flags

instance (conv : Conv) (flags : List Flag) (n : BitVec 64) :
    Decidable (EarlyPrefix conv flags n) :=
  inferInstanceAs (Decidable (_ ∧ _))

/-- The numeral fits the local buffer, with what is stored in front of it. -/
def FitsBuf (w : ℕ) (conv : Conv) (flags : List Flag) (n : BitVec 64) : Prop :=
  match conv with
  | .d => n ≠ BitVec.intMin 64 ∧
      n.toInt.natAbs < 10 ^ (w / 8 * 3 + 1 - if n.toInt < 0 then 1 else 0)
  | .u => n.toNat < 10 ^ (w / 8 * 3 + 2)
  | .x => n.toNat < 16 ^ (w / 8 * 3 + 2 - if .hash ∈ flags ∧ ¬padsZero false flags then 2 else 0)

/-- The padding is that of C. The widths from 2^31 on do not fit an `int` : 2^31 is read as the
least one, and 2^31 + 1, if it has no minus, as the one above it. -/
def PadsAsC (conv : Conv) (flags : List Flag) (width : ℕ) (n : BitVec 64) : Prop :=
  if .minus ∈ flags then
    if EarlyPrefix conv flags n then
      width < 2 ^ 31 ∧
          width ≤ (conv.numeral n).length + (if leftJustified false flags then 0 else 2) ∨
        ¬leftJustified false flags ∧ width = 2 ^ 31 + 1
    else
      width < 2 ^ 31 ∧
        (leftJustified false flags ∨ width ≤ (conv.front flags n ++ conv.numeral n).length) ∨
        width = 2 ^ 31
  else
    width < 2 ^ 31 ∧ ¬(conv = .d ∧ n.toInt < 0 ∧ .zero ∈ flags ∧
      (conv.front flags n ++ conv.numeral n).length < width)

/-! ## Padding -/

section Padding

variable {s body : List (BitVec 8)} {p : BitVec 8} {a b k : ℕ}

/-- The text of a string that is not too long, with its padding on either side. -/
theorem strText_eq (hs : s.length < 2 ^ 31) (props : StrProps) :
    strText s props =
      List.replicate (props.npad.toInt - s.length).toNat props.pad ++ s ++
        List.replicate (-props.npad.toInt - s.length).toNat 0x20 := by
  have hlen : (BitVec.ofNat 32 s.length).toInt = s.length := by
    rw [BitVec.toInt_eq_toNat_of_lt] <;> rw [BitVec.toNat_ofNat, Nat.mod_eq_of_lt] <;> omega
  have hlo := BitVec.le_toInt props.npad
  have hhi := @BitVec.toInt_lt 32 props.npad
  unfold strText
  simp only
  by_cases hpos : 0 < props.npad.toInt
  · have hsub : (props.npad - BitVec.ofNat 32 s.length).toInt = props.npad.toInt - s.length := by
      rw [BitVec.toInt_sub, hlen, Int.bmod_eq_of_le] <;> omega
    simp only [if_pos hpos, hsub]
    by_cases hleft : 0 < props.npad.toInt - s.length
    · simp only [if_pos hleft]
      rw [if_neg (by simp), show (-props.npad.toInt - s.length).toNat = 0 by omega]
    · have hback : props.npad - BitVec.ofNat 32 s.length + BitVec.ofNat 32 s.length = props.npad :=
        BitVec.sub_add_cancel ..
      simp only [if_neg hleft, hsub, hback]
      rw [show (-props.npad.toInt).toNat = 0 by omega,
        show (-props.npad.toInt - s.length).toNat = 0 by omega, ite_self]
  · simp only [if_neg hpos]
    rw [show (props.npad.toInt - s.length).toNat = 0 by omega]
    by_cases hneg : props.npad.toInt < 0
    · have hadd : (props.npad + BitVec.ofNat 32 s.length).toInt = props.npad.toInt + s.length := by
        rw [BitVec.toInt_add, hlen, Int.bmod_eq_of_le] <;> omega
      rw [if_pos hneg, hadd, neg_add]
      rfl
    · rw [if_neg hneg, show (-props.npad.toInt - s.length).toNat = 0 by omega]

/-- The spaces at the end of a text. -/
theorem takeWhile_space (hbody : body.getLast? ≠ some 0x20) (hne : body ≠ [])
    (t : List (BitVec 8)) :
    ((t ++ body ++ List.replicate b 0x20).reverse.takeWhile (· = 0x20)).length = b := by
  obtain ⟨body, c, rfl⟩ := (List.eq_nil_or_concat body).resolve_left hne
  rw [List.concat_eq_append] at hbody ⊢
  have hc : c ≠ 0x20 := fun h => hbody (by simp [h])
  rw [List.reverse_append, List.reverse_replicate,
    List.takeWhile_append_of_pos fun c hc => by simpa using List.eq_of_mem_replicate hc,
    List.reverse_append, List.reverse_append, List.reverse_singleton, List.singleton_append,
    List.cons_append, List.takeWhile_cons_of_neg (by simpa using hc), List.append_nil,
    List.length_replicate]

/-- What stands before such a text and how many spaces behind it can be read off. -/
theorem pad_counts (hbody : body.getLast? ≠ some 0x20) (hne : body ≠ []) {t t' : List (BitVec 8)}
    (h : t ++ body ++ List.replicate b 0x20 = t' ++ body ++ List.replicate k 0x20) :
    b = k ∧ t.length = t'.length := by
  have hspaces := congrArg (fun l => (l.reverse.takeWhile (· = 0x20)).length) h
  simp only [takeWhile_space hbody hne] at hspaces
  have hlen := congrArg List.length h
  simp only [List.length_append, List.length_replicate] at hlen
  exact ⟨hspaces, by omega⟩

/-- A text that ends in no space is padded on the right alone. -/
theorem pad_eq_right_iff (hbody : body.getLast? ≠ some 0x20) (hne : body ≠ []) :
    List.replicate a p ++ body ++ List.replicate b 0x20 = body ++ List.replicate k 0x20 ↔
      a = 0 ∧ b = k := by
  constructor
  · intro h
    rw [← List.nil_append (body ++ List.replicate k 0x20), ← List.append_assoc] at h
    obtain ⟨hb, ha⟩ := pad_counts hbody hne h
    exact ⟨by simpa using ha, hb⟩
  · rintro ⟨rfl, rfl⟩
    rfl

/-- It is padded on the left alone. -/
theorem pad_eq_left_iff (hbody : body.getLast? ≠ some 0x20) (hne : body ≠ []) (q : BitVec 8) :
    List.replicate a p ++ body ++ List.replicate b 0x20 = List.replicate k q ++ body ↔
      b = 0 ∧ a = k ∧ (a = 0 ∨ p = q) := by
  constructor
  · intro h
    have hcounts := h
    rw [← List.append_nil (List.replicate k q ++ body), ← List.replicate_zero (a := 0x20)]
      at hcounts
    obtain ⟨hb, ha⟩ := pad_counts hbody hne hcounts
    simp only [List.length_replicate] at ha
    refine ⟨hb, ha, ?_⟩
    rcases a with _ | a
    · exact Or.inl rfl
    · obtain ⟨k, rfl⟩ : ∃ k', k = k' + 1 := ⟨a, by omega⟩
      simp only [List.replicate_succ, List.cons_append] at h
      exact Or.inr (List.cons.inj h).1
  · rintro ⟨rfl, rfl, rfl | rfl⟩
    · simp
    · simp

/-- Zeros in front of a sign are none behind it. -/
theorem pad_sign_eq_iff (hbody : body.getLast? ≠ some 0x20) (hne : body ≠ []) :
    List.replicate a 0x30 ++ 0x2d :: body ++ List.replicate b 0x20 =
        0x2d :: (List.replicate k 0x30 ++ body) ↔ a = 0 ∧ b = 0 ∧ k = 0 := by
  rcases a with _ | a
  · have := pad_eq_left_iff (a := 0) (p := 0x30) (b := b) (k := k) hbody hne 0x30
    rw [List.replicate_zero, List.nil_append] at this ⊢
    rw [List.cons_append, List.cons.injEq, this]
    simp [eq_comm]
  · refine iff_of_false (fun h => ?_) (fun h => by omega)
    rw [List.replicate_succ, List.cons_append, List.cons_append] at h
    exact absurd (List.cons.inj h).1 (by decide)

end Padding

/-! ## The text of a directive -/

/-- The properties of a directive. -/
def directiveProps (flags : List Flag) (width : ℕ) : StrProps :=
  scanProps flags width ⟨0x20, 0, false⟩

/-- What `vsnprintf` calls for a conversion. -/
def convText (w : ℕ) (conv : Conv) (n : BitVec 64) (props : StrProps) :
    Except Stuck (List (BitVec 8)) :=
  match conv with
  | .d => intText w n 10 props
  | .u => unsignedText w n 10 props
  | .x => unsignedText w n 16 props

section Directive

variable {w j width : ℕ} {conv : Conv} {flags : List Flag} {n : BitVec 64}

theorem zero_notMem_directiveChars (flags : List Flag) (width j : ℕ) (conv : Conv) :
    0 ∉ directiveChars flags width j conv := by
  have hflags : 0 ∉ flags.map Flag.char := fun h => by
    obtain ⟨f, -, hf⟩ := List.mem_map.mp h
    revert hf
    rcases f with _ | _ | _ <;> decide
  have hwidth : 0 ∉ widthChars width := fun h => by
    have := isDigit_of_mem_widthChars h
    revert this
    decide
  have hconv : 0 ∉ convChars j conv := fun h => by
    rcases List.mem_append.mp h with hl | hc
    · exact absurd (List.eq_of_mem_replicate hl) (by decide)
    · have := List.mem_singleton.mp hc
      revert this
      rcases conv with _ | _ | _ <;> decide
  simp only [directiveChars, List.mem_cons, List.mem_append, hflags, hwidth, hconv, or_self,
    or_false]
  decide

/-- A directive as a format. -/
def directive (flags : List Flag) (width j : ℕ) (conv : Conv) : CString :=
  ⟨directiveChars flags width j conv, zero_notMem_directiveChars flags width j conv⟩

theorem convertText_conv {va va' : List (VaArg w)}
    (hva : vaInt (BitVec.ofNat 32 j) (decide (conv = .d)) va = .ok (n, va')) (props : StrProps) :
    convertText w conv.char ⟨BitVec.ofNat 32 j, props⟩ va =
      (do let t ← convText w conv n props; .ok (va', t)) := by
  rcases conv with _ | _ | _
  · have hva' : vaInt (BitVec.ofNat 32 j) true va = .ok (n, va') := hva
    simp [convertText, Conv.char, hva', ok_bind, convText]
  · have hva' : vaInt (BitVec.ofNat 32 j) false va = .ok (n, va') := hva
    simp [convertText, Conv.char, hva', ok_bind, convText]
  · have hva' : vaInt (BitVec.ofNat 32 j) false va = .ok (n, va') := hva
    simp [convertText, Conv.char, hva', ok_bind, convText]

/-- The directive is read to its end. -/
theorem morefmt_directive (hw : 32 ≤ w) :
    morefmt w (directive flags width j conv) ((directive flags width j conv).bytes.length + 1) 1
        ⟨0, 0x20, 0, false⟩ =
      .ok (conv.char, ⟨BitVec.ofNat 32 j, directiveProps flags width⟩,
        (directive flags width j conv).bytes.length) := by
  have hpos : 1 ≤ (directive flags width j conv).bytes.length := Nat.succ_pos _
  have hzero : 0 + BitVec.ofNat 32 j = BitVec.ofNat 32 j := BitVec.zero_add _
  rw [morefmt_flags hw rfl hpos (by omega) rfl, hzero]
  rfl

/-- The characters that a call emits for a directive are those of the function it calls. -/
theorem vsnprintf_directive {va va' : List (VaArg w)} (hw : 32 ≤ w)
    (hva : vaInt (BitVec.ofNat 32 j) (decide (conv = .d)) va = .ok (n, va'))
    {mem : List (BitVec 8)} {size : BitVec 32} (hsize : 0 < size.toInt)
    (hmem : size.toNat ≤ mem.length) (t : List (BitVec 8)) :
    (∃ s, vsnprintf w mem size (directive flags width j conv) va = .ok s ∧ s.text = t) ↔
      convText w conv n (directiveProps flags width) = .ok t := by
  have hmore := @morefmt_directive w j width conv flags hw
  have hconv := convertText_conv hva (directiveProps flags width)
  have hchar : conv.char ≠ 0 := by rcases conv with _ | _ | _ <;> decide
  have hat : (directive flags width j conv).at 0 = .ok 0x25 := rfl
  have hend := at_eq (le_refl (directive flags width j conv).bytes.length)
  have hpos : (directive flags width j conv).bytes.length ≠ 0 := Nat.succ_ne_zero _
  generalize directive flags width j conv = fmt at hmore hat hend hpos ⊢
  obtain ⟨len, hlen⟩ := Nat.exists_eq_succ_of_ne_zero hpos
  rw [List.drop_length, deref_nil] at hend
  rcases htext : convText w conv n (directiveProps flags width) with e | t'
  · -- the call has no result
    have herror : vsnprintf w mem size fmt va = .error e := by
      rw [vsnprintf, vsnprintf.loop, hat, ok_bind, if_neg (by decide), if_neg (by decide), hmore,
        ok_bind]
      simp only [convert_eq_bind, hconv, htext, error_bind]
    simp [herror]
  · have hformat : formatText w fmt (fmt.bytes.length + 1) 0 va = .ok t' := by
      have hnul : formatText w fmt fmt.bytes.length fmt.bytes.length va' = .ok [] := by
        rw [hlen, formatText, ← hlen, hend]
        rfl
      rw [formatText, hat, ok_bind, if_neg (by decide), if_neg (by decide), hmore, ok_bind]
      simp only [hconv, htext, ok_bind, if_neg hchar, hnul, List.append_nil]
    rw [vsnprintf_eq hformat hsize hmem]
    simp [PStream.filled]

end Directive

/-! ## The text against that of C -/

section Against

variable {w width : ℕ} {conv : Conv} {flags : List Flag} {n : BitVec 64}

theorem directiveProps_pad : (directiveProps flags width).pad = 0x30 ↔ padsZero false flags := by
  unfold directiveProps scanProps
  dsimp only
  split_ifs with h <;> simp [h]

theorem directiveProps_alternate : (directiveProps flags width).alternate ↔ .hash ∈ flags := by
  simp [directiveProps, scanProps]

/-- A numeral does not end in a space. -/
theorem numeral_spec {base : ℕ} (hbase : 1 < base ∧ base ≤ 16) (n : ℕ) :
    numeral base n ≠ [] ∧ (numeral base n).getLast? ≠ some 0x20 := by
  unfold numeral
  split_ifs with hn
  · decide
  · have hlt : n % base < 16 := (Nat.mod_lt n (by omega)).trans_le hbase.2
    rw [digitChars, Nat.digits_def' hbase.1 (Nat.pos_of_ne_zero hn), List.map_cons,
      List.reverse_cons]
    refine ⟨by simp, ?_⟩
    rw [List.getLast?_concat, ne_eq, Option.some.injEq]
    generalize n % base = d at hlt
    interval_cases d <;> decide

theorem conv_numeral_spec (conv : Conv) (n : BitVec 64) :
    conv.numeral n ≠ [] ∧ (conv.numeral n).getLast? ≠ some 0x20 := by
  rcases conv with _ | _ | _
  · exact numeral_spec (by omega) _
  · exact numeral_spec (by omega) _
  · exact numeral_spec (by omega) _

/-- With a sign or a prefix, too. -/
theorem front_numeral_spec (conv : Conv) (flags : List Flag) (n : BitVec 64) :
    conv.front flags n ++ conv.numeral n ≠ [] ∧
      (conv.front flags n ++ conv.numeral n).getLast? ≠ some 0x20 := by
  obtain ⟨hne, hlast⟩ := conv_numeral_spec conv n
  refine ⟨by simp [hne], ?_⟩
  rwa [List.getLast?_append_of_ne_nil _ hne]

theorem length_conv_numeral_le (conv : Conv) (n : BitVec 64) : (conv.numeral n).length ≤ 64 := by
  have hint := natAbs_le_of_bitVec n
  have hnat := n.isLt
  rcases conv with _ | _ | _
  · exact (length_numeral (by omega) (by omega) _).mpr (hint.trans_lt (by norm_num))
  · exact (length_numeral (by omega) (by omega) _).mpr (hnat.trans (by norm_num))
  · exact (length_numeral (by omega) (by omega) _).mpr (hnat.trans (by norm_num))

theorem length_front_le (conv : Conv) (flags : List Flag) (n : BitVec 64) :
    (conv.front flags n).length ≤ 2 := by
  rcases conv with _ | _ | _
  · change (signChars n).length ≤ 2
    rw [length_signChars]
    split_ifs <;> omega
  · exact Nat.zero_le _
  · unfold Conv.front
    split_ifs <;> simp

/-- The properties that the numeral is printed with, behind an early prefix. -/
def earlyProps (props : StrProps) : StrProps :=
  { props with
    npad :=
      if 0 < props.npad.toInt then
        if 0 < (props.npad - 2).toInt then props.npad - 2 else 0
      else props.npad }

/-- The local buffer of what `vsnprintf` calls. -/
def convBuf (w : ℕ) (conv : Conv) (n : BitVec 64) (props : StrProps) : Option (List (BitVec 8)) :=
  match conv with
  | .d => printIntBuf w n 10
  | .u => printUnsignedBuf w n 10 props
  | .x => printUnsignedBuf w n 16 props

/-- The text of `print_unsigned`, by what its test says. -/
theorem unsignedText_eq (w : ℕ) {base : ℕ} {props : StrProps} {early : Prop} [Decidable early]
    (h : (n ≠ 0 ∧ props.alternate ∧ base = 16 ∧ props.pad = 0x30) ↔ early) :
    unsignedText w n base props = (do
      let buf ← localBuf (printUnsignedBuf w n base props)
      .ok (if early then 0x30 :: 0x78 :: strText buf (earlyProps props)
        else strText buf props)) := by
  unfold unsignedText
  by_cases hearly : early
  · simp only [if_pos hearly, if_pos (h.mpr hearly)]
    rfl
  · simp only [if_neg hearly, if_neg (h.not.mpr hearly)]

theorem convText_eq (w : ℕ) (conv : Conv) (n : BitVec 64) (flags : List Flag) (width : ℕ) :
    convText w conv n (directiveProps flags width) = (do
      let buf ← localBuf (convBuf w conv n (directiveProps flags width))
      .ok (if EarlyPrefix conv flags n then
          0x30 :: 0x78 :: strText buf (earlyProps (directiveProps flags width))
        else strText buf (directiveProps flags width))) := by
  rcases conv with _ | _ | _
  · have hearly : ¬EarlyPrefix .d flags n := fun h => by simp [EarlyPrefix] at h
    simp only [if_neg hearly]
    rfl
  · exact unsignedText_eq w (by simp [EarlyPrefix])
  · refine unsignedText_eq w ?_
    rw [directiveProps_alternate, directiveProps_pad]
    unfold EarlyPrefix
    tauto

/-- The numerals that fit are those below a power of the base. -/
theorem isSome_convBuf (hw : w = 32 ∨ w = 64) :
    (convBuf w conv n (directiveProps flags width)).isSome ↔ FitsBuf w conv flags n := by
  rcases conv with _ | _ | _
  · exact isSome_printIntBuf hw (by omega) n
  · exact (isSome_printUnsignedBuf hw (by omega) n _).trans (by
      rw [if_neg (by omega)]
      rfl)
  · refine (isSome_printUnsignedBuf hw (by omega) n _).trans ?_
    have hif : (if (directiveProps flags width).alternate ∧ 16 = 16 ∧
        (directiveProps flags width).pad ≠ 0x30 then 2 else 0) =
        if .hash ∈ flags ∧ ¬padsZero false flags then 2 else 0 := by
      refine if_congr ?_ rfl rfl
      rw [directiveProps_alternate, ne_eq, directiveProps_pad, eq_self, true_and]
    rw [hif]
    rfl

/-- A buffer holds the numeral, and what stands in front of it unless it was emitted early. -/
theorem convBuf_eq (h : (convBuf w conv n (directiveProps flags width)).isSome) :
    convBuf w conv n (directiveProps flags width) =
      some (if EarlyPrefix conv flags n then conv.numeral n
        else conv.front flags n ++ conv.numeral n) := by
  have hsome : ∀ {x : List (BitVec 8)} {cap : ℕ},
      (if x.length < cap then some x else none).isSome →
        (if x.length < cap then some x else none) = some x := fun h =>
    if_pos (isSome_if_length.mp h)
  rcases conv with _ | _ | _
  · have hn : n ≠ BitVec.intMin 64 := by
      rintro rfl
      simp [convBuf, printIntBuf_intMin] at h
    rw [convBuf, printIntBuf_eq (by omega) hn] at h ⊢
    rw [hsome h, if_neg (by simp [EarlyPrefix])]
    rfl
  · rw [convBuf, printUnsignedBuf_eq (by omega)] at h ⊢
    rw [hsome h, if_neg (by simp [EarlyPrefix]), hexPrefix, if_neg (by omega)]
    rfl
  · rw [convBuf, printUnsignedBuf_eq (by omega)] at h ⊢
    have hprefix : hexPrefix n 16 (directiveProps flags width) =
        if EarlyPrefix .x flags n then [] else Conv.x.front flags n := by
      have hpad := @directiveProps_pad width flags
      have halt := @directiveProps_alternate width flags
      unfold hexPrefix Conv.front EarlyPrefix
      by_cases hhash : .hash ∈ flags <;> by_cases hn : n = 0 <;>
        by_cases hzeros : padsZero false flags <;> simp_all
    rw [hsome h, hprefix]
    split_ifs <;> rfl

/-- A numeral that does not fit has no text. -/
theorem convText_of_not_fits (hw : w = 32 ∨ w = 64) (h : ¬FitsBuf w conv flags n) :
    convText w conv n (directiveProps flags width) = .error .fault := by
  have hnone : convBuf w conv n (directiveProps flags width) = none := by
    rwa [← isSome_convBuf hw, Bool.not_eq_true, Option.isSome_eq_false_iff,
      Option.isNone_iff_eq_none] at h
  rw [convText_eq, hnone]
  rfl

/-- A numeral that fits is emitted with its padding. -/
theorem convText_of_fits (hw : w = 32 ∨ w = 64) (h : FitsBuf w conv flags n) :
    convText w conv n (directiveProps flags width) =
      .ok (if EarlyPrefix conv flags n then
          0x30 :: 0x78 :: strText (conv.numeral n) (earlyProps (directiveProps flags width))
        else strText (conv.front flags n ++ conv.numeral n) (directiveProps flags width)) := by
  rw [convText_eq, convBuf_eq ((isSome_convBuf hw).mpr h)]
  split_ifs <;> rfl

/-- What `npad` is : the width or its negation, up to a multiple of 2^32. -/
theorem toInt_intWidth (neg : Bool) (width : ℕ) :
    ∃ q : ℤ, (intWidth neg width).toInt = (if neg then -(width : ℤ) else width) + 2 ^ 32 * q := by
  obtain ⟨q, hq⟩ := @Int.dvd_bmod_sub_self (width : ℤ) (2 ^ 32)
  have hpos : (BitVec.ofNat 32 width).toInt = width + 2 ^ 32 * q := by
    rw [BitVec.toInt_ofNat']
    omega
  rcases neg with _ | _
  · exact ⟨q, hpos⟩
  · obtain ⟨r, hr⟩ := @Int.dvd_bmod_sub_self (-(BitVec.ofNat 32 width).toInt) (2 ^ 32)
    refine ⟨r - q, ?_⟩
    rw [intWidth, if_pos rfl, BitVec.toInt_neg, if_pos rfl]
    omega

/-- The `npad` of a directive. -/
theorem npad_spec (flags : List Flag) (width : ℕ) :
    -2 ^ 31 ≤ (directiveProps flags width).npad.toInt ∧
      (directiveProps flags width).npad.toInt < 2 ^ 31 ∧
      ∃ q : ℤ, (directiveProps flags width).npad.toInt =
        (if leftJustified false flags then -(width : ℤ) else width) + 2 ^ 32 * q :=
  ⟨BitVec.le_toInt _, BitVec.toInt_lt, toInt_intWidth _ width⟩

/-- The `npad` behind an early prefix. -/
theorem toInt_earlyProps (props : StrProps) :
    (earlyProps props).npad.toInt =
      if 0 < props.npad.toInt then max (props.npad.toInt - 2) 0 else props.npad.toInt := by
  have hlo := BitVec.le_toInt props.npad
  have hhi := @BitVec.toInt_lt 32 props.npad
  unfold earlyProps
  dsimp only
  by_cases hpos : 0 < props.npad.toInt
  · have hsub : (props.npad - 2).toInt = props.npad.toInt - 2 := by
      rw [BitVec.toInt_sub, show (2 : BitVec 32).toInt = 2 from rfl, Int.bmod_eq_of_le] <;> omega
    rw [if_pos hpos, if_pos hpos, hsub]
    split_ifs with hleft
    · rw [hsub]
      omega
    · rw [show (0 : BitVec 32).toInt = 0 from rfl]
      omega
  · rw [if_neg hpos, if_neg hpos]

/-- The padding of a left-justified text, for a text of `len` characters. -/
theorem right_pad_iff {v : ℤ} {len : ℕ} (hlen : len ≤ 66) {left : Bool}
    (hv : -2 ^ 31 ≤ v ∧ v < 2 ^ 31 ∧
      ∃ q : ℤ, v = (if left then -(width : ℤ) else width) + 2 ^ 32 * q) :
    (v - len).toNat = 0 ∧ (-v - len).toNat = width - len ↔
      width < 2 ^ 31 ∧ (left ∨ width ≤ len) ∨ width = 2 ^ 31 := by
  obtain ⟨hlo, hhi, q, hq⟩ := hv
  rcases left with _ | _ <;> simp at hq ⊢ <;> omega

/-- The padding of a left-justified numeral behind an early prefix. -/
theorem early_pad_iff {v : ℤ} {len : ℕ} (hlen : len ≤ 64) {left : Bool}
    (hv : -2 ^ 31 ≤ v ∧ v < 2 ^ 31 ∧
      ∃ q : ℤ, v = (if left then -(width : ℤ) else width) + 2 ^ 32 * q) :
    ((if 0 < v then max (v - 2) 0 else v) - len).toNat = 0 ∧
        (-(if 0 < v then max (v - 2) 0 else v) - len).toNat = width - (len + 2) ↔
      width < 2 ^ 31 ∧ width ≤ len + (if left then 0 else 2) ∨ ¬left ∧ width = 2 ^ 31 + 1 := by
  obtain ⟨hlo, hhi, q, hq⟩ := hv
  rcases left with _ | _ <;> simp at hq ⊢ <;> split_ifs <;> omega

/-- The padding of a text that is justified on the right. -/
theorem left_pad_iff {v : ℤ} {len : ℕ} (hlen : len ≤ 66)
    (hv : -2 ^ 31 ≤ v ∧ v < 2 ^ 31 ∧ ∃ q : ℤ, v = (width : ℤ) + 2 ^ 32 * q) :
    (-v - len).toNat = 0 ∧ (v - len).toNat = width - len ↔ width < 2 ^ 31 := by
  obtain ⟨hlo, hhi, q, hq⟩ := hv
  omega

/-- The padding of a directive without a minus. -/
theorem scan_of_no_minus (h : .minus ∉ flags) :
    (padsZero false flags ↔ .zero ∈ flags) ∧ leftJustified false flags = false := by
  induction flags with
  | nil => simp [padsZero, leftJustified]
  | cons f flags ih =>
    rw [List.mem_cons, not_or] at h
    have ih := ih h.2
    rcases f with _ | _ | _
    · simp [padsZero, leftJustified, ih.2]
    · exact absurd rfl h.1
    · simp [padsZero, leftJustified, ih]

/-- The padding of a numeral that is justified on the right, behind an early prefix. -/
theorem early_left_pad_iff {v : ℤ} {len : ℕ} (hlen : len ≤ 64)
    (hv : -2 ^ 31 ≤ v ∧ v < 2 ^ 31 ∧ ∃ q : ℤ, v = (width : ℤ) + 2 ^ 32 * q) :
    (-(if 0 < v then max (v - 2) 0 else v) - len).toNat = 0 ∧
        ((if 0 < v then max (v - 2) 0 else v) - len).toNat = width - (len + 2) ↔
      width < 2 ^ 31 := by
  obtain ⟨hlo, hhi, q, hq⟩ := hv
  split_ifs <;> omega

/-- A number without a sign has nothing in front of zeros, unless it was emitted early. -/
theorem front_eq_nil (hearly : ¬EarlyPrefix conv flags n) (hzeros : padsZero false flags)
    (hsign : ¬(conv = .d ∧ n.toInt < 0)) : conv.front flags n = [] := by
  rcases conv with _ | _ | _
  · exact if_neg fun h => hsign ⟨rfl, h⟩
  · rfl
  · exact if_neg fun h => hearly ⟨rfl, h.1, h.2, hzeros⟩

/-- Zeros in front of a text, and what stands in front of the zeros of C. -/
theorem zeros_eq_iff (hearly : ¬EarlyPrefix conv flags n) (hzeros : padsZero false flags)
    {a b k : ℕ} :
    List.replicate a 0x30 ++ (conv.front flags n ++ conv.numeral n) ++ List.replicate b 0x20 =
        conv.front flags n ++ (List.replicate k 0x30 ++ conv.numeral n) ↔
      b = 0 ∧ a = k ∧ ¬(conv = .d ∧ n.toInt < 0 ∧ 0 < k) := by
  obtain ⟨hne, hlast⟩ := conv_numeral_spec conv n
  by_cases hsign : conv = .d ∧ n.toInt < 0
  · obtain ⟨rfl, hneg⟩ := hsign
    have hfront : Conv.d.front flags n = [0x2d] := if_pos hneg
    rw [hfront, List.singleton_append, List.singleton_append, pad_sign_eq_iff hlast hne]
    constructor
    · rintro ⟨rfl, rfl, rfl⟩
      exact ⟨rfl, rfl, fun h => absurd h.2.2 (lt_irrefl 0)⟩
    · rintro ⟨rfl, rfl, h⟩
      have : ¬0 < a := fun ha => h ⟨rfl, hneg, ha⟩
      exact ⟨by omega, rfl, by omega⟩
  · have hno : ¬(conv = .d ∧ n.toInt < 0 ∧ 0 < k) := fun h => hsign ⟨h.1, h.2.1⟩
    rw [front_eq_nil hearly hzeros hsign, List.nil_append, List.nil_append,
      pad_eq_left_iff hlast hne]
    simp [hno]

/-- A text that is padded as C pads it. -/
theorem strText_cText_iff (hearly : ¬EarlyPrefix conv flags n) :
    strText (conv.front flags n ++ conv.numeral n) (directiveProps flags width) =
        cText conv flags width n ↔ PadsAsC conv flags width n := by
  have hnum := length_conv_numeral_le conv n
  have hfront := length_front_le conv flags n
  have hlen : (conv.front flags n ++ conv.numeral n).length ≤ 66 := by
    rw [List.length_append]
    omega
  obtain ⟨hne, hlast⟩ := front_numeral_spec conv flags n
  have hv := npad_spec flags width
  rw [strText_eq (by omega)]
  unfold cText PadsAsC
  dsimp only
  by_cases hminus : .minus ∈ flags
  · rw [if_pos hminus, if_pos hminus, if_neg hearly, pad_eq_right_iff hlast hne]
    exact right_pad_iff hlen hv
  · obtain ⟨hzeros, hleft⟩ := scan_of_no_minus hminus
    rw [hleft] at hv
    have hcount := left_pad_iff hlen hv
    rw [if_neg hminus, if_neg hminus]
    by_cases hzero : .zero ∈ flags
    · have hpad : (directiveProps flags width).pad = 0x30 := if_pos (hzeros.mpr hzero)
      rw [if_pos hzero, hpad, zeros_eq_iff hearly (hzeros.mpr hzero), ← and_assoc, hcount,
        and_iff_right hzero, Nat.sub_pos_iff_lt]
    · have hpad : (directiveProps flags width).pad = 0x20 :=
        if_neg fun h => hzero (hzeros.mp h)
      rw [if_neg hzero, hpad, pad_eq_left_iff hlast hne, ← hcount]
      simp [hzero]

/-- A numeral behind an early prefix that is padded as C pads it. -/
theorem earlyText_cText_iff (hearly : EarlyPrefix conv flags n) :
    0x30 :: 0x78 :: strText (conv.numeral n) (earlyProps (directiveProps flags width)) =
        cText conv flags width n ↔ PadsAsC conv flags width n := by
  have hnum := length_conv_numeral_le conv n
  obtain ⟨hne, hlast⟩ := conv_numeral_spec conv n
  have hfront : conv.front flags n = [0x30, 0x78] := by
    obtain ⟨rfl, hhash, hn, -⟩ := hearly
    exact if_pos ⟨hhash, hn⟩
  have hlen : ([0x30, 0x78] ++ conv.numeral n).length = (conv.numeral n).length + 2 := by
    simp
  have hpad : (earlyProps (directiveProps flags width)).pad = 0x30 :=
    if_pos hearly.2.2.2
  have hv := npad_spec flags width
  rw [strText_eq (by omega), toInt_earlyProps, hpad]
  unfold cText PadsAsC
  simp only [hfront, hlen]
  have hcancel : ∀ s t : List (BitVec 8), 0x30 :: 0x78 :: s = [0x30, 0x78] ++ t ↔ s = t := by
    simp
  by_cases hminus : .minus ∈ flags
  · rw [if_pos hminus, if_pos hminus, if_pos hearly, ← early_pad_iff hnum hv,
      List.append_assoc [0x30, 0x78], hcancel, pad_eq_right_iff hlast hne]
  · obtain ⟨hzeros, hleft⟩ := scan_of_no_minus hminus
    have hd : conv ≠ .d := by
      rw [hearly.1]
      exact Conv.noConfusion
    rw [hleft] at hv
    rw [if_neg hminus, if_neg hminus, if_pos (hzeros.mp hearly.2.2.2), hcancel,
      pad_eq_left_iff hlast hne, ← and_assoc, early_left_pad_iff hnum hv]
    simp [hd]

/-- For each number that an argument can have, the characters of a directive are those of C if and
only if the numeral fits the local buffer and the padding is that of C. -/
theorem vsnprintf_cText_iff {j : ℕ} (hw : w = 32 ∨ w = 64) {va va' : List (VaArg w)}
    (hva : vaInt (BitVec.ofNat 32 j) (decide (conv = .d)) va = .ok (n, va'))
    {mem : List (BitVec 8)} {size : BitVec 32} (hsize : 0 < size.toInt)
    (hmem : size.toNat ≤ mem.length) :
    (∃ s, vsnprintf w mem size (directive flags width j conv) va = .ok s ∧
        s.text = cText conv flags width n) ↔
      FitsBuf w conv flags n ∧ PadsAsC conv flags width n := by
  rw [vsnprintf_directive (by omega) hva hsize hmem]
  by_cases hfits : FitsBuf w conv flags n
  · rw [convText_of_fits hw hfits, and_iff_right hfits, Except.ok.injEq]
    split_ifs with hearly
    · exact earlyText_cText_iff hearly
    · exact strText_cText_iff hearly
  · rw [convText_of_not_fits hw hfits]
    simp [hfits]

/-- `%-5d` of 7. -/
theorem vsnprintf_cText_seven : ∃ s,
    vsnprintf 64 (List.replicate 8 0) 8 (directive [.minus] 5 0 .d) [.int false 7] = .ok s ∧
      s.text = cText .d [.minus] 5 7 := by
  have hfits : FitsBuf 64 .d [.minus] 7 := by
    unfold FitsBuf
    decide
  have hpads : PadsAsC .d [.minus] 5 7 := by
    have hlt : 5 < 2 ^ 31 := by norm_num
    exact Or.inl ⟨hlt, Or.inl rfl⟩
  exact (vsnprintf_cText_iff (Or.inr rfl) rfl (by decide) (by decide)).mpr ⟨hfits, hpads⟩

/-- `%05d` of -42 is `00-42`, and `-0042` in C. -/
theorem vsnprintf_zeros_sign :
    ((vsnprintf 64 (List.replicate 8 0) 8 (directive [.zero] 5 0 .d)
        [.int false (-42)]).toOption.map PStream.text) = some [0x30, 0x30, 0x2d, 0x34, 0x32] ∧
      cText .d [.zero] 5 (-42) = [0x2d, 0x30, 0x30, 0x34, 0x32] := by
  decide +kernel

end Against

end AcrnUt
