import AcrnUt.Glob
import AcrnUt.Printf

/-!
# The prefix stack of the test reports

`report_prefix_push` and `report_prefix_pop` of `lib/report.c` keep a stack of prefixes as one
text, each of them followed by `": "`. A pop goes from one delimiter to the next, from the start
of the text, and cuts it off where the last one begins. A delimiter begins with `':'` and ends
with `' '`, so the first one behind a prefix without a delimiter is the one that was pushed with
it (`strstr_delimiter`), and the text is always that of the stack (`run_prefixText`).
-/

set_option linter.unusedSectionVars false

namespace AcrnUt

namespace ReportPrefix

/-! ## The code -/

/-- How a call ends without a result : an assertion fails, or a function it calls is stuck. -/
inductive Stop
  | assert
  | stuck (s : Stuck)
deriving DecidableEq

/-- The result of a call of `lib/printf.c`. -/
def lift {α : Type} : Except Stuck α → Except Stop α
  | .ok a => .ok a
  | .error e => .error (.stuck e)

/-- `assert_msg`. -/
def assertMsg (cond : Bool) : Except Stop Unit :=
  if cond then .ok () else .error .assert

/-- `sizeof(prefixes)`. -/
def prefixesSize : ℕ := 256

/-- `PREFIX_DELIMITER`. -/
def prefixDelimiter : CString :=
  ⟨[0x3a, 0x20], by decide⟩

/-- The format `"%s"`. -/
def strFormat : CString :=
  ⟨[0x25, 0x73], by decide⟩

/-- The string at an offset of an object. A read goes on to the next NUL, and past the end of the
object if there is none. -/
def stringAt (mem : List (BitVec 8)) (off : ℕ) : Except Stop (List (BitVec 8)) :=
  if (mem.drop off).contains 0 then .ok ((mem.drop off).takeWhile (· ≠ 0))
  else .error (.stuck .fault)

/-- `report_prefix_pushf`, on the bytes of `prefixes`. -/
def reportPrefixPushf (w : ℕ) (prefixFmt : CString) (va : List (VaArg w))
    (prefixes : List (BitVec 8)) : Except Stop (List (BitVec 8)) := do
  let s ← stringAt prefixes 0
  let len := BitVec.ofNat 32 s.length
  assertMsg (len.toNat < prefixesSize)
  let start := len.toNat
  let p ← lift (vsnprintf w (prefixes.drop len.toNat)
    (BitVec.ofNat 32 (prefixesSize - len.toNat)) prefixFmt va)
  let prefixes := prefixes.take len.toNat ++ p.mem
  let len := len + p.added
  assertMsg (len.toNat < prefixesSize)
  let s ← stringAt prefixes start
  assertMsg (strstr s prefixDelimiter.bytes).isNone
  let p ← lift (vsnprintf w (prefixes.drop len.toNat)
    (BitVec.ofNat 32 (prefixesSize - len.toNat)) prefixDelimiter [])
  let prefixes := prefixes.take len.toNat ++ p.mem
  let len := len + p.added
  assertMsg (len.toNat < prefixesSize)
  .ok prefixes

/-- `report_prefix_push`, with a prefix at the address `a`. -/
def reportPrefixPush (w : ℕ) (a : BitVec w) (p : CString) (prefixes : List (BitVec 8)) :
    Except Stop (List (BitVec 8)) :=
  reportPrefixPushf w strFormat [.str a p] prefixes

/-- `strstr(p, PREFIX_DELIMITER) + 2`, as an offset. If there is no delimiter, the address that the
loop reads at is 2. -/
def nextPrefix (prefixes : List (BitVec 8)) (p : ℕ) : Except Stop ℕ := do
  let s ← stringAt prefixes p
  match strstr s prefixDelimiter.bytes with
  | some off => .ok (p + off + 2)
  | none => .error (.stuck .fault)

/-- The loop of `report_prefix_pop`, from `p` on : the offset of the last prefix. -/
def reportPrefixPop.loop (prefixes : List (BitVec 8)) : ℕ → ℕ → Except Stop ℕ
  | 0, _ => .error (.stuck .fuel)
  | fuel + 1, p => do
    let q ← nextPrefix prefixes p
    if q < prefixes.length then
      if prefixes.getD q 0 ≠ 0 then reportPrefixPop.loop prefixes fuel q else .ok p
    else .error (.stuck .fault)

/-- `report_prefix_pop`. Each turn of the loop goes on in the buffer. -/
def reportPrefixPop (prefixes : List (BitVec 8)) : Except Stop (List (BitVec 8)) :=
  if deref prefixes = 0 then .ok prefixes
  else do
    let p ← reportPrefixPop.loop prefixes prefixesSize 0
    .ok (prefixes.set p 0)

/-- A call of a test. -/
inductive Op (w : ℕ)
  | push (a : BitVec w) (p : CString)
  | pop

/-- A call on the buffer. -/
def step {w : ℕ} (prefixes : List (BitVec 8)) : Op w → Except Stop (List (BitVec 8))
  | .push a p => reportPrefixPush w a p prefixes
  | .pop => reportPrefixPop prefixes

/-- Calls one after the other, from the buffer as the program starts with it. -/
def run {w : ℕ} (ops : List (Op w)) : Except Stop (List (BitVec 8)) :=
  ops.foldlM step (List.replicate prefixesSize 0)

/-! ## The stack -/

/-- The text of a stack, the last prefix on top. -/
def prefixText (stack : List CString) : List (BitVec 8) :=
  stack.flatMap fun p => p.bytes ++ prefixDelimiter.bytes

/-- The stack behind a call. -/
def stackStep {w : ℕ} (stack : List CString) : Op w → List CString
  | .push _ p => stack ++ [p]
  | .pop => stack.dropLast

/-- A prefix without a delimiter in it. -/
def Clean (p : CString) : Prop :=
  ¬ prefixDelimiter.bytes <:+: p.bytes

instance : DecidablePred Clean := fun _ =>
  inferInstanceAs (Decidable (¬ _))

/-- No prefix that is pushed has a delimiter, and each text fits the buffer with its NUL. -/
def Fits {w : ℕ} (stack : List CString) : List (Op w) → Prop
  | [] => True
  | .push a p :: ops =>
    Clean p ∧ (prefixText (stack ++ [p])).length < prefixesSize ∧
      Fits (stackStep stack (.push a p)) ops
  | .pop :: ops => Fits (stackStep stack (w := w) .pop) ops

/-- The buffer holds the text of the stack, and whatever behind its NUL. -/
structure Holds (stack : List CString) (prefixes : List (BitVec 8)) : Prop where
  length_eq : prefixes.length = prefixesSize
  text : ∃ rest, prefixes = prefixText stack ++ 0 :: rest
  clean : ∀ p ∈ stack, Clean p

/-! ## The first delimiter -/

section Delimiter

variable {p s rest : List (BitVec 8)}

theorem not_prefix_of_clean (c : BitVec 8) (h : ¬ prefixDelimiter.bytes <:+: c :: p) :
    ¬ prefixDelimiter.bytes <+: c :: (p ++ (prefixDelimiter.bytes ++ rest)) := by
  intro hpre
  obtain ⟨rfl, htail⟩ := List.cons_prefix_cons.mp hpre
  cases p with
  | nil => exact absurd (List.cons_prefix_cons.mp htail).1 (by decide)
  | cons d p =>
    obtain ⟨hd, -⟩ := List.cons_prefix_cons.mp htail
    subst hd
    exact h (List.infix_append [] prefixDelimiter.bytes p)

theorem loop_delimiter (p rest : List (BitVec 8)) (off : ℕ)
    (h : ¬ prefixDelimiter.bytes <:+: p) :
    strstr.loop prefixDelimiter.bytes (p ++ (prefixDelimiter.bytes ++ rest)).length
      (p ++ (prefixDelimiter.bytes ++ rest)) off = some (off + p.length) := by
  induction p generalizing off with
  | nil =>
    rw [List.nil_append, List.length_append, show prefixDelimiter.bytes.length = 1 + 1 from rfl,
      show 1 + 1 + rest.length = (1 + rest.length) + 1 by omega, strstr.loop, if_pos, if_pos]
    · rfl
    · exact (memcmp_eq_zero_iff (by simp)).mpr (List.prefix_append _ _)
    · rw [show prefixDelimiter.bytes.length = 1 + 1 from rfl]
      omega
  | cons c p ih =>
    have hlen : prefixDelimiter.bytes.length ≤
        (c :: (p ++ (prefixDelimiter.bytes ++ rest))).length := by
      rw [List.length_cons, List.length_append, List.length_append]
      omega
    have hcmp := mt (memcmp_eq_zero_iff hlen).mp (not_prefix_of_clean c h)
    rw [List.cons_append, List.length_cons, strstr.loop, if_pos (by simpa using hlen),
      if_neg hcmp, List.tail_cons, ih _ fun hp => h (hp.trans (List.suffix_cons c p).isInfix),
      List.length_cons, Nat.add_assoc, Nat.add_comm 1]

/-- A delimiter does not begin before the end of a prefix without one : it would be `':'` and the
`':'` of the delimiter itself. -/
theorem strstr_delimiter (p rest : List (BitVec 8)) (h : ¬ prefixDelimiter.bytes <:+: p) :
    strstr (p ++ (prefixDelimiter.bytes ++ rest)) prefixDelimiter.bytes = some p.length := by
  rw [strstr, if_neg (by decide), loop_delimiter p rest 0 h, Nat.zero_add]

end Delimiter

/-! ## Texts in the buffer -/

section Text

variable {stack : List CString} {prefixes rest : List (BitVec 8)}

theorem prefixText_append (s t : List CString) :
    prefixText (s ++ t) = prefixText s ++ prefixText t :=
  List.flatMap_append ..

theorem prefixText_singleton (p : CString) :
    prefixText [p] = p.bytes ++ prefixDelimiter.bytes := by
  rw [prefixText, List.flatMap_singleton]

theorem prefixText_cons (p : CString) (stack : List CString) :
    prefixText (p :: stack) = p.bytes ++ (prefixDelimiter.bytes ++ prefixText stack) := by
  rw [prefixText, List.flatMap_cons, List.append_assoc, prefixText]

theorem zero_notMem_prefixText (stack : List CString) : 0 ∉ prefixText stack := by
  rw [prefixText, List.mem_flatMap]
  rintro ⟨p, -, h⟩
  rcases List.mem_append.mp h with h | h
  · exact p.zero_notMem h
  · exact prefixDelimiter.zero_notMem h

theorem prefixText_eq_nil_iff : prefixText stack = [] ↔ stack = [] := by
  cases stack with
  | nil => exact iff_of_true rfl rfl
  | cons p stack =>
    rw [prefixText_cons]
    refine iff_of_false (fun h => ?_) (List.cons_ne_nil _ _)
    have := congrArg List.length h
    simp [prefixDelimiter] at this

/-- A text in front of a NUL is read as it is. -/
theorem stringAt_append (pre t rest : List (BitVec 8)) (ht : 0 ∉ t) :
    stringAt (pre ++ (t ++ 0 :: rest)) pre.length = .ok t := by
  have htake : (t ++ 0 :: rest).takeWhile (· ≠ 0) = t := by
    have hpos : ∀ c ∈ t, decide (c ≠ 0) = true := fun c hc =>
      decide_eq_true fun h => ht (h ▸ hc)
    rw [List.takeWhile_append_of_pos hpos]
    simp
  rw [stringAt, List.drop_left, if_pos (by simp), htake]

end Text

/-! ## A push -/

section Push

variable {w : ℕ} {stack : List CString} {prefixes : List (BitVec 8)}

theorem toNat_ofNat_length {u : List (BitVec 8)} (hu : u.length ≤ prefixesSize) :
    (BitVec.ofNat 32 u.length).toNat = u.length := by
  rw [prefixesSize] at hu
  rw [BitVec.toNat_ofNat, Nat.mod_eq_of_lt (by omega)]

/-- A call of `vsnprintf` with room for the text writes it and its NUL. -/
theorem vsnprintf_of_fits {fmt : CString} {va : List (VaArg w)} {t mem : List (BitVec 8)}
    (h : formatText w fmt (fmt.bytes.length + 1) 0 va = .ok t) (hmem : t.length < mem.length)
    (hsize : mem.length ≤ prefixesSize) :
    ∃ p rest, vsnprintf w mem (BitVec.ofNat 32 mem.length) fmt va = .ok p ∧
      p.mem = t ++ 0 :: rest ∧ p.mem.length = mem.length ∧ p.added = BitVec.ofNat 32 t.length := by
  have hnat := toNat_ofNat_length hsize
  rw [prefixesSize] at hsize
  have hint : 0 < (BitVec.ofNat 32 mem.length).toInt := by
    rw [BitVec.toInt_eq_toNat_of_lt] <;> omega
  have htake : t.take (mem.length - 1) = t := List.take_of_length_le (by omega)
  have hmin : min (mem.length - 1) t.length = t.length := by omega
  refine ⟨_, mem.drop (t.length + 1), vsnprintf_eq h hint hnat.le, ?_, ?_, rfl⟩
  · rw [hnat, htake, hmin]
  · rw [hnat, htake, hmin, List.length_append, List.length_cons, List.length_drop]
    omega

theorem strFormat_text (a : BitVec w) (p : CString) :
    formatText w strFormat (strFormat.bytes.length + 1) 0 [.str a p] = .ok p.bytes := by
  have htext : formatText w strFormat (strFormat.bytes.length + 1) 0 [.str a p] =
      .ok (strText p.bytes ⟨0x20, 0, false⟩ ++ []) := rfl
  have hstr : strText p.bytes ⟨0x20, 0, false⟩ = [] ++ p.bytes ++ [] := rfl
  rw [htext, hstr, List.append_nil, List.append_nil, List.nil_append]

theorem prefixDelimiter_text :
    formatText w prefixDelimiter (prefixDelimiter.bytes.length + 1) 0 [] =
      .ok prefixDelimiter.bytes := rfl

/-- A call of `vsnprintf` behind the text of the buffer appends to it. -/
theorem vsnprintf_append {fmt : CString} {va : List (VaArg w)} {t u rest : List (BitVec 8)}
    (htext : formatText w fmt (fmt.bytes.length + 1) 0 va = .ok u)
    (hlen : (t ++ 0 :: rest).length = prefixesSize) (hfits : (t ++ u).length < prefixesSize) :
    ∃ p rest', lift (vsnprintf w ((t ++ 0 :: rest).drop t.length)
        (BitVec.ofNat 32 (prefixesSize - t.length)) fmt va) = .ok p ∧
      p.added = BitVec.ofNat 32 u.length ∧
      (t ++ 0 :: rest).take t.length ++ p.mem = (t ++ u) ++ 0 :: rest' ∧
      ((t ++ u) ++ 0 :: rest').length = prefixesSize := by
  rw [List.length_append] at hlen hfits
  obtain ⟨p, rest', hcall, hmem, hmemlen, hadded⟩ :=
    @vsnprintf_of_fits w fmt va u (0 :: rest) htext (by omega) (by omega)
  refine ⟨p, rest', ?_, hadded, ?_, ?_⟩
  · have hrest : prefixesSize - t.length = (0 :: rest : List (BitVec 8)).length := by omega
    rw [List.drop_left, hrest, hcall]
    rfl
  · rw [List.take_left, hmem, List.append_assoc]
  · rw [List.append_assoc, ← hmem, List.length_append, hmemlen]
    omega

theorem stop_ok_bind {α β : Type} (a : α) (f : α → Except Stop β) :
    ((Except.ok a : Except Stop α) >>= f) = f a := rfl

theorem assertMsg_of {cond : Bool} (h : cond = true) : assertMsg cond = .ok () :=
  if_pos h

/-- A clean prefix passes the check of `report_prefix_push`. -/
theorem Clean.isNone_strstr {p : CString} (h : Clean p) :
    (strstr p.bytes prefixDelimiter.bytes).isNone = true := by
  have hnone : (strstr p.bytes prefixDelimiter.bytes).isSome = false := by
    rw [← Bool.not_eq_true, strstr_isSome_iff]
    exact h
  rw [← Option.not_isSome, hnone]
  rfl

/-- A push that fits puts the prefix and a delimiter behind the text. -/
theorem holds_push (a : BitVec w) {p : CString} (h : Holds stack prefixes) (hp : Clean p)
    (hfits : (prefixText (stack ++ [p])).length < prefixesSize) :
    ∃ prefixes', reportPrefixPush w a p prefixes = .ok prefixes' ∧
      Holds (stack ++ [p]) prefixes' := by
  obtain ⟨rest, rfl⟩ := h.text
  have hlen := h.length_eq
  have hzero := zero_notMem_prefixText stack
  have hnew : prefixText (stack ++ [p]) =
      prefixText stack ++ p.bytes ++ prefixDelimiter.bytes := by
    rw [prefixText_append, prefixText_singleton, List.append_assoc]
  rw [hnew] at hfits
  generalize prefixText stack = t at *
  have hfits' : (t ++ p.bytes).length < prefixesSize := by
    rw [List.length_append] at hfits
    omega
  obtain ⟨p1, rest1, hcall1, hadded1, hmem1, hlen1⟩ :=
    vsnprintf_append (strFormat_text a p) hlen hfits'
  obtain ⟨p2, rest2, hcall2, hadded2, hmem2, hlen2⟩ :=
    vsnprintf_append (w := w) prefixDelimiter_text hlen1 hfits
  have hs0 : stringAt (t ++ 0 :: rest) 0 = .ok t := stringAt_append [] t rest hzero
  have hs1 : stringAt ((t ++ p.bytes) ++ 0 :: rest1) t.length = .ok p.bytes := by
    rw [List.append_assoc]
    exact stringAt_append t p.bytes rest1 p.zero_notMem
  have hsum (u v : List (BitVec 8)) : BitVec.ofNat 32 u.length + BitVec.ofNat 32 v.length =
      BitVec.ofNat 32 (u ++ v).length := by
    rw [List.length_append, BitVec.ofNat_add]
  have ht : t.length < prefixesSize := by
    rw [List.length_append] at hfits'
    omega
  refine ⟨_, ?_, ⟨hlen2, ⟨rest2, hnew ▸ rfl⟩, fun q hq => ?_⟩⟩
  · simp only [reportPrefixPush, reportPrefixPushf, hs0, stop_ok_bind, toNat_ofNat_length ht.le,
      hcall1, hmem1, hadded1, hsum, toNat_ofNat_length hfits'.le, hs1, hp.isNone_strstr, hcall2,
      hmem2, hadded2, toNat_ofNat_length hfits.le]
    rw [assertMsg_of (decide_eq_true ht), assertMsg_of (decide_eq_true hfits'), assertMsg_of rfl,
      assertMsg_of (decide_eq_true hfits)]
    rfl
  · rcases List.mem_append.mp hq with hq | hq
    · exact h.clean q hq
    · rwa [List.mem_singleton.mp hq]

end Push

/-! ## A pop -/

section Pop

variable {stack : List CString} {prefixes rest : List (BitVec 8)}

/-- The step from a prefix to the one behind it. -/
theorem nextPrefix_eq (pre : List CString) {p : CString} (hp : Clean p) (l : List CString) :
    nextPrefix (prefixText (pre ++ p :: l) ++ 0 :: rest) (prefixText pre).length =
      .ok (prefixText (pre ++ [p])).length := by
  have hs : stringAt (prefixText (pre ++ p :: l) ++ 0 :: rest) (prefixText pre).length =
      .ok (prefixText (p :: l)) := by
    rw [prefixText_append, List.append_assoc]
    exact stringAt_append _ _ _ (zero_notMem_prefixText _)
  rw [nextPrefix, hs, stop_ok_bind, prefixText_cons, strstr_delimiter _ _ hp, prefixText_append,
    prefixText_singleton, List.length_append, List.length_append, ← Nat.add_assoc]
  rfl

/-- The text is empty if and only if the stack is. -/
theorem deref_prefixText (l : List CString) :
    deref (prefixText l ++ 0 :: rest) ≠ 0 ↔ l ≠ [] := by
  cases hl : prefixText l with
  | nil => exact iff_of_false (fun h => h rfl) (not_not.mpr (prefixText_eq_nil_iff.mp hl))
  | cons c t =>
    have hc : c ≠ 0 := fun h => zero_notMem_prefixText l (by rw [hl, h]; exact List.mem_cons_self)
    exact iff_of_true hc fun h => List.cons_ne_nil c t (hl.symm.trans (prefixText_eq_nil_iff.mpr h))

/-- What the loop sees behind a prefix : the next one, or the NUL. -/
theorem getD_prefixText (rest : List (BitVec 8)) (pre l : List CString) :
    (prefixText (pre ++ l) ++ 0 :: rest).getD (prefixText pre).length 0 =
      deref (prefixText l ++ 0 :: rest) := by
  rw [prefixText_append, List.append_assoc, List.getD_eq_getElem?_getD,
    List.getElem?_append_right le_rfl, Nat.sub_self, ← List.head?_eq_getElem?,
    ← List.headD_eq_head?_getD]
  rfl

/-- One turn of the loop. -/
theorem loop_turn (pre : List CString) {p : CString} (hp : Clean p) (l : List CString) (fuel : ℕ) :
    reportPrefixPop.loop (prefixText (pre ++ p :: l) ++ 0 :: rest) (fuel + 1)
        (prefixText pre).length =
      if l ≠ [] then
        reportPrefixPop.loop (prefixText (pre ++ p :: l) ++ 0 :: rest) fuel
          (prefixText (pre ++ [p])).length
      else .ok (prefixText pre).length := by
  have hsplit : pre ++ p :: l = (pre ++ [p]) ++ l := List.append_cons pre p l
  have hget := getD_prefixText rest (pre ++ [p]) l
  have hlt : (prefixText (pre ++ [p])).length
      < (prefixText (pre ++ p :: l) ++ 0 :: rest).length := by
    rw [hsplit, prefixText_append (pre ++ [p]), List.length_append, List.length_append,
      List.length_cons]
    omega
  rw [reportPrefixPop.loop, nextPrefix_eq pre hp, stop_ok_bind, if_pos hlt]
  rw [← hsplit] at hget
  rw [hget]
  exact if_congr (deref_prefixText l) rfl rfl

/-- The loop stops at the last prefix. By induction on the prefixes behind the first one. -/
theorem loop_prefixText (rest : List (BitVec 8)) (pre : List CString) (p : CString)
    (l : List CString) (fuel : ℕ)
    (hclean : ∀ q ∈ p :: l, Clean q) (hfuel : l.length < fuel) :
    reportPrefixPop.loop (prefixText (pre ++ p :: l) ++ 0 :: rest) fuel (prefixText pre).length =
      .ok (prefixText (pre ++ (p :: l).dropLast)).length := by
  obtain ⟨fuel, rfl⟩ := Nat.exists_eq_succ_of_ne_zero (Nat.ne_zero_of_lt hfuel)
  rw [loop_turn pre (hclean p List.mem_cons_self)]
  induction l generalizing pre p fuel with
  | nil => rw [if_neg (not_not.mpr rfl), List.dropLast_singleton, List.append_nil]
  | cons q l ih =>
    rw [List.length_cons] at hfuel
    obtain ⟨fuel, rfl⟩ := Nat.exists_eq_succ_of_ne_zero (show fuel ≠ 0 by omega)
    have hclean' : ∀ r ∈ q :: l, Clean r := fun r hr => hclean r (List.mem_cons_of_mem p hr)
    have hsplit (m : List CString) : pre ++ p :: m = pre ++ [p] ++ m := List.append_cons pre p m
    rw [if_pos (List.cons_ne_nil q l), List.dropLast_cons_cons, hsplit (q :: l),
      hsplit (q :: l).dropLast, loop_turn _ (hclean' q List.mem_cons_self)]
    exact ih (pre ++ [p]) q hclean' fuel (by omega)

theorem length_le_prefixText (stack : List CString) : stack.length ≤ (prefixText stack).length := by
  induction stack with
  | nil => exact le_rfl
  | cons p stack ih =>
    rw [prefixText_cons, List.length_append, List.length_append, List.length_cons]
    have : prefixDelimiter.bytes.length = 2 := rfl
    omega

/-- The cut behind the prefixes that stay. -/
theorem set_prefixText (rest : List (BitVec 8)) (s : List CString) (p : CString) :
    ∃ rest', (prefixText (s ++ [p]) ++ 0 :: rest).set (prefixText s).length 0 =
      prefixText s ++ 0 :: rest' := by
  obtain ⟨c, t, ht⟩ : ∃ c t, prefixText [p] ++ 0 :: rest = c :: t :=
    List.exists_cons_of_ne_nil (by simp)
  rw [prefixText_append, List.append_assoc, ht, List.set_append_right _ _ le_rfl, Nat.sub_self]
  exact ⟨t, rfl⟩

/-- A pop takes the last prefix off the text, and does nothing on the empty stack. -/
theorem holds_pop (h : Holds stack prefixes) :
    ∃ prefixes', reportPrefixPop prefixes = .ok prefixes' ∧ Holds stack.dropLast prefixes' ∧
      (stack = [] → prefixes' = prefixes) := by
  obtain ⟨rest, rfl⟩ := h.text
  cases stack with
  | nil => exact ⟨_, rfl, h, fun _ => rfl⟩
  | cons p l =>
    have hlen := h.length_eq
    have hfuel : l.length < prefixesSize := by
      have := length_le_prefixText (p :: l)
      rw [List.length_append, List.length_cons] at hlen
      rw [List.length_cons] at this
      omega
    have hloop := loop_prefixText rest [] p l prefixesSize h.clean hfuel
    obtain ⟨rest', hset⟩ := set_prefixText rest (p :: l).dropLast
      ((p :: l).getLast (List.cons_ne_nil p l))
    rw [List.dropLast_append_getLast] at hset
    refine ⟨prefixText (p :: l).dropLast ++ 0 :: rest', ?_, ⟨?_, ⟨rest', rfl⟩, fun q hq => ?_⟩,
      fun hnil => absurd hnil (List.cons_ne_nil p l)⟩
    · rw [reportPrefixPop, if_neg ((deref_prefixText _).mpr (List.cons_ne_nil p l)), ← hset]
      exact congrArg (· >>= fun q => Except.ok (List.set _ q 0)) hloop
    · rw [← hset, List.length_set, hlen]
    · exact h.clean q (List.mem_of_mem_dropLast hq)

end Pop

/-! ## Runs -/

section Run

variable {w : ℕ}

theorem holds_init : Holds [] (List.replicate prefixesSize 0) where
  length_eq := List.length_replicate
  text := ⟨List.replicate (prefixesSize - 1) 0, rfl⟩
  clean := fun _ hp => absurd hp List.not_mem_nil

/-- Calls from any buffer that holds a stack. -/
theorem holds_foldlM (ops : List (Op w)) {stack : List CString} {prefixes : List (BitVec 8)}
    (h : Holds stack prefixes) (hfits : Fits stack ops) :
    ∃ prefixes', ops.foldlM step prefixes = .ok prefixes' ∧
      Holds (ops.foldl stackStep stack) prefixes' := by
  induction ops generalizing stack prefixes with
  | nil => exact ⟨prefixes, rfl, h⟩
  | cons op ops ih =>
    cases op with
    | push a p =>
      obtain ⟨hp, hlen, hfits⟩ := hfits
      obtain ⟨prefixes', hstep, h'⟩ := holds_push a h hp hlen
      obtain ⟨prefixes'', hrun, h''⟩ := ih h' hfits
      exact ⟨prefixes'', by rw [List.foldlM_cons, step, hstep, stop_ok_bind, hrun], h''⟩
    | pop =>
      obtain ⟨prefixes', hstep, h', -⟩ := holds_pop h
      obtain ⟨prefixes'', hrun, h''⟩ := ih h' hfits
      exact ⟨prefixes'', by rw [List.foldlM_cons, step, hstep, stop_ok_bind, hrun], h''⟩

/-- The text in the buffer is that of the stack, after any calls whose texts fit. A pop on the empty
stack leaves the buffer as it is. -/
theorem run_prefixText (ops : List (Op w)) (hfits : Fits [] ops) :
    ∃ prefixes, run ops = .ok prefixes ∧ prefixes.length = prefixesSize ∧
      stringAt prefixes 0 = .ok (prefixText (ops.foldl stackStep [])) ∧
      (ops.foldl stackStep [] = [] → reportPrefixPop prefixes = .ok prefixes) := by
  obtain ⟨prefixes, hrun, h⟩ := holds_foldlM ops holds_init hfits
  obtain ⟨rest, hrest⟩ := h.text
  refine ⟨prefixes, hrun, h.length_eq, ?_, fun hnil => ?_⟩
  · rw [hrest]
    exact stringAt_append [] _ rest (zero_notMem_prefixText _)
  · obtain ⟨prefixes', hpop, -, hsame⟩ := holds_pop h
    rw [hpop, hsame hnil]

/-- Pushes of `":"`, `" :"` and `""`, and a pop : the delimiters are seen nowhere else. -/
def seamOps : List (Op 64) :=
  [.push 0 ⟨[0x3a], by decide⟩, .push 0 ⟨[0x20, 0x3a], by decide⟩, .push 0 ⟨[], by decide⟩, .pop]

theorem run_prefixText_seams :
    ∃ prefixes, run seamOps = .ok prefixes ∧ prefixes.length = prefixesSize ∧
      stringAt prefixes 0 = .ok (prefixText (seamOps.foldl stackStep [])) ∧
      (seamOps.foldl stackStep [] = [] → reportPrefixPop prefixes = .ok prefixes) :=
  run_prefixText seamOps ⟨by decide, by decide, by decide, by decide, by decide, by decide, trivial⟩

example : prefixText (seamOps.foldl stackStep []) = [0x3a, 0x3a, 0x20, 0x20, 0x3a, 0x3a, 0x20] :=
  rfl

end Run

end ReportPrefix

end AcrnUt
