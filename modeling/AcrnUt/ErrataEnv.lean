import AcrnUt.Sections
import Mathlib.Data.List.TakeWhile
import Mathlib.Data.Prod.Lex
import Mathlib.Tactic

/-!
# Errata by kernel version

`env_generate_errata` of `scripts/arch-run.bash` exports, for each line of `errata.txt`, whether
the running kernel has the fix. Version strings are split by `read` at `'.'` and `'-'`, and the
parts are compared by `(( ))`, where a number with a leading zero is octal, and a patchlevel
with a suffix is an expression. The nested tests are the lexicographic order where the numbers
are read as they are written, but for a kernel without a sublevel they do not look at the suffix
of the minimum (`ErrataEnv.envGenerateErrata_spec`).
-/

set_option linter.unusedSectionVars false

namespace AcrnUt

namespace ErrataEnv

/-! ## What the shell does with a text -/

/-- A word up to `sep`, and what is behind that. -/
def splitField (sep : Char) (s : List Char) : List Char × List Char :=
  (s.takeWhile (· ≠ sep), (s.dropWhile (· ≠ sep)).tail)

/-- The last variable of `read` : all that is left, but not a delimiter that only ends a word. -/
def lastField (sep : Char) (s : List Char) : List Char :=
  if (splitField sep s).2 = [] then (splitField sep s).1 else s

/-- `IFS=sep read -r a b`. -/
def read2 (sep : Char) (s : List Char) : List Char × List Char :=
  ((splitField sep s).1, lastField sep (splitField sep s).2)

/-- `IFS=sep read -r a b c`. -/
def read3 (sep : Char) (s : List Char) : List Char × List Char × List Char :=
  ((splitField sep s).1, read2 sep (splitField sep s).2)

/-- `[0-9]`. -/
def isDigit (c : Char) : Bool :=
  '0' ≤ c ∧ c ≤ '9'

/-- `${s%%[!0-9]*}`. -/
def leadingDigits (s : List Char) : List Char :=
  s.takeWhile isDigit

/-- `[[ $s =~ ^[0-9]+$ ]]`. -/
def allDigits (s : List Char) : Bool :=
  s ≠ [] ∧ s.all isDigit

/-- Digits as a number of base `b`. -/
def digitsValue (b : ℕ) (s : List Char) : ℕ :=
  s.foldl (fun n c => b * n + (c.toNat - '0'.toNat)) 0

/-- A constant of an arithmetic expression, if its digits are those of its base. There is no check
for overflow. -/
def constant (s : List Char) : Option ℤ :=
  if s.head? = some '0' then
    if s.all (· < '8') then some (BitVec.ofNat 64 (digitsValue 8 s)).toInt else none
  else some (BitVec.ofNat 64 (digitsValue 10 s)).toInt

/-- The value of an operand of `(( ))` : a constant, or the text of an expression, whose value is
`expr`. There is none if it is not a correct one. -/
def operand (expr : List Char → Option ℤ) (s : List Char) : Option ℤ :=
  if allDigits s then constant s else expr s

/-! ## The code -/

/-- The parts of a version string. -/
structure Fields where
  version : List Char
  patchlevel : List Char
  sublevel : List Char
  extraversion : List Char

/-- The two `read`s of the first line, and the cuts behind the digits. -/
def versionFields (s : List Char) : Fields :=
  let r := read3 '.' (s.takeWhile (· ≠ '\n'))
  let r' := read2 '-' r.2.2
  ⟨r.1, r.2.1, leadingDigits r'.1, leadingDigits r'.2⟩

section Have

variable (expr : List Char → Option ℤ)

/-- `(( a ))`, for a test of two operands. -/
def test (p : ℤ → ℤ → Bool) (a b : List Char) : Bool :=
  match operand expr a, operand expr b with
  | some a, some b => p a b
  | _, _ => false

/-- `(( a op c && b op' d ))` and the like, for a test of four operands. -/
def test4 (p : ℤ → ℤ → ℤ → ℤ → Bool) (a b c d : List Char) : Bool :=
  match operand expr a, operand expr b, operand expr c, operand expr d with
  | some a, some b, some c, some d => p a b c d
  | _, _, _, _ => false

/-- The tests behind equal sublevels. -/
def haveExtraversion (k m : Fields) : Bool :=
  if k.extraversion ≠ [] ∧ m.extraversion ≠ [] then
    if test expr (· ≥ ·) k.extraversion m.extraversion then true else false
  else if m.extraversion ≠ [] ∧ test expr (· != ·) m.extraversion ['0'] then false
  else true

/-- The tests behind an equal version and patchlevel. -/
def haveSublevel (k m : Fields) : Bool :=
  if k.sublevel ≠ [] ∧ m.sublevel ≠ [] then
    if test expr (· > ·) k.sublevel m.sublevel then true
    else if test expr (· == ·) k.sublevel m.sublevel then haveExtraversion expr k m
    else false
  else if m.sublevel ≠ [] ∧ test expr (· != ·) m.sublevel ['0'] then false
  else true

/-- The nested tests of `env_generate_errata`. -/
def haveErratum (k m : Fields) : Bool :=
  if test4 expr (fun kv v kp p => kv > v || kv == v && kp > p)
      k.version m.version k.patchlevel m.patchlevel then true
  else if test4 expr (fun kv v kp p => kv == v && kp == p)
      k.version m.version k.patchlevel m.patchlevel then haveSublevel expr k m
  else false

end Have

/-- `cut -d: -f1,2`. -/
def cutFields (l : List Char) : List Char :=
  let r := l.dropWhile (· ≠ ':')
  if r = [] then l else l.takeWhile (· ≠ ':') ++ ':' :: r.tail.takeWhile (· ≠ ':')

/-- The words that the loop goes over : lines that are no comment, without blanks. -/
def errataWords (text : List Char) : List (List Char) :=
  (((allLines text).filter (·.head? ≠ some '#')).map fun l =>
    cutFields (l.filter fun c => c ≠ ' ' ∧ c ≠ '\t')).filter (· ≠ [])

/-- `${line%:*}`. -/
def commitOf (line : List Char) : List Char :=
  if ':' ∈ line then (line.reverse.dropWhile (· ≠ ':')).tail.reverse else line

/-- `${line#*:}`. -/
def minverOf (line : List Char) : List Char :=
  if ':' ∈ line then (line.dropWhile (· ≠ ':')).tail else line

/-- `"ERRATA_$commit"`. -/
def errataName (commit : List Char) : List Char :=
  "ERRATA_".toList ++ commit

/-- The value of `have`. -/
def haveText (b : Bool) : List Char :=
  if b then ['y'] else ['n']

/-- The variables of the shell. One that is not set has no text. -/
abbrev Env := List Char → List Char

/-- The tests of a minimum version : its version and its patchlevel are numbers. -/
def goodMinver (minver : List Char) : Bool :=
  allDigits (versionFields minver).version && allDigits (versionFields minver).patchlevel

/-- The loop over the words : the variables behind it, and the message and the failure for a bad
minimum version. -/
def errataLoop (expr : List Char → Option ℤ) (k : Fields) (env : Env) :
    List (List Char) → Env × Option (List Char)
  | [] => (env, none)
  | line :: lines =>
    let commit := commitOf line
    let minver := minverOf line
    if commit = [] then errataLoop expr k env lines
    else if env (errataName commit) ≠ [] then errataLoop expr k env lines
    else if !goodMinver minver then (env, some minver)
    else
      errataLoop expr k
        (Function.update env (errataName commit)
          (haveText (haveErratum expr k (versionFields minver)))) lines

/-- `env_generate_errata`, for what `uname -r` prints and the text of `$ERRATATXT`, if there is that
file. -/
def envGenerateErrata (expr : List Char → Option ℤ) (uname environDefault : List Char)
    (errataTxt : Option (List Char)) (env : Env) : Env × Option (List Char) :=
  let k := versionFields uname
  if environDefault ≠ "yes".toList then (env, none)
  else
    match errataTxt with
    | none => (env, none)
    | some text => errataLoop expr k env (errataWords text)

/-! ## Versions -/

/-- Digits, at least one. -/
structure Numeral where
  digits : List Char
  ne_nil : digits ≠ []
  isDigit_of_mem : ∀ c ∈ digits, isDigit c = true

/-- The number that is written. -/
def Numeral.value (d : Numeral) : ℕ :=
  digitsValue 10 d.digits

/-- The shell reads the number that is written. -/
def Numeral.Plain (d : Numeral) : Prop :=
  constant d.digits = some (d.value : ℤ)

/-- A running kernel's version `V.P[.S][-X...]`, in one line. What is behind the `'-'` may begin
with other characters than digits, and then there is no `X`. -/
structure KernelVersion where
  version : Numeral
  patchlevel : Numeral
  sublevel : Option Numeral
  suffix : Option (List Char)
  newline_notMem : ∀ t ∈ suffix, '\n' ∉ t

/-- A minimum version `v.p[.s][-x]`. -/
structure MinVersion where
  version : Numeral
  patchlevel : Numeral
  sublevel : Option Numeral
  extraversion : Option Numeral

/-- An optional part and the character before it. -/
def optional (sep : Char) : Option (List Char) → List Char
  | none => []
  | some s => sep :: s

/-- The version string. -/
def KernelVersion.text (k : KernelVersion) : List Char :=
  k.version.digits ++ '.' :: k.patchlevel.digits ++
    optional '.' (k.sublevel.map (·.digits)) ++ optional '-' k.suffix

theorem Numeral.notMem {c : Char} (hc : isDigit c = false) (d : Numeral) : c ∉ d.digits := fun h =>
  Bool.false_ne_true (hc.symm.trans (d.isDigit_of_mem c h))

/-- A minimum version as one that a kernel may have. -/
def MinVersion.toKernel (m : MinVersion) : KernelVersion where
  version := m.version
  patchlevel := m.patchlevel
  sublevel := m.sublevel
  suffix := m.extraversion.map (·.digits)
  newline_notMem := by
    intro t ht
    obtain ⟨x, -, rfl⟩ := Option.map_eq_some_iff.mp ht
    exact x.notMem rfl

/-- The version string. -/
def MinVersion.text (m : MinVersion) : List Char :=
  m.toKernel.text

/-- The number at the start of a text, if there is one. -/
def leadingNumeral (s : List Char) : Option Numeral :=
  if h : leadingDigits s ≠ [] then
    some ⟨leadingDigits s, h, fun _ hc => List.mem_takeWhile_imp hc⟩
  else none

/-- `X`, if it is there. -/
def KernelVersion.extraversion (k : KernelVersion) : Option Numeral :=
  k.suffix.bind leadingNumeral

/-- The digits of a part, none if it is missing. -/
def partDigits (o : Option Numeral) : List Char :=
  (o.map (·.digits)).getD []

/-- The number of a part, 0 if it is missing. -/
def partValue (o : Option Numeral) : ℕ :=
  (o.map (·.value)).getD 0

/-- Four numbers, in lexicographic order. -/
abbrev Version := ℕ ×ₗ ℕ ×ₗ ℕ ×ₗ ℕ

/-- `(V,P,S,X)`, with 0 for what is missing. -/
def KernelVersion.numbers (k : KernelVersion) : Version :=
  toLex (k.version.value, toLex (k.patchlevel.value, toLex
    (partValue k.sublevel, partValue k.extraversion)))

/-- `(v,p,s,x)`, with 0 for what is missing. -/
def MinVersion.numbers (m : MinVersion) : Version :=
  toLex (m.version.value, toLex (m.patchlevel.value, toLex
    (partValue m.sublevel, partValue m.extraversion)))

/-- The shell reads the number of a part as it is written, if it is there. -/
def PartPlain (o : Option Numeral) : Prop :=
  ∀ d ∈ o, d.Plain

/-- The part of a patchlevel that is read is a number. -/
def KernelVersion.PatchlevelIsNumber (k : KernelVersion) : Prop :=
  k.sublevel.isSome ∨ k.suffix = none

/-- For equal versions and patchlevels : the sublevels are read as they are written, and those
of the suffixes that are compared, and the minimum has no suffix that counts if the kernel has
no sublevel. -/
def SublevelsRight (k : KernelVersion) (m : MinVersion) : Prop :=
  m.sublevel.isSome →
    PartPlain k.sublevel ∧ PartPlain m.sublevel ∧
      (partValue k.sublevel = partValue m.sublevel →
        if k.sublevel.isSome then
          m.extraversion.isSome → PartPlain k.extraversion ∧ PartPlain m.extraversion
        else partValue m.extraversion = 0)

/-- The numbers that decide are read as they are written, and they are all looked at. -/
structure ReadsRight (k : KernelVersion) (m : MinVersion) : Prop where
  patchlevel : k.PatchlevelIsNumber
  minPatchlevel : m.toKernel.PatchlevelIsNumber
  plain : k.version.Plain ∧ m.version.Plain ∧ k.patchlevel.Plain ∧ m.patchlevel.Plain
  sublevels : k.version.value = m.version.value → k.patchlevel.value = m.patchlevel.value →
    SublevelsRight k m

/-! ## What is read of a version -/

section Parse

variable {sep : Char} {a b s : List Char}

theorem splitField_of_notMem (h : sep ∉ a) : splitField sep a = (a, []) := by
  have hne : ∀ c ∈ a, decide (c ≠ sep) = true := fun c hc => decide_eq_true fun h' => h (h' ▸ hc)
  rw [splitField, List.takeWhile_eq_self_iff.mpr hne, List.dropWhile_eq_nil_iff.mpr hne,
    List.tail_nil]

theorem splitField_append (h : sep ∉ a) (b : List Char) :
    splitField sep (a ++ sep :: b) = (a, b) := by
  have hne : ∀ c ∈ a, decide (c ≠ sep) = true := fun c hc => decide_eq_true fun h' => h (h' ▸ hc)
  have hsep : decide (sep ≠ sep) = false := decide_eq_false (not_not.mpr rfl)
  rw [splitField, List.takeWhile_append_of_pos hne, List.dropWhile_append_of_pos hne,
    List.takeWhile_cons, List.dropWhile_cons, hsep]
  simp

theorem lastField_of_notMem (h : sep ∉ a) : lastField sep a = a := by
  rw [lastField, splitField_of_notMem h, if_pos rfl]

theorem lastField_eq (sep : Char) (s : List Char) :
    lastField sep s = s ∨ lastField sep s = s.takeWhile (· ≠ sep) := by
  rw [lastField]
  split_ifs
  · exact .inr rfl
  · exact .inl rfl

theorem leadingDigits_takeWhile (hsep : isDigit sep = false) (s : List Char) :
    leadingDigits (s.takeWhile (· ≠ sep)) = leadingDigits s := by
  rw [leadingDigits, leadingDigits, List.takeWhile_takeWhile]
  congr 1
  refine funext fun c => Bool.eq_iff_iff.mpr (decide_eq_true_iff.trans ⟨fun h => h.1, fun h => ?_⟩)
  exact ⟨h, decide_eq_true fun hc => Bool.false_ne_true (hsep.symm.trans (hc ▸ h))⟩

theorem leadingDigits_lastField (hsep : isDigit sep = false) (s : List Char) :
    leadingDigits (lastField sep s) = leadingDigits s := by
  rcases lastField_eq sep s with h | h
  · rw [h]
  · rw [h, leadingDigits_takeWhile hsep]

theorem partDigits_leadingNumeral (s : List Char) :
    partDigits (leadingNumeral s) = leadingDigits s := by
  rw [leadingNumeral]
  by_cases h : leadingDigits s ≠ []
  · rw [dif_pos h]
    rfl
  · rw [dif_neg h]
    exact (not_not.mp h).symm

theorem Numeral.leadingDigits_eq (d : Numeral) : leadingDigits d.digits = d.digits :=
  List.takeWhile_eq_self_iff.mpr d.isDigit_of_mem

theorem Numeral.allDigits_eq (d : Numeral) : allDigits d.digits = true :=
  decide_eq_true ⟨d.ne_nil, List.all_eq_true.mpr d.isDigit_of_mem⟩

theorem takeWhile_append_cons (h : sep ∉ a) {c : Char} (hc : c ≠ sep) (b : List Char) :
    (a ++ c :: b).takeWhile (· ≠ sep) = a ++ c :: b.takeWhile (· ≠ sep) := by
  have hne : ∀ c ∈ a, decide (c ≠ sep) = true := fun c hc => decide_eq_true fun h' => h (h' ▸ hc)
  rw [List.takeWhile_append_of_pos hne, List.takeWhile_cons_of_pos (by simpa using hc)]

/-- What is left behind two words, cut at the first `'-'` : a delimiter at its end does not
matter. -/
theorem read2_lastField {d : List Char} (hdot : '.' ∉ d) (hdash : '-' ∉ d) (t : List Char) :
    (read2 '-' (lastField '.' (d ++ '-' :: t))).1 = d ∧
      leadingDigits (read2 '-' (lastField '.' (d ++ '-' :: t))).2 = leadingDigits t := by
  have hread (u : List Char) : (read2 '-' (d ++ '-' :: u)).1 = d ∧
      leadingDigits (read2 '-' (d ++ '-' :: u)).2 = leadingDigits u := by
    rw [read2, splitField_append hdash]
    exact ⟨rfl, leadingDigits_lastField rfl u⟩
  have hdigit : isDigit '.' = false := rfl
  rcases lastField_eq '.' (d ++ '-' :: t) with h | h
  · rw [h]
    exact hread t
  · rw [h, takeWhile_append_cons hdot (by decide), ← leadingDigits_takeWhile hdigit t]
    exact hread _

theorem mem_optional {c sep : Char} {o : Option (List Char)} (h : c ∈ optional sep o) :
    c = sep ∨ ∃ t ∈ o, c ∈ t := by
  cases o with
  | none => exact absurd h List.not_mem_nil
  | some t => exact (List.mem_cons.mp h).imp_right fun h => ⟨t, rfl, h⟩

/-- The characters of a version string. -/
theorem KernelVersion.notMem_text (k : KernelVersion) {c : Char} (hdigit : isDigit c = false)
    (hdot : c ≠ '.') (hdash : c ≠ '-') (hsuffix : ∀ t ∈ k.suffix, c ∉ t) : c ∉ k.text := by
  intro h
  rw [text, List.append_assoc, List.append_assoc, List.mem_append, List.cons_append, List.mem_cons,
    List.mem_append, List.mem_append] at h
  rcases h with h | h | h | h | h
  · exact k.version.notMem hdigit h
  · exact hdot h
  · exact k.patchlevel.notMem hdigit h
  · rcases mem_optional h with h | ⟨t, ht, h⟩
    · exact hdot h
    · obtain ⟨d, -, rfl⟩ := Option.map_eq_some_iff.mp ht
      exact d.notMem hdigit h
  · rcases mem_optional h with h | ⟨t, ht, h⟩
    · exact hdash h
    · exact hsuffix t ht h

theorem KernelVersion.newline_notMem_text (k : KernelVersion) : '\n' ∉ k.text :=
  k.notMem_text rfl (by decide) (by decide) k.newline_notMem

/-- The version is cut at the first dot. -/
theorem versionFields_of_read2 (k : KernelVersion) {p rest : List Char}
    (h : read2 '.' (k.patchlevel.digits ++ (optional '.' (k.sublevel.map (·.digits)) ++
      optional '-' k.suffix)) = (p, rest)) :
    versionFields k.text = ⟨k.version.digits, p, leadingDigits (read2 '-' rest).1,
      leadingDigits (read2 '-' rest).2⟩ := by
  have hline : k.text.takeWhile (· ≠ '\n') = k.text := List.takeWhile_eq_self_iff.mpr fun c hc =>
    decide_eq_true fun h => k.newline_notMem_text (h ▸ hc)
  rw [versionFields, hline, KernelVersion.text, List.append_assoc, List.append_assoc,
    List.cons_append, read3, splitField_append (k.version.notMem rfl), h]

/-- What is read of a version whose patchlevel is a number. -/
theorem versionFields_text (k : KernelVersion) (h : k.PatchlevelIsNumber) :
    versionFields k.text = ⟨k.version.digits, k.patchlevel.digits, partDigits k.sublevel,
      partDigits k.extraversion⟩ := by
  have hp : '.' ∉ k.patchlevel.digits := k.patchlevel.notMem rfl
  rw [KernelVersion.extraversion]
  cases hs : k.sublevel with
  | none =>
    rw [KernelVersion.PatchlevelIsNumber, hs] at h
    have hsuffix : k.suffix = none := h.resolve_left (by simp)
    have hread : read2 '.' (k.patchlevel.digits ++ (optional '.' (k.sublevel.map (·.digits)) ++
        optional '-' k.suffix)) = (k.patchlevel.digits, []) := by
      rw [hs, hsuffix, Option.map_none, optional, optional, List.append_nil, List.append_nil, read2,
        splitField_of_notMem hp]
      rfl
    rw [versionFields_of_read2 k hread, hsuffix]
    rfl
  | some d =>
    have hread : read2 '.' (k.patchlevel.digits ++ (optional '.' (k.sublevel.map (·.digits)) ++
        optional '-' k.suffix)) =
          (k.patchlevel.digits, lastField '.' (d.digits ++ optional '-' k.suffix)) := by
      rw [hs, Option.map_some, optional, List.cons_append, read2, splitField_append hp]
    rw [versionFields_of_read2 k hread]
    cases k.suffix with
    | none =>
      have hd : read2 '-' (lastField '.' (d.digits ++ optional '-' none)) = (d.digits, []) := by
        rw [optional, List.append_nil, lastField_of_notMem (d.notMem rfl), read2,
          splitField_of_notMem (d.notMem rfl)]
        rfl
      rw [hd, d.leadingDigits_eq]
      rfl
    | some t =>
      obtain ⟨h1, h2⟩ := read2_lastField (d.notMem rfl) (d.notMem rfl) t
      rw [optional, h1, h2, d.leadingDigits_eq, Option.bind_some, partDigits_leadingNumeral]
      rfl

/-- A suffix behind the patchlevel becomes a part of it. -/
theorem patchlevel_text (k : KernelVersion) (h : k.sublevel = none) {t : List Char}
    (ht : k.suffix = some t) :
    ∃ u, (versionFields k.text).patchlevel = k.patchlevel.digits ++ '-' :: u := by
  have hread := versionFields_of_read2 k (Prod.mk.eta.symm)
  refine ⟨t.takeWhile (· ≠ '.'), ?_⟩
  rw [hread, h, ht, Option.map_none, optional, optional, List.nil_append, read2, splitField,
    takeWhile_append_cons (k.patchlevel.notMem rfl) (by decide)]

end Parse

/-! ## The tests -/

section Tests

variable (expr : List Char → Option ℤ)

theorem operand_of_plain {d : Numeral} (h : d.Plain) :
    operand expr d.digits = some (d.value : ℤ) := by
  rw [operand, if_pos d.allDigits_eq, h]

theorem test_of_plain (p : ℤ → ℤ → Bool) {a b : Numeral} (ha : a.Plain) (hb : b.Plain) :
    test expr p a.digits b.digits = p a.value b.value := by
  rw [test, operand_of_plain expr ha, operand_of_plain expr hb]

theorem test_zero_of_plain (p : ℤ → ℤ → Bool) {a : Numeral} (ha : a.Plain) :
    test expr p a.digits ['0'] = p a.value 0 := by
  have hzero : operand expr ['0'] = some 0 := rfl
  rw [test, operand_of_plain expr ha, hzero]

theorem test4_of_plain (p : ℤ → ℤ → ℤ → ℤ → Bool) {a b c d : Numeral} (ha : a.Plain) (hb : b.Plain)
    (hc : c.Plain) (hd : d.Plain) :
    test4 expr p a.digits b.digits c.digits d.digits = p a.value b.value c.value d.value := by
  rw [test4, operand_of_plain expr ha, operand_of_plain expr hb, operand_of_plain expr hc,
    operand_of_plain expr hd]

@[simp] theorem partDigits_some (d : Numeral) : partDigits (some d) = d.digits := rfl

@[simp] theorem partDigits_none : partDigits none = [] := rfl

@[simp] theorem partValue_some (d : Numeral) : partValue (some d) = d.value := rfl

@[simp] theorem partValue_none : partValue none = 0 := rfl

variable {V v P p : List Char} {S s X x : Option Numeral}

/-- Behind equal sublevels : the suffixes, where one that is missing counts as 0. -/
theorem haveExtraversion_eq (h : x.isSome → PartPlain X ∧ PartPlain x) :
    haveExtraversion expr ⟨V, P, partDigits S, partDigits X⟩ ⟨v, p, partDigits s, partDigits x⟩ =
      decide (partValue x ≤ partValue X) := by
  rw [haveExtraversion]
  cases x with
  | none => simp
  | some x =>
    obtain ⟨hX, hx⟩ := h rfl
    cases X with
    | none =>
      simp only [partDigits_some, test_zero_of_plain expr _ (hx x rfl)]
      simp [x.ne_nil]
    | some X =>
      simp only [partDigits_some, test_of_plain expr _ (hX X rfl) (hx x rfl)]
      by_cases hle : x.value ≤ X.value <;> simp [x.ne_nil, X.ne_nil, hle]

/-- What the sublevels and the suffixes ask for. -/
def SublevelGe (S X s x : Option Numeral) : Prop :=
  partValue s < partValue S ∨ partValue s = partValue S ∧ partValue x ≤ partValue X

instance : Decidable (SublevelGe S X s x) :=
  inferInstanceAs (Decidable (_ ∨ _))

/-- Without a sublevel of the minimum there is nothing to ask for. -/
theorem haveSublevel_of_none (S X : Option Numeral) :
    haveSublevel expr ⟨V, P, partDigits S, partDigits X⟩ ⟨v, p, partDigits none, partDigits none⟩ =
      decide (SublevelGe S X none none) := by
  have hge : SublevelGe S X none none :=
    (Nat.eq_zero_or_pos (partValue S)).symm.imp_right fun h => ⟨h.symm, Nat.zero_le _⟩
  rw [decide_eq_true hge]
  simp [haveSublevel]

/-- Without a sublevel of the kernel, that of the minimum is all that is looked at. -/
theorem haveSublevel_of_kernel_none {s : Numeral} (hs : s.Plain) :
    haveSublevel expr ⟨V, P, partDigits none, partDigits X⟩
      ⟨v, p, partDigits (some s), partDigits x⟩ = decide (s.value = 0) := by
  simp only [haveSublevel, partDigits_some, test_zero_of_plain expr _ hs]
  simp [s.ne_nil]

theorem haveSublevel_of_some {S s : Numeral} (hS : S.Plain) (hs : s.Plain)
    (h : S.value = s.value → x.isSome → PartPlain X ∧ PartPlain x) :
    haveSublevel expr ⟨V, P, partDigits (some S), partDigits X⟩
      ⟨v, p, partDigits (some s), partDigits x⟩ = decide (SublevelGe (some S) X (some s) x) := by
  rw [haveSublevel, if_pos ⟨S.ne_nil, s.ne_nil⟩]
  simp only [partDigits_some, test_of_plain expr _ hS hs]
  rcases lt_trichotomy s.value S.value with hlt | heq | hgt
  · simp [SublevelGe, hlt]
  · have hextra := haveExtraversion_eq expr (V := V) (P := P) (v := v) (p := p) (S := some S)
      (s := some s) (h heq.symm)
    rw [partDigits_some, partDigits_some] at hextra
    simp [SublevelGe, heq, hextra]
  · simp [SublevelGe, hgt.not_gt, hgt.ne, hgt.ne']

/-- The version and the patchlevel, and what is behind them. -/
theorem haveErratum_eq {V v P p : Numeral} (hplain : V.Plain ∧ v.Plain ∧ P.Plain ∧ p.Plain)
    (S X s x : List Char) :
    haveErratum expr ⟨V.digits, P.digits, S, X⟩ ⟨v.digits, p.digits, s, x⟩ = true ↔
      v.value < V.value ∨ v.value = V.value ∧ (p.value < P.value ∨ p.value = P.value ∧
        haveSublevel expr ⟨V.digits, P.digits, S, X⟩ ⟨v.digits, p.digits, s, x⟩ = true) := by
  obtain ⟨hV, hv, hP, hp⟩ := hplain
  rw [haveErratum]
  simp only [test4_of_plain expr _ hV hv hP hp]
  rcases lt_trichotomy v.value V.value with hlt | heq | hgt
  · simp [hlt]
  · rcases lt_trichotomy p.value P.value with hlt' | heq' | hgt'
    · simp [heq, hlt']
    · simp [heq, heq']
    · simp [heq, hgt'.not_gt, hgt'.ne, hgt'.ne']
  · simp [hgt.not_gt, hgt.ne, hgt.ne']

end Tests

/-! ## One erratum -/

section Erratum

variable (expr : List Char → Option ℤ) {k : KernelVersion} {m : MinVersion}

theorem numbers_le_iff (k : KernelVersion) (m : MinVersion) :
    m.numbers ≤ k.numbers ↔
      m.version.value < k.version.value ∨ m.version.value = k.version.value ∧
        (m.patchlevel.value < k.patchlevel.value ∨ m.patchlevel.value = k.patchlevel.value ∧
          SublevelGe k.sublevel k.extraversion m.sublevel m.extraversion) := by
  simp only [MinVersion.numbers, KernelVersion.numbers, Prod.Lex.toLex_le_toLex, SublevelGe]

theorem partDigits_toKernel (m : MinVersion) :
    partDigits m.toKernel.extraversion = partDigits m.extraversion := by
  have hsuffix : m.toKernel.suffix = m.extraversion.map (·.digits) := rfl
  rw [KernelVersion.extraversion, hsuffix]
  cases m.extraversion with
  | none => rfl
  | some x =>
    rw [Option.map_some, Option.bind_some, partDigits_leadingNumeral, x.leadingDigits_eq,
      partDigits_some]

/-- What is read of a minimum version whose patchlevel is a number. -/
theorem versionFields_minText (h : m.toKernel.PatchlevelIsNumber) :
    versionFields m.text = ⟨m.version.digits, m.patchlevel.digits, partDigits m.sublevel,
      partDigits m.extraversion⟩ := by
  rw [MinVersion.text, versionFields_text _ h, partDigits_toKernel]
  rfl

theorem extraversion_eq_none (hk : k.PatchlevelIsNumber) (h : k.sublevel = none) :
    k.extraversion = none := by
  rw [KernelVersion.PatchlevelIsNumber, h] at hk
  rw [KernelVersion.extraversion, hk.resolve_left (by simp), Option.bind_none]

theorem minExtraversion_eq_none (hm : m.toKernel.PatchlevelIsNumber) (h : m.sublevel = none) :
    m.extraversion = none := by
  rw [KernelVersion.PatchlevelIsNumber, MinVersion.toKernel, h] at hm
  exact Option.map_eq_none_iff.mp (hm.resolve_left (by simp))

/-- The sublevels are compared as the order asks, if they are read right. -/
theorem haveSublevel_iff (hk : k.PatchlevelIsNumber) (hm : m.toKernel.PatchlevelIsNumber)
    (h : SublevelsRight k m) {V v P p : List Char} :
    haveSublevel expr ⟨V, P, partDigits k.sublevel, partDigits k.extraversion⟩
        ⟨v, p, partDigits m.sublevel, partDigits m.extraversion⟩ = true ↔
      SublevelGe k.sublevel k.extraversion m.sublevel m.extraversion := by
  rw [SublevelsRight] at h
  cases hs : m.sublevel with
  | none => rw [minExtraversion_eq_none hm hs, haveSublevel_of_none, decide_eq_true_iff]
  | some s =>
    rw [hs] at h
    obtain ⟨hplainK, hplainM, heq⟩ := h rfl
    cases hS : k.sublevel with
    | none =>
      rw [hS, if_neg (by simp), partValue_none, partValue_some] at heq
      rw [extraversion_eq_none hk hS, haveSublevel_of_kernel_none expr (hplainM s rfl),
        decide_eq_true_iff, SublevelGe, partValue_some, partValue_none]
      constructor
      · intro hzero
        exact .inr ⟨hzero, (heq hzero.symm).le⟩
      · rintro (hlt | ⟨hzero, -⟩)
        · exact absurd hlt (Nat.not_lt_zero _)
        · exact hzero
    | some S =>
      rw [hS] at heq hplainK
      rw [haveSublevel_of_some expr (hplainK S rfl) (hplainM s rfl) (fun h => by simpa using heq h),
        decide_eq_true_iff]

/-- A version with a number that the shell does not misread. -/
def KernelVersion.AllPlain (k : KernelVersion) : Prop :=
  k.version.Plain ∧ k.patchlevel.Plain ∧ PartPlain k.sublevel ∧ PartPlain k.extraversion

/-- A minimum version whose numbers the shell reads as they are written. -/
def MinVersion.AllPlain (m : MinVersion) : Prop :=
  m.version.Plain ∧ m.patchlevel.Plain ∧ PartPlain m.sublevel ∧ PartPlain m.extraversion

/-- The kernel is at least the minimum, by what the code finds. -/
theorem haveErratum_iff (h : ReadsRight k m) :
    haveErratum expr (versionFields k.text) (versionFields m.text) = true ↔
      m.numbers ≤ k.numbers := by
  rw [versionFields_text k h.patchlevel, versionFields_minText h.minPatchlevel,
    haveErratum_eq expr h.plain, numbers_le_iff]
  refine or_congr_right (and_congr_right fun hv => or_congr_right (and_congr_right fun hp => ?_))
  exact haveSublevel_iff expr h.patchlevel h.minPatchlevel (h.sublevels hv.symm hp.symm)

/-- Where no number is misread, the answer is right only if all numbers are looked at. -/
theorem readsRight_of_haveErratum (hk : k.AllPlain) (hm : m.AllPlain) (hnum : k.PatchlevelIsNumber)
    (hmin : m.toKernel.PatchlevelIsNumber)
    (h : haveErratum expr (versionFields k.text) (versionFields m.text) = true ↔
      m.numbers ≤ k.numbers) : ReadsRight k m := by
  have hplain : k.version.Plain ∧ m.version.Plain ∧ k.patchlevel.Plain ∧ m.patchlevel.Plain :=
    ⟨hk.1, hm.1, hk.2.1, hm.2.1⟩
  refine ⟨hnum, hmin, hplain, fun hv hp hs => ⟨hk.2.2.1, hm.2.2.1, fun heq => ?_⟩⟩
  split_ifs with hS
  · exact fun _ => ⟨hk.2.2.2, hm.2.2.2⟩
  -- the kernel has no sublevel, and that of the minimum is 0 : the answer is yes
  · have hS : k.sublevel = none := by simpa using hS
    obtain ⟨s, hs⟩ := Option.isSome_iff_exists.mp hs
    rw [hS, hs, partValue_none, partValue_some] at heq
    rw [versionFields_text k hnum, versionFields_minText hmin, haveErratum_eq expr hplain,
      numbers_le_iff, hS, hs, haveSublevel_of_kernel_none expr (hm.2.2.1 s hs),
      extraversion_eq_none hnum hS, SublevelGe, partValue_none, partValue_some] at h
    have hge := h.mp (.inr ⟨hv.symm, .inr ⟨hp.symm, decide_eq_true heq.symm⟩⟩)
    omega

end Erratum

/-! ## The words before an erratum -/

section Loop

variable (expr : List Char → Option ℤ) (k : Fields)

/-- No word of these ends the loop : the first one of each commit whose variable is not set has
a good minimum version. -/
def Accepts (env : Env) (words : List (List Char)) : Prop :=
  ∀ l w r, words = l ++ w :: r → commitOf w ≠ [] → env (errataName (commitOf w)) = [] →
    (∀ u ∈ l, commitOf u ≠ commitOf w) → goodMinver (minverOf w) = true

theorem errataName_injective : Function.Injective errataName :=
  fun _ _ h => List.append_cancel_left h

theorem haveText_ne_nil (b : Bool) : haveText b ≠ [] := by
  cases b <;> exact List.cons_ne_nil _ _

theorem haveText_injective : Function.Injective haveText := by
  intro a b h
  cases a <;> cases b <;> first | rfl | exact absurd h (by decide)

/-- A word that is passed over. -/
def Skipped (env : Env) (w : List Char) : Prop :=
  commitOf w = [] ∨ env (errataName (commitOf w)) ≠ []

theorem errataLoop_of_skipped {env : Env} {w : List Char} (h : Skipped env w)
    (ws : List (List Char)) : errataLoop expr k env (w :: ws) = errataLoop expr k env ws := by
  rw [errataLoop]
  by_cases hc : commitOf w = []
  · rw [if_pos hc]
  · rw [if_neg hc, if_pos (h.resolve_left hc)]

theorem errataLoop_of_not_skipped {env : Env} {w : List Char} (h : ¬ Skipped env w)
    (ws : List (List Char)) :
    errataLoop expr k env (w :: ws) =
      if goodMinver (minverOf w) then
        errataLoop expr k (Function.update env (errataName (commitOf w))
          (haveText (haveErratum expr k (versionFields (minverOf w))))) ws
      else (env, some (minverOf w)) := by
  rw [Skipped, not_or] at h
  rw [errataLoop, if_neg h.1, if_neg h.2]
  cases goodMinver (minverOf w) <;> rfl

theorem accepts_of_skipped {env : Env} {w : List Char} (h : Skipped env w)
    (ws : List (List Char)) : Accepts env (w :: ws) ↔ Accepts env ws := by
  have hne {u : List Char} (hu : commitOf u ≠ []) (hset : env (errataName (commitOf u)) = []) :
      commitOf w ≠ commitOf u := fun heq =>
    h.elim (fun hnil => hu (heq ▸ hnil)) fun hset' => hset' (heq ▸ hset)
  constructor
  · rintro hacc l u r rfl hu hset hl
    exact hacc (w :: l) u r rfl hu hset (List.forall_mem_cons.mpr ⟨hne hu hset, hl⟩)
  · intro hacc l u r hlist hu hset hl
    cases l with
    | nil =>
      obtain ⟨rfl, -⟩ := List.cons.inj hlist
      exact absurd rfl (hne hu hset)
    | cons x l =>
      obtain ⟨-, hlist⟩ := List.cons.inj hlist
      exact hacc l u r hlist hu hset (List.forall_mem_cons.mp hl).2

theorem accepts_of_not_skipped {env : Env} {w : List Char} (h : ¬ Skipped env w)
    (ws : List (List Char)) {v : List Char} (hv : v ≠ []) :
    Accepts env (w :: ws) ↔ goodMinver (minverOf w) = true ∧
      Accepts (Function.update env (errataName (commitOf w)) v) ws := by
  rw [Skipped, not_or, not_not] at h
  constructor
  · intro hacc
    refine ⟨hacc [] w ws rfl h.1 h.2 (by simp), ?_⟩
    rintro l u r rfl hu hset hl
    have hne : errataName (commitOf u) ≠ errataName (commitOf w) := fun heq => by
      rw [heq, Function.update_self] at hset
      exact hv hset
    rw [Function.update_of_ne hne] at hset
    exact hacc (w :: l) u r rfl hu hset (List.forall_mem_cons.mpr
      ⟨fun heq => hne (by rw [heq]), hl⟩)
  · rintro ⟨hgood, hacc⟩ l u r hlist hu hset hl
    cases l with
    | nil =>
      obtain ⟨rfl, -⟩ := List.cons.inj hlist
      exact hgood
    | cons x l =>
      obtain ⟨rfl, htail⟩ := List.cons.inj hlist
      obtain ⟨hne, hl⟩ := List.forall_mem_cons.mp hl
      have hname := fun heq => hne (errataName_injective heq).symm
      exact hacc l u r htail hu (by rwa [Function.update_of_ne hname]) hl

/-- A variable that is set keeps its value. -/
theorem errataLoop_of_set (ws : List (List Char)) {env : Env} {name : List Char}
    (h : env name ≠ []) : (errataLoop expr k env ws).1 name = env name := by
  induction ws generalizing env with
  | nil => rfl
  | cons w ws ih =>
    by_cases hskip : Skipped env w
    · rw [errataLoop_of_skipped expr k hskip, ih h]
    · rw [errataLoop_of_not_skipped expr k hskip]
      split_ifs
      · rw [Skipped, not_or, not_not] at hskip
        have hne : name ≠ errataName (commitOf w) := fun hname => h (hname ▸ hskip.2)
        rw [ih (by rwa [Function.update_of_ne hne]), Function.update_of_ne hne]
      · rfl

/-- Words of other commits leave a variable alone. If the loop gets through them, it goes on. -/
theorem errataLoop_append (pre rest : List (List Char)) (env : Env) {commit : List Char}
    (hnew : ∀ w ∈ pre, commitOf w ≠ commit) :
    ∃ env' : Env, env' (errataName commit) = env (errataName commit) ∧
      (Accepts env pre → errataLoop expr k env (pre ++ rest) = errataLoop expr k env' rest) ∧
      (¬ Accepts env pre → (errataLoop expr k env (pre ++ rest)).1 = env') := by
  induction pre generalizing env with
  | nil =>
    refine ⟨env, rfl, fun _ => rfl, fun h => absurd (fun l w r hlist => ?_) h⟩
    exact absurd hlist (by simp)
  | cons w pre ih =>
    have hnew' : ∀ u ∈ pre, commitOf u ≠ commit := fun u hu => hnew u (List.mem_cons_of_mem w hu)
    rw [List.cons_append]
    by_cases hskip : Skipped env w
    · rw [errataLoop_of_skipped expr k hskip, accepts_of_skipped hskip]
      exact ih env hnew'
    · have hname : errataName commit ≠ errataName (commitOf w) := fun heq =>
        hnew w List.mem_cons_self (errataName_injective heq).symm
      have hacc := accepts_of_not_skipped hskip pre
        (haveText_ne_nil (haveErratum expr k (versionFields (minverOf w))))
      rw [errataLoop_of_not_skipped expr k hskip, hacc]
      by_cases hgood : goodMinver (minverOf w) = true
      · obtain ⟨env', hsame, hgo, hstop⟩ := ih (Function.update env (errataName (commitOf w))
          (haveText (haveErratum expr k (versionFields (minverOf w))))) hnew'
        rw [Function.update_of_ne hname] at hsame
        rw [if_pos hgood]
        exact ⟨env', hsame, fun h => hgo h.2, fun h => hstop fun h' => h ⟨hgood, h'⟩⟩
      · rw [if_neg hgood]
        exact ⟨env, rfl, fun h => absurd h.1 hgood, fun _ => rfl⟩

end Loop

/-! ## The function -/

section Main

theorem colon_notMem_text (m : MinVersion) : ':' ∉ m.text := by
  refine m.toKernel.notMem_text rfl (by decide) (by decide) fun t ht => ?_
  obtain ⟨x, -, rfl⟩ := Option.map_eq_some_iff.mp ht
  exact x.notMem rfl

variable {commit minver : List Char}

theorem dropWhile_append_colon {l : List Char} (h : ':' ∉ l) (r : List Char) :
    (l ++ ':' :: r).dropWhile (· ≠ ':') = ':' :: r := by
  have hne : ∀ c ∈ l, decide (c ≠ ':') = true := fun c hc => decide_eq_true fun h' => h (h' ▸ hc)
  rw [List.dropWhile_append_of_pos hne]
  rfl

theorem commitOf_append (hm : ':' ∉ minver) (commit : List Char) :
    commitOf (commit ++ ':' :: minver) = commit := by
  have hm' : ':' ∉ minver.reverse := fun h => hm (List.mem_reverse.mp h)
  rw [commitOf, if_pos (by simp), List.reverse_append, List.reverse_cons, List.append_assoc,
    List.singleton_append, dropWhile_append_colon hm', List.tail_cons, List.reverse_reverse]

theorem minverOf_append (hc : ':' ∉ commit) (minver : List Char) :
    minverOf (commit ++ ':' :: minver) = minver := by
  rw [minverOf, if_pos (by simp), dropWhile_append_colon hc, List.tail_cons]

/-- The minimum version of an erratum is good if its patchlevel is a number. -/
theorem goodMinver_text (m : MinVersion) :
    goodMinver m.text = true ↔ m.toKernel.PatchlevelIsNumber := by
  constructor
  · intro h
    by_contra hnum
    rw [KernelVersion.PatchlevelIsNumber, not_or, Option.not_isSome_iff_eq_none] at hnum
    obtain ⟨t, ht⟩ := Option.ne_none_iff_exists'.mp hnum.2
    obtain ⟨u, hu⟩ := patchlevel_text m.toKernel hnum.1 ht
    rw [goodMinver, MinVersion.text, hu, Bool.and_eq_true, allDigits, allDigits, decide_eq_true_iff,
      decide_eq_true_iff, List.all_append] at h
    simp [isDigit] at h
  · intro hnum
    rw [goodMinver, versionFields_minText hnum, m.version.allDigits_eq, m.patchlevel.allDigits_eq]
    rfl

/-- What `env_generate_errata` exports for an erratum of the file whose variable is not set. The
answer is right if the loop comes to the erratum, and the numbers that decide are read as they are
written and are all looked at. Where no number is misread, it is right only then. -/
theorem envGenerateErrata_spec (expr : List Char → Option ℤ) (k : KernelVersion) (m : MinVersion)
    (text : List Char) (env : Env) (pre post : List (List Char)) (commit : List Char)
    (hwords : errataWords text = pre ++ (commit ++ ':' :: m.text) :: post)
    (hcommit : commit ≠ []) (hcolon : ':' ∉ commit)
    (hunset : env (errataName commit) = []) (hnew : ∀ w ∈ pre, commitOf w ≠ commit) :
    (Accepts env pre ∧ ReadsRight k m →
      (envGenerateErrata expr k.text "yes".toList (some text) env).1 (errataName commit) =
        haveText (decide (m.numbers ≤ k.numbers))) ∧
    (k.AllPlain → m.AllPlain → k.PatchlevelIsNumber →
      (envGenerateErrata expr k.text "yes".toList (some text) env).1 (errataName commit) =
        haveText (decide (m.numbers ≤ k.numbers)) → Accepts env pre ∧ ReadsRight k m) := by
  obtain ⟨env', hsame, hgo, hstop⟩ := errataLoop_append expr (versionFields k.text) pre
    ((commit ++ ':' :: m.text) :: post) env hnew
  have hrun : (envGenerateErrata expr k.text "yes".toList (some text) env).1 =
      (errataLoop expr (versionFields k.text) env
        (pre ++ (commit ++ ':' :: m.text) :: post)).1 := by
    rw [envGenerateErrata, if_neg (not_not.mpr rfl), hwords]
  have hnotSkipped : ¬ Skipped env' (commit ++ ':' :: m.text) := by
    rw [Skipped, commitOf_append (colon_notMem_text m), not_or, not_not, hsame]
    exact ⟨hcommit, hunset⟩
  have hloop := errataLoop_of_not_skipped expr (versionFields k.text) hnotSkipped post
  rw [commitOf_append (colon_notMem_text m), minverOf_append hcolon] at hloop
  have hset (hacc : Accepts env pre) (hgood : goodMinver m.text = true) :
      (envGenerateErrata expr k.text "yes".toList (some text) env).1 (errataName commit) =
        haveText (haveErratum expr (versionFields k.text) (versionFields m.text)) := by
    rw [hrun, hgo hacc, hloop, if_pos hgood, errataLoop_of_set] <;> rw [Function.update_self]
    exact haveText_ne_nil _
  constructor
  · rintro ⟨hacc, hright⟩
    rw [hset hacc ((goodMinver_text m).mpr hright.minPatchlevel)]
    congr 1
    exact Bool.eq_iff_iff.mpr ((haveErratum_iff expr hright).trans decide_eq_true_iff.symm)
  · intro hk hm hnum h
    -- nothing is exported if the loop ends before
    have hacc : Accepts env pre := by
      by_contra hacc
      rw [hrun, hstop hacc, hsame, hunset] at h
      exact haveText_ne_nil _ h.symm
    have hgood : goodMinver m.text = true := by
      by_contra hgood
      rw [hrun, hgo hacc, hloop, if_neg hgood] at h
      exact haveText_ne_nil _ (h.symm.trans (hsame.trans hunset))
    rw [hset hacc hgood] at h
    refine ⟨hacc, readsRight_of_haveErratum expr hk hm hnum ((goodMinver_text m).mp hgood) ?_⟩
    rw [haveText_injective h, decide_eq_true_iff]

/-- A version `5.4.0-42-generic`. -/
def ubuntuKernel : KernelVersion where
  version := ⟨['5'], List.cons_ne_nil _ _, List.all_eq_true.mp rfl⟩
  patchlevel := ⟨['4'], List.cons_ne_nil _ _, List.all_eq_true.mp rfl⟩
  sublevel := some ⟨['0'], List.cons_ne_nil _ _, List.all_eq_true.mp rfl⟩
  suffix := some "42-generic".toList
  newline_notMem := by decide

/-- A minimum version `5.4.0-40`. -/
def minimum5404 : MinVersion where
  version := ⟨['5'], List.cons_ne_nil _ _, List.all_eq_true.mp rfl⟩
  patchlevel := ⟨['4'], List.cons_ne_nil _ _, List.all_eq_true.mp rfl⟩
  sublevel := some ⟨['0'], List.cons_ne_nil _ _, List.all_eq_true.mp rfl⟩
  extraversion := some ⟨['4', '0'], List.cons_ne_nil _ _, List.all_eq_true.mp rfl⟩

/-- A comment and two errata. -/
def sampleErrata : List Char :=
  "# commit : minimum\n7b6b46311a85 : 4.11 : EL1 phys timer\n9e3f7a296940 : 5.4.0-40 : x\n".toList

theorem readsRight_ubuntu : ReadsRight ubuntuKernel minimum5404 where
  patchlevel := .inl rfl
  minPatchlevel := .inl rfl
  plain := ⟨rfl, rfl, rfl, rfl⟩
  sublevels _ _ _ := by
    refine ⟨?_, ?_, fun _ _ => ⟨?_, ?_⟩⟩
    all_goals
      intro d hd
      cases hd
      rfl

theorem accepts_sampleErrata : Accepts (fun _ => []) ["7b6b46311a85:4.11".toList] := by
  intro l w r h _ _ _
  cases l with
  | nil =>
    obtain ⟨rfl, -⟩ := List.cons.inj h
    rfl
  | cons x l => simp at h

/-- The extraversion decides. -/
theorem envGenerateErrata_spec_ubuntu :
    (envGenerateErrata (fun _ => none) ubuntuKernel.text "yes".toList (some sampleErrata)
      fun _ => []).1 (errataName "9e3f7a296940".toList) = haveText true := by
  have hright := (envGenerateErrata_spec (fun _ => none) ubuntuKernel minimum5404 sampleErrata
    (fun _ => []) ["7b6b46311a85:4.11".toList] [] "9e3f7a296940".toList (by decide) (by decide)
    (by decide) rfl (by decide)).1 ⟨accepts_sampleErrata, readsRight_ubuntu⟩
  rwa [show decide (minimum5404.numbers ≤ ubuntuKernel.numbers) = true by decide] at hright

/-- A kernel `4.9`, without a sublevel. -/
def kernel49 : KernelVersion where
  version := ⟨['4'], List.cons_ne_nil _ _, List.all_eq_true.mp rfl⟩
  patchlevel := ⟨['9'], List.cons_ne_nil _ _, List.all_eq_true.mp rfl⟩
  sublevel := none
  suffix := none
  newline_notMem := by simp

/-- A minimum version `4.9.0-3`. -/
def minimum4903 : MinVersion where
  version := ⟨['4'], List.cons_ne_nil _ _, List.all_eq_true.mp rfl⟩
  patchlevel := ⟨['9'], List.cons_ne_nil _ _, List.all_eq_true.mp rfl⟩
  sublevel := some ⟨['0'], List.cons_ne_nil _ _, List.all_eq_true.mp rfl⟩
  extraversion := some ⟨['3'], List.cons_ne_nil _ _, List.all_eq_true.mp rfl⟩

/-- The suffix of the minimum is not looked at, and the answer is yes. -/
theorem envGenerateErrata_noSublevel :
    (envGenerateErrata (fun _ => none) kernel49.text "yes".toList
      (some "9e3f7a296940 : 4.9.0-3 : cycle counter\n".toList) fun _ => []).1
        (errataName "9e3f7a296940".toList) ≠
      haveText (decide (minimum4903.numbers ≤ kernel49.numbers)) := by
  decide

/-- A number with a leading zero is octal. -/
example : constant "041500".toList = some 17216 ∧ constant "040908".toList = none := by
  decide

end Main

end ErrataEnv

end AcrnUt
