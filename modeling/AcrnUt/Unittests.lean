import AcrnUt.Sections
import Mathlib.Data.List.DropRight
import Mathlib.Tactic.Tauto

/-!
# The configuration of the unit tests

`for_each_unittest` of `scripts/common.bash` reads `unittests.cfg` line by line and calls `cmd`
for a section when it comes to the next header, or to the end of the file. `read` fails for a
last line that no newline ends, so such a line is not looked at : the sections are those of the
text if and only if that line would change nothing (`Unittests.forEachUnittest_iff`).
-/

set_option linter.unusedSectionVars false

namespace AcrnUt

namespace Unittests

/-! ## The code -/

/-- The settings of a section, in the order in which they are looked for. -/
inductive Key
  | file | smp | extraParams | groups | arch | check | accel | timeout
deriving DecidableEq

/-- What a setting is called in the file. -/
def Key.name : Key → List Char
  | .file => "file".toList
  | .smp => "smp".toList
  | .extraParams => "extra_params".toList
  | .groups => "groups".toList
  | .arch => "arch".toList
  | .check => "check".toList
  | .accel => "accel".toList
  | .timeout => "timeout".toList

/-- All of them. -/
def keys : List Key :=
  [.file, .smp, .extraParams, .groups, .arch, .check, .accel, .timeout]

/-- The arguments of a call of `cmd`, which are the local variables of `for_each_unittest`. -/
@[ext] structure Call where
  testname : List Char
  groups : List Char
  smp : List Char
  kernel : List Char
  opts : List Char
  arch : List Char
  check : List Char
  accel : List Char
  timeout : List Char
deriving DecidableEq

/-- The variable of a setting. -/
def Call.get (t : Call) : Key → List Char
  | .file => t.kernel
  | .smp => t.smp
  | .extraParams => t.opts
  | .groups => t.groups
  | .arch => t.arch
  | .check => t.check
  | .accel => t.accel
  | .timeout => t.timeout

/-- The assignment of a setting to its variable. -/
def Call.set (t : Call) (k : Key) (v : List Char) : Call :=
  match k with
  | .file => { t with kernel := v }
  | .smp => { t with smp := v }
  | .extraParams => { t with opts := v }
  | .groups => { t with groups := v }
  | .arch => { t with arch := v }
  | .check => { t with check := v }
  | .accel => { t with accel := v }
  | .timeout => { t with timeout := v }

/-- The variables at the start : none of them has a value. -/
def unset : Call :=
  ⟨[], [], [], [], [], [], [], [], []⟩

/-- The variables behind a header. -/
def fresh (testname : List Char) : Call :=
  { unset with testname := testname, smp := ['1'] }

/-- The blanks that `read` takes off a line at both ends. -/
def isIfs (c : Char) : Bool :=
  c = ' ' ∨ c = '\t'

/-- The line that `read -r` stores : without NULs, which no variable can hold, and without blanks at
its ends. -/
def trimLine (l : List Char) : List Char :=
  ((l.filter (· ≠ '\x00')).dropWhile isIfs).rdropWhile isIfs

/-- `^\[(.*)\]$`, with the part in the group. -/
def matchHeader : List Char → Option (List Char)
  | '[' :: l => if l.getLast? = some ']' then some l.dropLast else none
  | _ => none

/-- `^key\ *=\ *(.*)$`, with the part in the group. -/
def matchSetting (key line : List Char) : Option (List Char) :=
  if key <+: line then
    match (line.drop key.length).dropWhile (· = ' ') with
    | '=' :: v => some (v.dropWhile (· = ' '))
    | _ => none
  else none

/-- The setting of a line, and its value. -/
def setting (line : List Char) : Option (Key × List Char) :=
  keys.findSome? fun k => (matchSetting k.name line).map (k, ·)

/-- What is assigned for a value : the file is one of `$TEST_DIR`. -/
def valueOf (testDir : List Char) (k : Key) (v : List Char) : List Char :=
  if k = .file then testDir ++ '/' :: v else v

/-- The branches for the settings. -/
def assign (testDir : List Char) (t : Call) (line : List Char) : Call :=
  match setting line with
  | some (k, v) => t.set k (valueOf testDir k v)
  | none => t

/-- The `while` loop, and the call behind it. `read` fails when it comes to the end of the file
before a newline, whatever it has read. -/
def forEachUnittest.loop (testDir : List Char) (t : Call) (input : List Char) : List Call :=
  let raw := input.takeWhile (· ≠ '\n')
  if raw.length < input.length then
    let line := trimLine raw
    match matchHeader line with
    | some testname =>
      t :: forEachUnittest.loop testDir (fresh testname) (input.drop (raw.length + 1))
    | none => forEachUnittest.loop testDir (assign testDir t line) (input.drop (raw.length + 1))
  else [t]
termination_by input.length
decreasing_by all_goals rw [List.length_drop]; omega

/-- `for_each_unittest`, for the text of the file : the calls of `cmd`. -/
def forEachUnittest (testDir text : List Char) : List Call :=
  forEachUnittest.loop testDir unset text

/-! ## The sections of a text -/

/-- The lines of a text with their blanks taken off. -/
def lines (text : List Char) : List (List Char) :=
  (allLines text).map trimLine

/-- The sections of a text. -/
def sections (text : List Char) : List (List Char × List (List Char)) :=
  (splitSections matchHeader (lines text)).2

/-- The last value that the lines of a section give. -/
def lastValue (k : Key) (ls : List (List Char)) : Option (List Char) :=
  (ls.filterMap (matchSetting k.name)).getLast?

/-- What is passed where a section gives no value. -/
def default (k : Key) : List Char :=
  if k = .smp then ['1'] else []

/-- The call for a section. -/
def callOf (testDir : List Char) (s : List Char × List (List Char)) : Call where
  testname := s.1
  groups := (lastValue .groups s.2).getD (default .groups)
  smp := (lastValue .smp s.2).getD (default .smp)
  kernel := ((lastValue .file s.2).map fun v => testDir ++ '/' :: v).getD (default .file)
  opts := (lastValue .extraParams s.2).getD (default .extraParams)
  arch := (lastValue .arch s.2).getD (default .arch)
  check := (lastValue .check s.2).getD (default .check)
  accel := (lastValue .accel s.2).getD (default .accel)
  timeout := (lastValue .timeout s.2).getD (default .timeout)

/-- What a section has for a setting : a file only if it gives one. -/
def inForce (k : Key) (s : List Char × List (List Char)) : Option (List Char) :=
  (lastValue k s.2).or (if k = .file then none else some (default k))

/-- What is behind the last newline changes nothing : it is no header, and if it sets something in a
section, then to the value that this has there already. -/
def LastLineIdle (text : List Char) : Prop :=
  let last := trimLine (splitLines text).2
  matchHeader last = none ∧
    ∀ s, (splitSections matchHeader ((splitLines text).1.map trimLine)).2.getLast? = some s →
      ∀ k v, matchSetting k.name last = some v → inForce k s = some v

/-! ## The loop over lines -/

section Loop

variable (testDir : List Char)

/-- The calls for lines that have been read. -/
def callsFor (t : Call) : List (List Char) → List Call
  | [] => [t]
  | l :: ls =>
    match matchHeader l with
    | some testname => t :: callsFor (fresh testname) ls
    | none => callsFor (assign testDir t l) ls

/-- A line that is not the rest of the file has a newline behind it. -/
theorem eq_append_newline {input : List Char}
    (h : (input.takeWhile (· ≠ '\n')).length < input.length) :
    input = input.takeWhile (· ≠ '\n') ++
      '\n' :: input.drop ((input.takeWhile (· ≠ '\n')).length + 1) := by
  induction input with
  | nil => exact absurd h (Nat.lt_irrefl _)
  | cons c s ih =>
    by_cases hc : c = '\n'
    · subst hc
      rfl
    · have htake : (c :: s).takeWhile (· ≠ '\n') = c :: s.takeWhile (· ≠ '\n') :=
        List.takeWhile_cons_of_pos (by simpa using hc)
      rw [htake, List.length_cons, List.length_cons] at h
      rw [htake, List.length_cons, List.drop_succ_cons, List.cons_append,
        ← ih (Nat.lt_of_succ_lt_succ h)]

theorem newline_notMem_takeWhile (input : List Char) : '\n' ∉ input.takeWhile (· ≠ '\n') := by
  intro h
  simpa using List.mem_takeWhile_imp h

theorem splitLines_of_lt {input : List Char}
    (h : (input.takeWhile (· ≠ '\n')).length < input.length) :
    (splitLines input).1 = input.takeWhile (· ≠ '\n') ::
      (splitLines (input.drop ((input.takeWhile (· ≠ '\n')).length + 1))).1 := by
  conv_lhs => rw [eq_append_newline h]
  rw [splitLines_append_newline (newline_notMem_takeWhile input)]

/-- The loop reads exactly the lines that end in a newline. -/
theorem loop_eq (t : Call) (input : List Char) :
    forEachUnittest.loop testDir t input =
      callsFor testDir t ((splitLines input).1.map trimLine) := by
  fun_induction forEachUnittest.loop testDir t input with
  | case1 t input raw hlt line testname hname ih =>
    have hheader : matchHeader (trimLine (input.takeWhile (· ≠ '\n'))) = some testname := hname
    rw [splitLines_of_lt hlt, List.map_cons, callsFor, hheader]
    exact congrArg (t :: ·) ih
  | case2 t input raw hlt line hname ih =>
    have hheader : matchHeader (trimLine (input.takeWhile (· ≠ '\n'))) = none := hname
    rw [splitLines_of_lt hlt, List.map_cons, callsFor, hheader]
    exact ih
  | case3 t input raw hge =>
    have hall : raw = input := (List.takeWhile_prefix _).eq_of_length
      (le_antisymm (List.takeWhile_prefix _).length_le (not_lt.mp hge))
    have hnot := newline_notMem_takeWhile input
    rw [splitLines_of_notMem (hall ▸ hnot)]
    rfl

/-- The loop over lines, by sections. -/
theorem callsFor_eq (t : Call) (ls : List (List Char)) :
    callsFor testDir t ls =
      (splitSections matchHeader ls).1.foldl (assign testDir) t ::
        (splitSections matchHeader ls).2.map fun s => s.2.foldl (assign testDir) (fresh s.1) := by
  induction ls generalizing t with
  | nil => rfl
  | cons l ls ih =>
    rw [callsFor]
    cases h : matchHeader l with
    | none => 
      rw [splitSections_of_none h]
      exact ih _
    | some n =>
      rw [splitSections_header h]
      exact congrArg (t :: ·) (ih _)

end Loop

/-! ## Settings -/

theorem Key.name_injective : Function.Injective Key.name := by
  intro k k' h
  cases k <;> cases k' <;> first | rfl | exact absurd h (by decide)

/-- The part of a line before blanks and `'='`. -/
def lineName (line : List Char) : List Char :=
  line.takeWhile fun c => c ≠ ' ' ∧ c ≠ '='

theorem lineName_eq {k : Key} {line v : List Char} (h : matchSetting k.name line = some v) :
    lineName line = k.name := by
  have hname : ∀ c ∈ k.name, (decide (c ≠ ' ' ∧ c ≠ '=')) = true :=
    List.all_eq_true.mp (by cases k <;> rfl)
  rw [matchSetting] at h
  split_ifs at h with hpre
  obtain ⟨r, rfl⟩ := hpre
  rw [List.drop_left] at h
  have hr : (r.takeWhile fun c => c ≠ ' ' ∧ c ≠ '=') = [] := by
    cases r with
    | nil => rfl
    | cons c r =>
      by_cases hc : c = ' '
      · subst hc
        rfl
      · rw [List.dropWhile_cons_of_neg (by simpa using hc)] at h
        split at h
        · next heq =>
          obtain ⟨rfl, -⟩ := List.cons.inj heq
          rfl
        · cases h
  rw [lineName, List.takeWhile_append_of_pos hname, hr, List.append_nil]

/-- A line is a setting of one key at most. -/
theorem setting_eq_some_iff {line v : List Char} {k : Key} :
    setting line = some (k, v) ↔ matchSetting k.name line = some v := by
  have huniq {k k' : Key} {v v' : List Char} (h : matchSetting k.name line = some v)
      (h' : matchSetting k'.name line = some v') : k = k' :=
    Key.name_injective ((lineName_eq h).symm.trans (lineName_eq h'))
  constructor
  · intro h
    obtain ⟨k', -, hk'⟩ := List.exists_of_findSome?_eq_some h
    obtain ⟨v', hv', heq⟩ := Option.map_eq_some_iff.mp hk'
    obtain ⟨rfl, rfl⟩ := Prod.mk.inj heq
    exact hv'
  · intro h
    cases hs : setting line with
    | none =>
      have := List.findSome?_eq_none_iff.mp hs k (by cases k <;> decide)
      rw [h] at this
      exact absurd this (Option.some_ne_none _)
    | some r =>
      obtain ⟨k', -, hk'⟩ := List.exists_of_findSome?_eq_some hs
      obtain ⟨v', hv', rfl⟩ := Option.map_eq_some_iff.mp hk'
      obtain rfl := huniq h hv'
      rw [Option.some.inj (h.symm.trans hv')]

/-! ## The call for a section -/

section Call

variable (testDir : List Char)

@[simp] theorem Call.get_set (t : Call) (k k' : Key) (v : List Char) :
    (t.set k v).get k' = if k' = k then v else t.get k' := by
  cases k <;> cases k' <;> rfl

@[simp] theorem Call.testname_set (t : Call) (k : Key) (v : List Char) :
    (t.set k v).testname = t.testname := by
  cases k <;> rfl

theorem Call.ext_get {t u : Call} (hname : t.testname = u.testname)
    (h : ∀ k, t.get k = u.get k) : t = u := by
  ext1
  · exact hname
  · exact h .groups
  · exact h .smp
  · exact h .file
  · exact h .extraParams
  · exact h .arch
  · exact h .check
  · exact h .accel
  · exact h .timeout

theorem testname_assign (t : Call) (l : List Char) :
    (assign testDir t l).testname = t.testname := by
  rw [assign]
  split
  · exact Call.testname_set ..
  · rfl

theorem get_assign (t : Call) (l : List Char) (k : Key) :
    (assign testDir t l).get k =
      ((matchSetting k.name l).map (valueOf testDir k)).getD (t.get k) := by
  rw [assign]
  split
  · next k' v hs =>
    have hv := setting_eq_some_iff.mp hs
    rw [Call.get_set]
    split_ifs with hk
    · rw [hk, hv]
      rfl
    · cases hm : matchSetting k.name l with
      | none => rfl
      | some v' =>
        have := hs.symm.trans (setting_eq_some_iff.mpr hm)
        exact absurd (Prod.mk.inj (Option.some.inj this)).1.symm hk
  · next hs =>
    cases hm : matchSetting k.name l with
    | none => rfl
    | some v =>
      have hsome := hs.symm.trans (setting_eq_some_iff.mpr hm)
      exact absurd hsome (Option.some_ne_none _).symm

theorem testname_foldl_assign (t : Call) (ls : List (List Char)) :
    (ls.foldl (assign testDir) t).testname = t.testname := by
  induction ls generalizing t with
  | nil => rfl
  | cons l ls ih => rw [List.foldl_cons, ih, testname_assign]

/-- Behind the lines of a section, a variable has the last value given. -/
theorem get_foldl_assign (t : Call) (ls : List (List Char)) (k : Key) :
    (ls.foldl (assign testDir) t).get k =
      ((lastValue k ls).map (valueOf testDir k)).getD (t.get k) := by
  induction ls using List.reverseRecOn with
  | nil => rfl
  | append_singleton ls l ih =>
    rw [List.foldl_append, List.foldl_cons, List.foldl_nil, get_assign, ih, lastValue, lastValue,
      List.filterMap_append]
    cases hm : matchSetting k.name l with
    | none => rw [List.filterMap_cons_none hm, List.filterMap_nil, List.append_nil]; rfl
    | some v => rw [List.filterMap_cons_some hm, List.filterMap_nil, List.getLast?_concat]; rfl

theorem get_callOf (s : List Char × List (List Char)) (k : Key) :
    (callOf testDir s).get k =
      ((lastValue k s.2).map (valueOf testDir k)).getD (default k) := by
  have hid (hk : k ≠ .file) : valueOf testDir k = id := funext fun v => if_neg hk
  by_cases hk : k = .file
  · subst hk
    rfl
  · rw [hid hk, Option.map_id]
    cases k <;> first | rfl | exact absurd rfl hk

/-- The variables behind the lines of a section are the arguments of the call for it. -/
theorem foldl_assign_eq (s : List Char × List (List Char)) :
    s.2.foldl (assign testDir) (fresh s.1) = callOf testDir s := by
  refine Call.ext_get ?_ fun k => ?_
  · rw [testname_foldl_assign]
    rfl
  · rw [get_foldl_assign, get_callOf]
    cases k <;> rfl

theorem assign_eq_self_iff (t : Call) (l : List Char) :
    assign testDir t l = t ↔
      ∀ k v, matchSetting k.name l = some v → t.get k = valueOf testDir k v := by
  constructor
  · intro h k v hm
    rw [← h, get_assign, hm]
    rfl
  · intro h
    refine Call.ext_get (testname_assign testDir t l) fun k => ?_
    rw [get_assign]
    cases hm : matchSetting k.name l with
    | none => rfl
    | some v => exact (h k v hm).symm

theorem valueOf_injective (k : Key) : Function.Injective (valueOf testDir k) := by
  intro v v' h
  rw [valueOf, valueOf] at h
  split_ifs at h
  · exact (List.cons.inj (List.append_cancel_left h)).2
  · exact h

/-- The call for a section has the value `v` if and only if this is in force there. -/
theorem get_callOf_eq_iff (s : List Char × List (List Char)) (k : Key) (v : List Char) :
    (callOf testDir s).get k = valueOf testDir k v ↔ inForce k s = some v := by
  rw [get_callOf, inForce]
  cases lastValue k s.2 with
  | some v' =>
    rw [Option.map_some, Option.getD_some, Option.some_or, Option.some_inj]
    exact (valueOf_injective testDir k).eq_iff
  | none =>
    rw [Option.map_none, Option.getD_none, Option.none_or]
    by_cases hk : k = .file
    · subst hk
      refine iff_of_false (fun h => ?_) (by simp)
      have := congrArg List.length h
      simp [default, valueOf] at this
    · rw [valueOf, if_neg hk, if_neg hk, Option.some_inj]

/-- One more line at the end of a section leaves its call as it is. -/
theorem callOf_concat_iff (s : List Char × List (List Char)) (l : List Char) :
    callOf testDir (s.1, s.2 ++ [l]) = callOf testDir s ↔
      ∀ k v, matchSetting k.name l = some v → inForce k s = some v := by
  have hassign : callOf testDir (s.1, s.2 ++ [l]) = assign testDir (callOf testDir s) l := by
    rw [← foldl_assign_eq, ← foldl_assign_eq, List.foldl_append]
    rfl
  rw [hassign, assign_eq_self_iff]
  exact forall_congr' fun k => forall_congr' fun v => imp_congr_right fun _ =>
    get_callOf_eq_iff testDir s k v

end Call

/-! ## The calls of a text -/

section Text

variable (testDir text : List Char)

/-- The lines that are read. -/
def readLines : List (List Char) :=
  (splitLines text).1.map trimLine

/-- The calls are those for the sections of the lines that are read, behind one with an empty
name. -/
theorem forEachUnittest_eq :
    ∃ t, t.testname = [] ∧ forEachUnittest testDir text =
      t :: (splitSections matchHeader (readLines text)).2.map (callOf testDir) := by
  refine ⟨(splitSections matchHeader (readLines text)).1.foldl (assign testDir) unset,
    testname_foldl_assign testDir unset _, ?_⟩
  rw [forEachUnittest, loop_eq, ← readLines, callsFor_eq]
  congr 1
  exact List.map_congr_left fun s _ => foldl_assign_eq testDir s

theorem lines_eq : lines text = readLines text ++ [trimLine (splitLines text).2] := by
  rw [lines, allLines, List.map_append, List.map_singleton, readLines]

/-- The sections of the text are those of the lines that are read, as far as calls go. -/
theorem map_callOf_eq_iff :
    (splitSections matchHeader (readLines text)).2.map (callOf testDir) =
        (sections text).map (callOf testDir) ↔ LastLineIdle text := by
  rw [sections, lines_eq, LastLineIdle, ← readLines]
  generalize trimLine (splitLines text).2 = last
  generalize readLines text = ls
  cases h : matchHeader last with
  | some n =>
    rw [splitSections_concat_header h]
    refine iff_of_false (fun heq => ?_) fun hidle => Option.some_ne_none n hidle.1
    have := congrArg List.length heq
    simp at this
  | none =>
    rw [splitSections_concat h]
    cases hs : (splitSections matchHeader ls).2.getLast? with
    | none =>
      rw [List.getLast?_eq_none_iff.mp hs]
      exact iff_of_true rfl ⟨rfl, fun s hs' => absurd hs' (by simp)⟩
    | some s =>
      have hsplit := List.dropLast_append_getLast? s hs
      have hcalls : (splitSections matchHeader ls).2.map (callOf testDir) =
          (splitSections matchHeader ls).2.dropLast.map (callOf testDir) ++ [callOf testDir s] := by
        conv_lhs => rw [← hsplit, List.map_append, List.map_singleton]
      rw [hcalls, List.map_append, List.map_singleton, List.append_right_inj, List.singleton_inj,
        eq_comm, callOf_concat_iff]
      constructor
      · rintro h'
        refine ⟨rfl, fun s' hs' => ?_⟩
        rwa [← Option.some.inj hs']
      · rintro ⟨-, h'⟩
        exact h' s rfl

/-- `for_each_unittest` calls `cmd` for every section of the text in order, with its last values,
and before that once with an empty name, if and only if what is behind the last newline changes
nothing. -/
theorem forEachUnittest_iff :
    (∃ t, t.testname = [] ∧
      forEachUnittest testDir text = t :: (sections text).map (callOf testDir)) ↔
      LastLineIdle text := by
  obtain ⟨t, ht, heq⟩ := forEachUnittest_eq testDir text
  rw [← map_callOf_eq_iff testDir text, heq]
  constructor
  · rintro ⟨t', -, h⟩
    exact (List.cons.inj h).2
  · intro h
    exact ⟨t, ht, by rw [h]⟩

/-- The end of a text that ends in a newline changes nothing. -/
theorem lastLineIdle_append_newline (s : List Char) : LastLineIdle (s ++ ['\n']) := by
  obtain ⟨l, ls, h⟩ := exists_splitLines_concat_newline s
  have hrest : (splitLines (s ++ ['\n'])).2 = [] := by rw [h]
  rw [LastLineIdle, hrest]
  refine ⟨rfl, fun _ _ k v hm => ?_⟩
  have hnone : matchSetting k.name (trimLine []) = none := by
    cases k <;> rfl
  exact absurd (hnone.symm.trans hm) (Option.some_ne_none v).symm

/-- In such a text every section is called. -/
theorem forEachUnittest_newline (s : List Char) : ∃ t, t.testname = [] ∧
    forEachUnittest testDir (s ++ ['\n']) =
      t :: (sections (s ++ ['\n'])).map (callOf testDir) := by
  obtain ⟨t, ht, heq⟩ := forEachUnittest_eq testDir (s ++ ['\n'])
  rw [(map_callOf_eq_iff testDir _).mpr (lastLineIdle_append_newline s)] at heq
  exact ⟨t, ht, heq⟩

/-- The header of `b` is the last line, and no newline ends it. -/
def twoSections : List Char :=
  "[a]\nfile = a.flat\n[b]".toList

theorem forEachUnittest_twoSections :
    ¬ ∃ t, t.testname = [] ∧ forEachUnittest "x86".toList twoSections =
      t :: (sections twoSections).map (callOf "x86".toList) := by
  rintro ⟨t, -, h⟩
  have hlen := congrArg List.length h
  rw [forEachUnittest, loop_eq, List.length_cons, List.length_map] at hlen
  exact absurd hlen (by decide)

end Text

end Unittests

end AcrnUt
