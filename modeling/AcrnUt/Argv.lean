import AcrnUt.Printf

/-!
# Boot strings

`__setup_args`, `setup_args_progname` and `setup_env` of `lib/argv.c` against the sizes of their
buffers : 1000 bytes of `args_copy`, 100 places of `__argv`, 200 of `__environ`, and the bytes from
`env` up to `env + size`. An access outside is a fault.

The code tests none of these sizes but `eof` at the end of a variable, so it stays inside if and
only if the words fit, and the environment ends in the buffer (`bootStrings_iff`). A text without a
NUL is read past its end before anything else, so no file of lines passes. Where the buffer is not
left, memory around it does not matter (`EnvBuf.setupEnv_sound`).
-/

set_option linter.unusedSectionVars false

namespace AcrnUt

/-! ## The command line -/

/-- `args_copy`, `copy_ptr` and `__argv`. The entries are offsets in `args_copy`, `__argc` of them,
and the places behind them are NULL. -/
structure ArgState where
  copy : List (BitVec 8)
  copyPtr : ℕ
  argv : List ℕ
  length_copy : copy.length = 1000
  copyPtr_le : copyPtr ≤ 1000
  length_argv_le : argv.length ≤ 100

/-- The static data before the first call. -/
def ArgState.start : ArgState :=
  ⟨List.replicate 1000 0, 0, [], List.length_replicate, Nat.zero_le _, Nat.zero_le _⟩

/-- `*copy_ptr++ = c`. -/
def ArgState.put (s : ArgState) (c : BitVec 8) : Except Stuck ArgState :=
  if h : s.copyPtr < 1000 then
    .ok ⟨s.copy.set s.copyPtr c, s.copyPtr + 1, s.argv, List.length_set.trans s.length_copy, h,
      s.length_argv_le⟩
  else .error .fault

/-- `*argv++ = copy_ptr`. -/
def ArgState.push (s : ArgState) : Except Stuck ArgState :=
  if h : s.argv.length < 100 then
    .ok ⟨s.copy, s.copyPtr, s.argv ++ [s.copyPtr], s.length_copy, s.copyPtr_le, by simpa using h⟩
  else .error .fault

/-- The loop of `__setup_args` over a word. -/
def setupArgs.word : List (BitVec 8) → ArgState → Except Stuck (List (BitVec 8) × ArgState)
  | [], s => .ok ([], s)
  | c :: args, s =>
    if isblank c then .ok (c :: args, s)
    else do
      let s ← s.put c
      setupArgs.word args s

/-- The loop of `__setup_args`. -/
def setupArgs.loop : ℕ → List (BitVec 8) → ArgState → Except Stuck ArgState
  | 0, _, _ => .error .fuel
  | fuel + 1, args, s => do
    let args := args.dropWhile isblank
    if deref args = 0 then .ok s
    else
      let s ← s.push
      let (args, s) ← setupArgs.word args s
      let s ← s.put 0
      setupArgs.loop fuel args s

/-- `__setup_args`. -/
def setupArgs (args : CString) (s : ArgState) : Except Stuck ArgState :=
  setupArgs.loop (args.bytes.length + 1) args.bytes s

/-- `setup_args_progname`, which is called when `__argv` has no entries. -/
def setupArgsProgname (progname : CString) (args : Option CString) (s : ArgState) :
    Except Stuck ArgState := do
  let s ← s.push
  let s ← progname.bytes.foldlM ArgState.put s
  let s ← s.put 0
  match args with
  | none => .ok s
  | some args => setupArgs args s

/-! ## The environment -/

/-- The bytes from `env` up to `env + size`. -/
abbrev EnvBuf := List (BitVec 8)

namespace EnvBuf

/-- A byte of the buffer. -/
def read (buf : EnvBuf) (p : ℕ) : Except Stuck (BitVec 8) :=
  if h : p < buf.length then .ok buf[p] else .error .fault

/-- A store in the buffer. -/
def write (buf : EnvBuf) (p : ℕ) (c : BitVec 8) : Except Stuck EnvBuf :=
  if p < buf.length then .ok (buf.set p c) else .error .fault

/-- `while (cond(*p)) ++p`. -/
def advance (cond : BitVec 8 → Bool) (buf : EnvBuf) : ℕ → ℕ → Except Stuck ℕ
  | 0, _ => .error .fuel
  | fuel + 1, p => do
    let c ← buf.read p
    if cond c then advance cond buf fuel (p + 1) else .ok p

/-- `env_eol`. -/
def envEol (fuel : ℕ) (buf : EnvBuf) (env : ℕ) : Except Stuck ℕ :=
  buf.advance (fun c => c ≠ 0 ∧ c ≠ newlineChar) fuel env

/-- `env_invalid_eol`. -/
def envInvalidEol (fuel : ℕ) (buf : EnvBuf) (env : ℕ) : Except Stuck (EnvBuf × ℕ) := do
  let eol ← buf.envEol fuel env
  let eolOld ← buf.read eol
  let buf ← buf.write eol 0
  let buf ← buf.write eol eolOld
  .ok (buf, eol)

/-- The loop of `env_next` over a name. -/
def envNextName (buf : EnvBuf) : ℕ → ℕ → Bool → Except Stuck (ℕ × Bool)
  | 0, _, _ => .error .fuel
  | fuel + 1, p, invalid => do
    let c ← buf.read p
    if c ≠ 0 ∧ c ≠ equalsSign ∧ c ≠ newlineChar then
      envNextName buf fuel (p + 1) (if isalnum c then invalid else true)
    else .ok (p, invalid)

/-- `env_next`. -/
def envNext : ℕ → EnvBuf → ℕ → Except Stuck (EnvBuf × ℕ)
  | 0, _, _ => .error .fuel
  | fuel + 1, buf, env => do
    let c ← buf.read env
    if c = 0 then .ok (buf, env)
    else if isalpha c then
      let (p, invalid) ← buf.envNextName (fuel + 1) (env + 1) false
      let c ← buf.read p
      let invalid := if c ≠ equalsSign then true else invalid
      if invalid then
        let (buf, env) ← buf.envInvalidEol (fuel + 1) env
        let c ← buf.read env
        if c ≠ 0 then envNext fuel buf (env + 1) else .ok (buf, env)
      else .ok (buf, env)
    else
      let p ← buf.advance isblank (fuel + 1) env
      let c ← buf.read p
      if c = newlineChar then envNext fuel buf (p + 1)
      else
        let (buf, env) ←
          if c = 0x23 then do
            let env ← buf.envEol (fuel + 1) env
            .ok (buf, env)
          else buf.envInvalidEol (fuel + 1) env
        let c ← buf.read env
        if c ≠ 0 then envNext fuel buf (env + 1) else .ok (buf, env)

/-- The loop of `setup_env` over a variable. -/
def eol (newline : Bool) (buf : EnvBuf) : ℕ → ℕ → Except Stuck ℕ
  | 0, _ => .error .fuel
  | fuel + 1, env =>
    if env < buf.length then do
      let c ← buf.read env
      if c ≠ 0 ∧ ¬(newline ∧ c = newlineChar) then eol newline buf fuel (env + 1) else .ok env
    else .ok env

/-- The loop of `setup_env`. `environ` has the entries so far, and the places behind them are
NULL. -/
def setupEnvLoop (newline : Bool) :
    ℕ → EnvBuf → List ℕ → ℕ → Except Stuck (EnvBuf × List ℕ)
  | 0, _, _, _ => .error .fuel
  | fuel + 1, buf, environ, env =>
    if env < buf.length then do
      let (buf, env) ← if newline then buf.envNext (fuel + 1) env else .ok (buf, env)
      let c ← buf.read env
      if c = 0 ∨ buf.length ≤ env then .ok (buf, environ)
      else if environ.length < 200 then
        let environ := environ ++ [env]
        let env ← buf.eol newline (fuel + 1) env
        let buf ← buf.write env 0
        setupEnvLoop newline fuel buf environ (env + 1)
      else .error .fault
    else .ok (buf, environ)

/-- `setup_env`. -/
def setupEnv (buf : EnvBuf) : Except Stuck (EnvBuf × List ℕ) := do
  let p ← buf.advance (fun c => c ≠ 0) (buf.length + 1) 0
  let newline := decide (p = buf.length)
  buf.setupEnvLoop newline (buf.length + 1) [] 0

end EnvBuf

/-! ## Words -/

/-- The words of a command line. -/
def words (args : List (BitVec 8)) : List (List (BitVec 8)) :=
  (args.splitOnP isblank).filter (· ≠ [])

/-- The bytes that words take, with a NUL behind each. -/
def wordBytes (ws : List (List (BitVec 8))) : ℕ :=
  (ws.map fun w => w.length + 1).sum

section Words

variable {args w rest : List (BitVec 8)} {s : ArgState}

@[simp] theorem words_nil : words [] = [] := rfl

theorem words_blank {c : BitVec 8} (hc : isblank c) (args : List (BitVec 8)) :
    words (c :: args) = words args := by
  unfold words
  have hsplit : (c :: args).splitOnP isblank = [] :: args.splitOnP isblank :=
    List.splitOnP_append_cons_of_forall_mem (fun x hx => absurd hx List.not_mem_nil) c hc args
  rw [hsplit, List.filter_cons_of_neg (by simp)]

theorem words_dropWhile (args : List (BitVec 8)) : words (args.dropWhile isblank) = words args := by
  induction args with
  | nil => rfl
  | cons c args ih =>
    by_cases hc : isblank c
    · rw [List.dropWhile_cons_of_pos hc, ih, words_blank hc]
    · rw [List.dropWhile_cons_of_neg hc]

/-- A word, and what a blank or the end of the line is behind it. -/
theorem words_append (hw : ∀ c ∈ w, isblank c = false) (hne : w ≠ [])
    (hrest : ∀ c ∈ rest.head?, isblank c) : words (w ++ rest) = w :: words rest := by
  rcases rest with _ | ⟨c, rest⟩
  · unfold words
    rw [List.append_nil, List.splitOnP_eq_singleton hw, List.filter_cons_of_pos (by simpa)]
    rfl
  · have hc : isblank c := hrest c rfl
    rw [words_blank hc]
    unfold words
    rw [List.splitOnP_append_cons_of_forall_mem hw c hc, List.filter_cons_of_pos (by simpa)]

/-- A command line that begins with a word. -/
theorem exists_word (hfirst : ∀ c ∈ args.head?, isblank c = false) (hne : args ≠ []) :
    ∃ w rest, args = w ++ rest ∧ w ≠ [] ∧ (∀ c ∈ w, isblank c = false) ∧
      ∀ c ∈ rest.head?, isblank c := by
  refine ⟨args.takeWhile fun c => !isblank c, args.dropWhile fun c => !isblank c,
    List.takeWhile_append_dropWhile.symm, ?_, fun c hc => ?_, fun c hc => ?_⟩
  · rcases args with _ | ⟨c, args⟩
    · exact absurd rfl hne
    · rw [List.takeWhile_cons_of_pos (by simp [hfirst c rfl])]
      exact List.cons_ne_nil _ _
  · simpa using List.all_eq_true.mp List.all_takeWhile c hc
  · have := List.head?_dropWhile_not (fun c => !isblank c) args
    rw [Option.mem_def.mp hc] at this
    simpa using this

theorem put_eq (s : ArgState) (c : BitVec 8) :
    (s.copyPtr < 1000 ∧ ∃ s', s.put c = .ok s' ∧ s'.copyPtr = s.copyPtr + 1 ∧ s'.argv = s.argv) ∨
      (s.copyPtr = 1000 ∧ s.put c = .error .fault) := by
  have hle := s.copyPtr_le
  unfold ArgState.put
  by_cases h : s.copyPtr < 1000
  · rw [dif_pos h]
    exact Or.inl ⟨h, _, rfl, rfl, rfl⟩
  · rw [dif_neg h]
    exact Or.inr ⟨by omega, rfl⟩

theorem push_eq (s : ArgState) :
    (s.argv.length < 100 ∧ ∃ s', s.push = .ok s' ∧ s'.copyPtr = s.copyPtr ∧
        s'.argv.length = s.argv.length + 1) ∨
      (s.argv.length = 100 ∧ s.push = .error .fault) := by
  have hle := s.length_argv_le
  unfold ArgState.push
  by_cases h : s.argv.length < 100
  · rw [dif_pos h]
    exact Or.inl ⟨h, _, rfl, rfl, List.length_append⟩
  · rw [dif_neg h]
    exact Or.inr ⟨by omega, rfl⟩

/-- A word is copied if there is room for it. -/
theorem word_eq (hw : ∀ c ∈ w, isblank c = false) (hrest : ∀ c ∈ rest.head?, isblank c)
    (s : ArgState) :
    (s.copyPtr + w.length ≤ 1000 ∧ ∃ s', setupArgs.word (w ++ rest) s = .ok (rest, s') ∧
        s'.copyPtr = s.copyPtr + w.length ∧ s'.argv = s.argv) ∨
      (1000 < s.copyPtr + w.length ∧ setupArgs.word (w ++ rest) s = .error .fault) := by
  induction w generalizing s with
  | nil =>
    have hend : setupArgs.word rest s = .ok (rest, s) := by
      rcases rest with _ | ⟨c, rest⟩
      · rfl
      · rw [setupArgs.word, if_pos (hrest c rfl)]
    exact Or.inl ⟨s.copyPtr_le, s, hend, rfl, rfl⟩
  | cons c w ih =>
    have hc : ¬isblank c := by simp [hw c List.mem_cons_self]
    have hw' : ∀ c ∈ w, isblank c = false := fun x hx => hw x (List.mem_cons_of_mem c hx)
    rw [List.cons_append, setupArgs.word, if_neg hc, List.length_cons]
    rcases put_eq s c with ⟨hlt, s', hput, hptr, hargv⟩ | ⟨hfull, hput⟩ <;> rw [hput]
    · rcases ih hw' s' with ⟨hle, s'', hword, hptr', hargv'⟩ | ⟨hlt, hword⟩
      · exact Or.inl ⟨by omega, s'', hword, by omega, hargv'.trans hargv⟩
      · exact Or.inr ⟨by omega, hword⟩
    · exact Or.inr ⟨by omega, rfl⟩

/-- The words of a command line fit behind what is in the buffers. -/
def ArgState.Fits (s : ArgState) (ws : List (List (BitVec 8))) : Prop :=
  s.copyPtr + wordBytes ws ≤ 1000 ∧ s.argv.length + ws.length ≤ 100

/-- The loop copies the words if they fit. -/
theorem loop_spec {fuel : ℕ} (hfuel : args.length < fuel) (h0 : 0 ∉ args) (s : ArgState) :
    (s.Fits (words args) ∧ ∃ s', setupArgs.loop fuel args s = .ok s' ∧
        s'.argv.length = s.argv.length + (words args).length) ∨
      (¬s.Fits (words args) ∧ setupArgs.loop fuel args s = .error .fault) := by
  induction fuel generalizing args s with
  | zero => omega
  | succ fuel ih =>
    have hdrop := List.dropWhile_suffix isblank (l := args)
    have hlen := hdrop.length_le
    have hfirst : ∀ c ∈ (args.dropWhile isblank).head?, isblank c = false := fun c hc => by
      have := List.head?_dropWhile_not isblank args
      rw [Option.mem_def.mp hc] at this
      simpa using this
    have h0' : 0 ∉ args.dropWhile isblank := fun h => h0 (hdrop.subset h)
    rw [setupArgs.loop, ← words_dropWhile args]
    generalize args.dropWhile isblank = args' at hlen h0' hfirst ⊢
    by_cases hnil : args' = []
    · subst hnil
      exact Or.inl ⟨⟨s.copyPtr_le, s.length_argv_le⟩, s, rfl, rfl⟩
    obtain ⟨w, rest, rfl, hne, hw, hrest⟩ := exists_word hfirst hnil
    have hchar : deref (w ++ rest) ≠ 0 := fun h => by
      obtain ⟨c, w, rfl⟩ := List.exists_cons_of_ne_nil hne
      exact h0' (List.mem_cons.mpr (Or.inl h.symm))
    have hshort : rest.length < fuel := by
      have := List.length_pos_iff.mpr hne
      rw [List.length_append] at hlen
      omega
    have hbytes : wordBytes (w :: words rest) = w.length + 1 + wordBytes (words rest) := by
      simp [wordBytes]
    simp only
    rw [if_neg hchar, words_append hw hne hrest]
    unfold ArgState.Fits
    rw [hbytes, List.length_cons]
    rcases push_eq s with ⟨hroom, s₁, hpush, hptr₁, hargv₁⟩ | ⟨hfull, hpush⟩ <;> rw [hpush]
    · rw [ok_bind]
      rcases word_eq hw hrest s₁ with ⟨hle, s₂, hword, hptr₂, hargv₂⟩ | ⟨hlt, hword⟩ <;> rw [hword]
      · rw [ok_bind]
        rcases put_eq s₂ 0 with ⟨hlt, s₃, hput, hptr₃, hargv₃⟩ | ⟨hfull, hput⟩ <;> simp only [hput]
        · have hlength : s₃.argv.length = s.argv.length + 1 := by rw [hargv₃, hargv₂, hargv₁]
          rcases ih hshort (fun h => h0' (List.mem_append_right w h)) s₃ with
            ⟨hfits, s', hloop, hargv'⟩ | ⟨hfits, hloop⟩
          · unfold ArgState.Fits at hfits
            exact Or.inl ⟨⟨by omega, by omega⟩, s', hloop, by omega⟩
          · unfold ArgState.Fits at hfits
            exact Or.inr ⟨by omega, hloop⟩
        · exact Or.inr ⟨by omega, rfl⟩
      · exact Or.inr ⟨by omega, rfl⟩
    · exact Or.inr ⟨by omega, rfl⟩

/-- The words of a command line stay in the buffers, with a NULL behind the entries, if and only if
there is room for them. -/
theorem setupArgs_iff (args : CString) (s : ArgState) :
    (∃ s', setupArgs args s = .ok s' ∧ s'.argv.length < 100) ↔
      s.copyPtr + wordBytes (words args.bytes) ≤ 1000 ∧
        s.argv.length + (words args.bytes).length < 100 := by
  unfold setupArgs
  rcases loop_spec (Nat.lt_succ_self _) args.zero_notMem s with
    ⟨hfits, s', hloop, hargv⟩ | ⟨hfits, hloop⟩ <;> unfold ArgState.Fits at hfits
  · constructor
    · rintro ⟨s'', hs'', hlt⟩
      obtain rfl := Except.ok.inj (hloop.symm.trans hs'')
      exact ⟨hfits.1, by omega⟩
    · rintro ⟨-, hlt⟩
      exact ⟨s', hloop, by omega⟩
  · refine iff_of_false ?_ (fun h => hfits ⟨h.1, by omega⟩)
    rintro ⟨s', hs', -⟩
    simp [hloop] at hs'

/-- `strcpy` of a string that there is room for. -/
theorem foldlM_put (h : s.copyPtr + w.length ≤ 1000) :
    ∃ s', w.foldlM ArgState.put s = .ok s' ∧ s'.copyPtr = s.copyPtr + w.length ∧
      s'.argv = s.argv := by
  induction w generalizing s with
  | nil => exact ⟨s, rfl, rfl, rfl⟩
  | cons c w ih =>
    rw [List.length_cons] at h ⊢
    obtain ⟨-, s₁, hput, hptr, hargv⟩ := (put_eq s c).resolve_right fun hfull => by omega
    obtain ⟨s', hfold, hptr', hargv'⟩ := @ih s₁ (by omega)
    refine ⟨s', ?_, by omega, hargv'.trans hargv⟩
    rw [List.foldlM_cons, hput]
    exact hfold

/-- The command line comes behind the name of the program, as the first entry. -/
theorem setupArgsProgname_start {progname : CString} (h : progname.bytes.length < 1000)
    (args : CString) :
    ∃ s, s.copyPtr = progname.bytes.length + 1 ∧ s.argv.length = 1 ∧
      setupArgsProgname progname (some args) ArgState.start = setupArgs args s := by
  obtain ⟨-, s₁, hpush, hptr₁, hargv₁⟩ := (push_eq ArgState.start).resolve_right fun hfull =>
    absurd hfull.1 (by decide)
  have hstart : ArgState.start.copyPtr = 0 ∧ ArgState.start.argv.length = 0 := ⟨rfl, rfl⟩
  obtain ⟨s₂, hname, hptr₂, hargv₂⟩ := @foldlM_put progname.bytes s₁ (by omega)
  obtain ⟨-, s₃, hput, hptr₃, hargv₃⟩ := (put_eq s₂ 0).resolve_right fun hfull => by omega
  refine ⟨s₃, by omega, by rw [hargv₃, hargv₂, hargv₁, hstart.2], ?_⟩
  rw [setupArgsProgname, hpush, ok_bind, hname, ok_bind, hput, ok_bind]

/-- Behind the name of the program there is room for 98 words. -/
theorem setupArgsProgname_iff {progname : CString} (h : progname.bytes.length < 1000)
    (args : CString) :
    (∃ s', setupArgsProgname progname (some args) ArgState.start = .ok s' ∧
        s'.argv.length < 100) ↔
      progname.bytes.length + 1 + wordBytes (words args.bytes) ≤ 1000 ∧
        (words args.bytes).length < 99 := by
  obtain ⟨s, hptr, hargv, hrun⟩ := setupArgsProgname_start h args
  rw [hrun, setupArgs_iff, hptr, hargv]
  omega

end Words

/-! ## The strings of an environment -/

/-- The strings of a buffer before the first empty one. -/
def envStrings (buf : List (BitVec 8)) : List (List (BitVec 8)) :=
  (buf.splitOn 0).takeWhile (· ≠ [])

/-- The strings of a buffer end in it : one of the parts between NULs is empty. -/
def EndsInside (buf : List (BitVec 8)) : Prop :=
  [] ∈ buf.splitOn 0

section Strings

variable {s t : List (BitVec 8)}

theorem envStrings_zero (t : List (BitVec 8)) :
    EndsInside (0 :: t) ∧ envStrings (0 :: t) = [] := by
  have hsplit : (0 :: t).splitOn 0 = [] :: t.splitOn 0 := by
    simpa using List.splitOn_append_cons_self_of_not_mem (@List.not_mem_nil _ (0 : BitVec 8)) t
  unfold EndsInside envStrings
  rw [hsplit]
  exact ⟨List.mem_cons_self, List.takeWhile_cons_of_neg (by simp)⟩

/-- A string, and what stands behind its NUL. -/
theorem envStrings_append (hs : 0 ∉ s) (hne : s ≠ []) (t : List (BitVec 8)) :
    (EndsInside (s ++ 0 :: t) ↔ EndsInside t) ∧ envStrings (s ++ 0 :: t) = s :: envStrings t := by
  unfold EndsInside envStrings
  rw [List.splitOn_append_cons_self_of_not_mem hs]
  exact ⟨by simp [hne.symm], List.takeWhile_cons_of_pos (by simpa)⟩

/-- A string without a NUL. -/
theorem not_endsInside (hs : 0 ∉ s) (hne : s ≠ []) : ¬EndsInside s := by
  unfold EndsInside
  rw [List.splitOn_eq_singleton hs]
  simp [hne.symm]

end Strings

namespace EnvBuf

section Run

variable {buf : EnvBuf} {p fuel : ℕ} {s t : List (BitVec 8)} {c : BitVec 8}

/-- What is left of the buffer starts with a byte of it. -/
theorem getElem_of_drop (h : buf.drop p = c :: t) : ∃ hlt : p < buf.length, buf[p] = c := by
  have hlt : p < buf.length := by
    by_contra hle
    rw [List.drop_of_length_le (not_lt.mp hle)] at h
    simp at h
  rw [List.drop_eq_getElem_cons hlt] at h
  exact ⟨hlt, (List.cons.inj h).1⟩

theorem read_eq (h : buf.drop p = c :: t) : buf.read p = .ok c := by
  obtain ⟨hlt, hc⟩ := getElem_of_drop h
  unfold read
  rw [dif_pos hlt, hc]

theorem read_end : buf.read buf.length = .error .fault :=
  dif_neg (lt_irrefl _)

theorem drop_succ (h : buf.drop p = c :: t) : buf.drop (p + 1) = t := by
  rw [← List.drop_drop, h]
  rfl

/-- A scan stops at a NUL, or leaves the buffer. -/
theorem advance_eq (hs : 0 ∉ s) (h : buf.drop p = s ++ 0 :: t) (hfuel : s.length < fuel) :
    buf.advance (fun c => c ≠ 0) fuel p = .ok (p + s.length) := by
  induction s generalizing p fuel with
  | nil =>
    obtain ⟨fuel, rfl⟩ := Nat.exists_eq_succ_of_ne_zero (Nat.ne_zero_of_lt hfuel)
    rw [advance, read_eq h]
    rfl
  | cons c s ih =>
    obtain ⟨fuel, rfl⟩ := Nat.exists_eq_succ_of_ne_zero (Nat.ne_zero_of_lt hfuel)
    rw [List.mem_cons, not_or] at hs
    rw [List.length_cons] at hfuel ⊢
    rw [advance, read_eq h, ok_bind, if_pos (by simpa using Ne.symm hs.1),
      ih hs.2 (drop_succ h) (by omega)]
    congr 1
    omega

theorem advance_fault (hs : 0 ∉ buf.drop p) (hp : p ≤ buf.length) (hfuel : buf.length < p + fuel) :
    buf.advance (fun c => c ≠ 0) fuel p = .error .fault := by
  induction fuel generalizing p with
  | zero => omega
  | succ fuel ih =>
    rcases Nat.eq_or_lt_of_le hp with rfl | hlt
    · rw [advance, read_end]
      rfl
    · have hdrop := List.drop_eq_getElem_cons hlt
      rw [hdrop, List.mem_cons, not_or] at hs
      rw [advance, read_eq hdrop, ok_bind, if_pos (by simpa using Ne.symm hs.1),
        ih hs.2 hlt (by omega)]

/-- The loop over a variable of a text with NULs stops at the NUL, or at the end of the buffer. -/
theorem eol_eq (hs : 0 ∉ s) (h : buf.drop p = s ++ 0 :: t) (hfuel : s.length < fuel) :
    buf.eol false fuel p = .ok (p + s.length) := by
  induction s generalizing p fuel with
  | nil =>
    obtain ⟨fuel, rfl⟩ := Nat.exists_eq_succ_of_ne_zero (Nat.ne_zero_of_lt hfuel)
    rw [eol, read_eq h]
    split_ifs <;> rfl
  | cons c s ih =>
    obtain ⟨fuel, rfl⟩ := Nat.exists_eq_succ_of_ne_zero (Nat.ne_zero_of_lt hfuel)
    have hlt : p < buf.length := by
      by_contra hle
      rw [List.drop_of_length_le (not_lt.mp hle)] at h
      simp at h
    rw [List.mem_cons, not_or] at hs
    rw [List.length_cons] at hfuel ⊢
    rw [eol, if_pos hlt, read_eq h, ok_bind, if_pos ⟨Ne.symm hs.1, by simp⟩,
      ih hs.2 (drop_succ h) (by omega)]
    congr 1
    omega

theorem eol_end (hs : 0 ∉ buf.drop p) (hp : p ≤ buf.length) (hfuel : buf.length < p + fuel) :
    buf.eol false fuel p = .ok buf.length := by
  induction fuel generalizing p with
  | zero => omega
  | succ fuel ih =>
    rcases Nat.eq_or_lt_of_le hp with rfl | hlt
    · rw [eol, if_neg (lt_irrefl _)]
    · have hdrop := List.drop_eq_getElem_cons hlt
      rw [hdrop, List.mem_cons, not_or] at hs
      rw [eol, if_pos hlt, read_eq hdrop, ok_bind, if_pos ⟨Ne.symm hs.1, by simp⟩,
        ih hs.2 hlt (by omega)]

/-- A NUL where there is one changes nothing. -/
theorem write_zero (h : buf.drop p = 0 :: t) : buf.write p 0 = .ok buf := by
  obtain ⟨hlt, hc⟩ := getElem_of_drop h
  unfold write
  rw [if_pos hlt, ← hc, List.set_getElem_self]

/-- The strings of a text with NULs, behind what is in `__environ`. -/
def Fits (environ : List ℕ) (r : List (BitVec 8)) : Prop :=
  EndsInside r ∧ environ.length + (envStrings r).length ≤ 200

/-- The loop stores the strings if they end in the buffer and there are places for them. -/
theorem setupEnvLoop_spec (hp : p ≤ buf.length) (hfuel : buf.length < p + fuel)
    (environ : List ℕ) (hroom : environ.length ≤ 200) :
    (Fits environ (buf.drop p) ∧ ∃ environ',
        buf.setupEnvLoop false fuel environ p = .ok (buf, environ') ∧
        environ'.length = environ.length + (envStrings (buf.drop p)).length) ∨
      (¬Fits environ (buf.drop p) ∧ buf.setupEnvLoop false fuel environ p = .error .fault) := by
  induction fuel generalizing p environ with
  | zero => omega
  | succ fuel ih =>
    unfold Fits
    rcases Nat.eq_or_lt_of_le hp with rfl | hlt
    · have hnil : buf.drop buf.length = [] := List.drop_length
      rw [setupEnvLoop, if_neg (lt_irrefl _), hnil]
      exact Or.inl ⟨⟨List.mem_singleton_self _, hroom⟩, environ, rfl, rfl⟩
    rw [setupEnvLoop, if_pos hlt]
    simp only [Bool.false_eq_true, if_false, ok_bind]
    have hdrop := List.drop_eq_getElem_cons hlt
    rw [read_eq hdrop, ok_bind]
    by_cases hzero : buf[p] = 0
    · rw [if_pos (Or.inl hzero), hdrop, hzero]
      have hz := envStrings_zero (buf.drop (p + 1))
      rw [hz.2]
      exact Or.inl ⟨⟨hz.1, hroom⟩, environ, rfl, rfl⟩
    rw [if_neg (not_or.mpr ⟨hzero, by omega⟩)]
    by_cases hmem : 0 ∈ buf.drop p
    · obtain ⟨s, t, hst, hs⟩ := List.eq_append_cons_of_mem hmem
      have hne : s ≠ [] := by
        rintro rfl
        rw [hdrop] at hst
        exact hzero (List.cons.inj hst).1
      have hend : buf.drop (p + s.length) = 0 :: t := by
        rw [← List.drop_drop, hst, List.drop_left]
      have hlength := congrArg List.length hend
      rw [List.length_drop, List.length_cons] at hlength
      have hstrings := envStrings_append hs hne t
      rw [hst, hstrings.1, hstrings.2, List.length_cons]
      by_cases hplaces : environ.length < 200
      · rw [if_pos hplaces, eol_eq hs hst (by omega), ok_bind, write_zero hend, ok_bind]
        rcases ih (show p + s.length + 1 ≤ buf.length by omega) (by omega) (environ ++ [p])
          (by simpa using hplaces) with ⟨hfits, environ', hloop, hlen⟩ | ⟨hfits, hloop⟩ <;>
          unfold Fits at hfits <;>
          rw [drop_succ hend, List.length_append, List.length_singleton] at *
        · exact Or.inl ⟨⟨hfits.1, by omega⟩, environ', hloop, by omega⟩
        · exact Or.inr ⟨fun h => hfits ⟨h.1, by omega⟩, hloop⟩
      · rw [if_neg hplaces]
        exact Or.inr ⟨by omega, rfl⟩
    · -- the string does not end in the buffer, and its NUL is stored behind it
      have hends : ¬EndsInside (buf.drop p) := by
        refine not_endsInside hmem ?_
        rw [hdrop]
        exact List.cons_ne_nil _ _
      refine Or.inr ⟨fun h => hends h.1, ?_⟩
      split_ifs
      · rw [eol_end hmem hp (by omega), ok_bind, write, if_neg (lt_irrefl _)]
        rfl
      · rfl

/-- `setup_env` of a buffer with a NUL stores its strings. -/
theorem setupEnv_spec (buf : EnvBuf) :
    (buf ≠ [] ∧ Fits [] buf ∧ ∃ environ, buf.setupEnv = .ok (buf, environ) ∧
        environ.length = (envStrings buf).length) ∨
      (¬(buf ≠ [] ∧ Fits [] buf) ∧ buf.setupEnv = .error .fault) := by
  unfold setupEnv
  by_cases hmem : 0 ∈ buf
  · obtain ⟨s, t, hst, hs⟩ := List.eq_append_cons_of_mem hmem
    have hlength := congrArg List.length hst
    rw [List.length_append, List.length_cons] at hlength
    have hne : buf ≠ [] := List.ne_nil_of_mem hmem
    have hscan := @advance_eq buf 0 (buf.length + 1) s t hs hst (by omega)
    have hnewline : decide (0 + s.length = buf.length) = false := by
      simp
      omega
    rw [hscan, ok_bind]
    simp only [hnewline]
    rcases @setupEnvLoop_spec buf 0 (buf.length + 1) (Nat.zero_le _) (by omega) [] (Nat.zero_le _)
      with ⟨hfits, environ, hloop, hlen⟩ | ⟨hfits, hloop⟩ <;> rw [List.drop_zero] at *
    · exact Or.inl ⟨hne, hfits, environ, hloop, by simpa using hlen⟩
    · exact Or.inr ⟨fun h => hfits h.2, hloop⟩
  · -- the search for a NUL leaves the buffer
    rw [advance_fault (by simpa using hmem) (Nat.zero_le _) (by omega)]
    exact Or.inr ⟨fun h => not_endsInside hmem h.1 h.2.1, rfl⟩

end Run

/-! ## Memory around the buffer -/

section Sound

variable {buf buf' : EnvBuf} {mem : Bytes} {env p q fuel : ℕ} {es es' : List ℕ}

/-- The memory at `env` holds the buffer. -/
def HeldAt (buf : EnvBuf) (mem : Bytes) (env : ℕ) : Prop :=
  ∀ p, (h : p < buf.length) → mem (env + p) = buf[p]

theorem HeldAt.read (hheld : buf.HeldAt mem env) {c : BitVec 8} (h : buf.read p = .ok c) :
    mem (env + p) = c ∧ p < buf.length := by
  unfold EnvBuf.read at h
  split_ifs at h with hlt
  rw [hheld p hlt]
  exact ⟨Except.ok.inj h, hlt⟩

theorem HeldAt.write (hheld : buf.HeldAt mem env) {c : BitVec 8} (h : buf.write p c = .ok buf') :
    p < buf.length ∧ buf'.length = buf.length ∧
      buf'.HeldAt (Function.update mem (env + p) c) env := by
  unfold EnvBuf.write at h
  split_ifs at h with hlt
  obtain rfl := Except.ok.inj h
  refine ⟨hlt, List.length_set, fun q hq => ?_⟩
  rw [List.getElem_set]
  by_cases hpq : p = q
  · rw [if_pos hpq, hpq, Function.update_self]
  · rw [if_neg hpq, Function.update_of_ne (by omega)]
    exact hheld q _

/-- A scan that stays in the buffer is one of the memory, and ends at a byte that was read. -/
theorem HeldAt.advance (hheld : buf.HeldAt mem env) {cond : BitVec 8 → Bool}
    (h : buf.advance cond fuel p = .ok q) :
    AcrnUt.advance cond mem fuel (env + p) = some (env + q) ∧ q < buf.length := by
  induction fuel generalizing p with
  | zero => simp [EnvBuf.advance] at h
  | succ fuel ih =>
    unfold EnvBuf.advance at h
    obtain ⟨c, hc, h⟩ := exists_of_bind_eq_ok h
    obtain ⟨hmem, hlt⟩ := hheld.read hc
    rw [AcrnUt.advance, hmem]
    split_ifs at h ⊢ with hcond
    · exact ih h
    · obtain rfl := Except.ok.inj h
      exact ⟨rfl, hlt⟩

theorem HeldAt.eol (hheld : buf.HeldAt mem env) (h : buf.eol false fuel p = .ok q) :
    setupEnv.eol (env + buf.length) false mem fuel (env + p) = some (env + q) := by
  induction fuel generalizing p with
  | zero => simp [EnvBuf.eol] at h
  | succ fuel ih =>
    unfold EnvBuf.eol at h
    rw [setupEnv.eol]
    by_cases hlt : p < buf.length
    · rw [if_pos hlt] at h
      obtain ⟨c, hc, h⟩ := exists_of_bind_eq_ok h
      rw [(hheld.read hc).1]
      by_cases hzero : c = 0
      · rw [if_neg fun hstop => hstop.1 hzero] at h
        rw [if_neg fun hstop => hstop.2.1 hzero, Except.ok.inj h]
      · rw [if_pos ⟨hzero, by simp⟩] at h
        rw [if_pos ⟨by omega, hzero, by simp⟩]
        exact ih h
    · rw [if_neg hlt] at h
      rw [if_neg fun hstop => hlt (by omega), Except.ok.inj h]

/-- What a run in memory leaves : the buffer, everything around it, and the entries. -/
def Leaves (buf' : EnvBuf) (es' : List ℕ) (mem : Bytes) (env : ℕ) (mem' : Bytes)
    (environ' : ℕ → ℕ) : Prop :=
  buf'.HeldAt mem' env ∧ (∀ a, a < env ∨ env + buf'.length ≤ a → mem' a = mem a) ∧
    ∀ j, (h : j < es'.length) → environ' j = env + es'[j]

theorem HeldAt.setupEnvLoop {environ : ℕ → ℕ} (hheld : buf.HeldAt mem env)
    (hentries : ∀ j, (h : j < es.length) → environ j = env + es[j])
    (h : buf.setupEnvLoop false fuel es p = .ok (buf', es')) :
    ∃ mem' environ', setupEnv.loop (env + buf.length) false fuel mem environ es.length (env + p) =
        some (mem', environ') ∧ buf'.length = buf.length ∧
      Leaves buf' es' mem env mem' environ' := by
  induction fuel generalizing buf mem es environ p with
  | zero => simp [EnvBuf.setupEnvLoop] at h
  | succ fuel ih =>
    unfold EnvBuf.setupEnvLoop at h
    rw [setupEnv.loop]
    by_cases hlt : p < buf.length
    · rw [if_pos hlt] at h
      rw [if_pos (by omega)]
      simp only [Bool.false_eq_true, if_false, ok_bind] at h ⊢
      obtain ⟨c, hc, h⟩ := exists_of_bind_eq_ok h
      simp only [Option.bind_eq_bind, Option.bind_some, hheld.read hc]
      by_cases hstop : c = 0 ∨ buf.length ≤ p
      · rw [if_pos hstop] at h
        obtain ⟨rfl, rfl⟩ := Prod.mk.inj (Except.ok.inj h)
        rw [if_pos (hstop.imp_right fun hle => by omega)]
        exact ⟨mem, environ, rfl, rfl, hheld, fun _ _ => rfl, hentries⟩
      rw [if_neg hstop] at h
      rw [if_neg fun hor => hstop (hor.imp_right fun hle => by omega)]
      by_cases hplaces : es.length < 200
      · rw [if_pos hplaces] at h
        obtain ⟨q, hq, h⟩ := exists_of_bind_eq_ok h
        obtain ⟨buf₁, hwrite, h⟩ := exists_of_bind_eq_ok h
        obtain ⟨hqlt, hlen, hheld₁⟩ := hheld.write hwrite
        rw [if_pos hplaces, hheld.eol hq, Option.bind_some]
        have hentries₁ : ∀ j, (h : j < (es ++ [p]).length) →
            Function.update environ es.length (env + p) j = env + (es ++ [p])[j] := fun j hj => by
          rw [List.getElem_append]
          split_ifs with hj'
          · rw [Function.update_of_ne (by omega)]
            exact hentries j hj'
          · have hjlast : j = es.length := by
              rw [List.length_append, List.length_singleton] at hj
              omega
            simp [hjlast]
        obtain ⟨mem', environ', hrun, hlen', hheld', haround, hentries'⟩ := ih hheld₁ hentries₁ h
        rw [hlen, List.length_append, List.length_singleton, ← Nat.add_assoc] at hrun
        refine ⟨mem', environ', hrun, hlen'.trans hlen, hheld', fun a ha => ?_, hentries'⟩
        rw [haround a ha, Function.update_of_ne (by omega)]
      · rw [if_neg hplaces] at h
        simp at h
    · rw [if_neg hlt] at h
      obtain ⟨rfl, rfl⟩ := Prod.mk.inj (Except.ok.inj h)
      rw [if_neg (by omega)]
      exact ⟨mem, environ, rfl, rfl, hheld, fun _ _ => rfl, hentries⟩

/-- A run that does not leave the buffer is the run in every memory that holds the buffer, and what
is around the buffer stays. -/
theorem setupEnv_sound (h : buf.setupEnv = .ok (buf', es)) (hheld : buf.HeldAt mem env) :
    ∃ mem' environ', AcrnUt.setupEnv (buf.length + 1) mem (fun _ => 0) env buf.length =
      some (mem', environ') ∧ Leaves buf' es mem env mem' environ' := by
  unfold EnvBuf.setupEnv at h
  obtain ⟨p, hscan, h⟩ := exists_of_bind_eq_ok h
  obtain ⟨hscan', hp⟩ : AcrnUt.advance (fun c => c ≠ 0) mem (buf.length + 1) env = some (env + p) ∧
      p < buf.length := hheld.advance hscan
  rw [decide_eq_false hp.ne] at h
  obtain ⟨mem', environ', hrun, -, hleaves⟩ := @HeldAt.setupEnvLoop buf buf' mem env 0
    (buf.length + 1) [] es (fun _ => 0) hheld (fun j hj => absurd hj (Nat.not_lt_zero j)) h
  refine ⟨mem', environ', ?_, hleaves⟩
  have hnewline : decide (env + p = env + buf.length) = false := by
    simpa using hp.ne
  unfold AcrnUt.setupEnv
  simp only [hscan', Option.bind_eq_bind, Option.bind_some, hnewline]
  exact hrun

end Sound

end EnvBuf

/-- The boot strings stay inside their buffers, with a NULL behind the entries, if and only if the
words and their NULs fit `args_copy` and all places of `__argv` but one, and the environment buffer
is not empty, has an empty string, and at most 199 before it. -/
theorem bootStrings_iff (args : CString) (s : ArgState) (buf : EnvBuf) :
    ((∃ s', setupArgs args s = .ok s' ∧ s'.argv.length < 100) ↔
        s.copyPtr + wordBytes (words args.bytes) ≤ 1000 ∧
          s.argv.length + (words args.bytes).length < 100) ∧
      ((∃ buf' environ, buf.setupEnv = .ok (buf', environ) ∧ environ.length < 200) ↔
        buf ≠ [] ∧ [] ∈ buf.splitOn 0 ∧
          ((buf.splitOn 0).takeWhile (· ≠ [])).length < 200) := by
  refine ⟨setupArgs_iff args s, ?_⟩
  rcases EnvBuf.setupEnv_spec buf with ⟨hne, hfits, environ, hrun, hlen⟩ | ⟨hfits, hrun⟩
  · constructor
    · rintro ⟨buf', environ', hrun', hlt⟩
      obtain ⟨-, rfl⟩ := Prod.mk.inj (Except.ok.inj (hrun.symm.trans hrun'))
      exact ⟨hne, hfits.1, by rwa [hlen] at hlt⟩
    · rintro ⟨-, -, hlt⟩
      exact ⟨buf, environ, hrun, by rwa [hlen]⟩
  · refine iff_of_false ?_ (fun h => hfits ⟨h.1, h.2.1, ?_⟩)
    · rintro ⟨buf', environ', hrun', -⟩
      simp [hrun] at hrun'
    · have : (envStrings buf).length < 200 := h.2.2
      simpa using this.le

theorem zero_notMem_manyWords (n : ℕ) :
    (0 : BitVec 8) ∉ (List.replicate n [0x61, 0x20]).flatten := fun h => by
  obtain ⟨l, hl, h⟩ := List.mem_flatten.mp h
  rw [List.eq_of_mem_replicate hl] at h
  revert h
  decide

/-- A command line of `n` words. -/
def manyWords (n : ℕ) : CString :=
  ⟨(List.replicate n [0x61, 0x20]).flatten, zero_notMem_manyWords n⟩

theorem words_manyWords (n : ℕ) : words (manyWords n).bytes = List.replicate n [0x61] := by
  unfold manyWords
  dsimp only
  induction n with
  | zero => rfl
  | succ n ih =>
    rw [List.replicate_succ, List.flatten_cons, List.replicate_succ, ← ih,
      ← words_blank (c := 0x20) rfl]
    exact words_append (w := [0x61]) (by decide) (by decide) (fun c hc => by
      obtain rfl := Option.some.inj hc
      rfl)

/-- More than 100 words leave `__argv`. -/
theorem setupArgs_manyWords {n : ℕ} (hn : 100 < n) :
    setupArgs (manyWords n) ArgState.start = .error .fault := by
  have hwords : ¬ArgState.start.Fits (words (manyWords n).bytes) := fun h => by
    have hlen : ArgState.start.argv.length + (words (manyWords n).bytes).length ≤ 100 := h.2
    rw [words_manyWords, List.length_replicate] at hlen
    omega
  exact ((loop_spec (Nat.lt_succ_self _) (manyWords n).zero_notMem ArgState.start).resolve_left
    fun h => hwords h.1).2

/-- 101 words leave `__argv`. The line `A=1`, and a last string without a NUL, are read and written
past their ends. -/
theorem bootStrings_overrun :
    setupArgs (manyWords 101) ArgState.start = .error .fault ∧
      EnvBuf.setupEnv [0x41, 0x3d, 0x31, 0x0a] = .error .fault ∧
      EnvBuf.setupEnv [0x41, 0x00, 0x42] = .error .fault := by
  exact ⟨setupArgs_manyWords (by omega), by decide +kernel, by decide +kernel⟩

end AcrnUt
