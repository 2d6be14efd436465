import Mathlib.Logic.Function.Basic
import AcrnUt.Getenv

/-!
# The environment file

`setup_env` of `lib/argv.c` turns the text of a file in memory into `__environ` : it overwrites line
ends with NULs and stores pointers to the lines. `env_next` skips what is not a variable, and puts
NULs for a while where it prints a line. The loops of the code run over the text up to its NUL, so
they are given fuel here, and more fuel than the text has characters is enough.

For a text with no NULs, the pointers spell the lines of the form `name=value`, in order, each up to
a NUL (`setupEnv_lines`).
-/

set_option linter.unusedSectionVars false

namespace AcrnUt

/-! ## The code -/

/-- The bytes of memory. -/
abbrev Bytes := ℕ → BitVec 8

/-- `'\n'`. -/
def newlineChar : BitVec 8 := 0x0a

/-- `isblank`. -/
def isblank (c : BitVec 8) : Bool :=
  c = 0x20 ∨ c = 0x09

/-- `isalpha` of `argv.c`, which takes `_` for a letter. -/
def isalpha (c : BitVec 8) : Bool :=
  (0x41 ≤ c ∧ c ≤ 0x5a) ∨ (0x61 ≤ c ∧ c ≤ 0x7a) ∨ c = 0x5f

/-- `isalnum`. -/
def isalnum (c : BitVec 8) : Bool :=
  isalpha c ∨ (0x30 ≤ c ∧ c ≤ 0x39)

/-- `while (cond(*p)) ++p`. -/
def advance (cond : BitVec 8 → Bool) (mem : Bytes) : ℕ → ℕ → Option ℕ
  | 0, _ => none
  | fuel + 1, p => if cond (mem p) then advance cond mem fuel (p + 1) else some p

/-- `env_eol`. -/
def envEol (fuel : ℕ) (mem : Bytes) (env : ℕ) : Option ℕ :=
  advance (fun c => c ≠ 0 ∧ c ≠ newlineChar) mem fuel env

/-- `env_invalid_eol`. The line is printed while its end is a NUL. -/
def envInvalidEol (fuel : ℕ) (mem : Bytes) (env : ℕ) : Option (Bytes × ℕ) := do
  let eol ← envEol fuel mem env
  let eolOld := mem eol
  let mem := Function.update mem eol 0
  let mem := Function.update mem eol eolOld
  some (mem, eol)

/-- The loop of `env_next` over a name. -/
def envNext.name (mem : Bytes) : ℕ → ℕ → Bool → Option (ℕ × Bool)
  | 0, _, _ => none
  | fuel + 1, p, invalid =>
    if mem p ≠ 0 ∧ mem p ≠ equalsSign ∧ mem p ≠ newlineChar then
      envNext.name mem fuel (p + 1) (if isalnum (mem p) then invalid else true)
    else some (p, invalid)

/-- `env_next`. -/
def envNext : ℕ → Bytes → ℕ → Option (Bytes × ℕ)
  | 0, _, _ => none
  | fuel + 1, mem, env => do
    if mem env = 0 then
      some (mem, env)
    else if isalpha (mem env) then
      let (p, invalid) ← envNext.name mem (fuel + 1) (env + 1) false
      let invalid := if mem p ≠ equalsSign then true else invalid
      if invalid then
        let (mem, env) ← envInvalidEol (fuel + 1) mem env
        if mem env ≠ 0 then envNext fuel mem (env + 1) else some (mem, env)
      else
        some (mem, env)
    else
      let p ← advance isblank mem (fuel + 1) env
      if mem p = newlineChar then
        envNext fuel mem (p + 1)
      else
        let (mem, env) ←
          if mem p = 0x23 then (envEol (fuel + 1) mem env).map fun env => (mem, env)
          else envInvalidEol (fuel + 1) mem env
        if mem env ≠ 0 then envNext fuel mem (env + 1) else some (mem, env)

/-- The loop of `setup_env` over a variable, up to the end of the text and of the line. -/
def setupEnv.eol (eof : ℕ) (newline : Bool) (mem : Bytes) : ℕ → ℕ → Option ℕ
  | 0, _ => none
  | fuel + 1, env =>
    if env < eof ∧ mem env ≠ 0 ∧ ¬(newline ∧ mem env = newlineChar) then
      setupEnv.eol eof newline mem fuel (env + 1)
    else some env

/-- The loop of `setup_env`. `__environ` has 200 places. -/
def setupEnv.loop (eof : ℕ) (newline : Bool) :
    ℕ → Bytes → (ℕ → ℕ) → ℕ → ℕ → Option (Bytes × (ℕ → ℕ))
  | 0, _, _, _, _ => none
  | fuel + 1, mem, environ, i, env => do
    if env < eof then
      let (mem, env) ← if newline then envNext (fuel + 1) mem env else some (mem, env)
      if mem env = 0 ∨ eof ≤ env then
        some (mem, environ)
      else if i < 200 then
        let environ := Function.update environ i env
        let env ← setupEnv.eol eof newline mem (fuel + 1) env
        setupEnv.loop eof newline fuel (Function.update mem env 0) environ (i + 1) (env + 1)
      else none
    else some (mem, environ)

/-- `setup_env`. -/
def setupEnv (fuel : ℕ) (mem : Bytes) (environ : ℕ → ℕ) (env size : ℕ) :
    Option (Bytes × (ℕ → ℕ)) := do
  let eof := env + size
  let p ← advance (fun c => c ≠ 0) mem fuel env
  let newline := decide (p = eof)
  setupEnv.loop eof newline fuel mem environ 0 env

/-! ## What the file says -/

/-- A line of the form `[A-Za-z_][A-Za-z0-9_]*=` and anything. -/
def EnvLine (l : List (BitVec 8)) : Prop :=
  ∃ c k v, l = c :: k ++ equalsSign :: v ∧ isalpha c ∧ ∀ x ∈ k, isalnum x

theorem not_isalnum_equalsSign : ¬isalnum equalsSign := by
  decide

theorem takeWhile_name {k : List (BitVec 8)} (h : equalsSign ∉ k) (v : List (BitVec 8)) :
    (k ++ equalsSign :: v).takeWhile (· ≠ equalsSign) = k := by
  rw [List.takeWhile_append_of_pos, List.takeWhile_cons_of_neg (by simp), List.append_nil]
  intro x hx
  have hne : x ≠ equalsSign := fun heq => h (heq ▸ hx)
  simpa using hne

/-- The name is what stands before the first `=`. -/
theorem envLine_cons_iff (c : BitVec 8) (r : List (BitVec 8)) :
    EnvLine (c :: r) ↔
      isalpha c ∧ equalsSign ∈ r ∧ ∀ x ∈ r.takeWhile (· ≠ equalsSign), isalnum x := by
  constructor
  · rintro ⟨c', k, v, heq, hc, hk⟩
    rw [List.cons_append] at heq
    obtain ⟨rfl, rfl⟩ := List.cons.inj heq
    rw [takeWhile_name fun hmem => not_isalnum_equalsSign (hk _ hmem)]
    exact ⟨hc, List.mem_append_right _ List.mem_cons_self, hk⟩
  · rintro ⟨hc, hmem, hk⟩
    obtain ⟨k, v, rfl, hnot⟩ := List.eq_append_cons_of_mem hmem
    rw [takeWhile_name hnot] at hk
    exact ⟨c, k, v, rfl, hc, hk⟩

theorem not_envLine_nil : ¬EnvLine [] := by
  rintro ⟨c, k, v, h, -⟩
  cases h

instance : DecidablePred EnvLine := fun l =>
  match l with
  | [] => .isFalse not_envLine_nil
  | c :: r =>
    decidable_of_iff
      (isalpha c ∧ r.contains equalsSign ∧ (r.takeWhile (· ≠ equalsSign)).all isalnum) <| by
        rw [envLine_cons_iff, List.contains_iff_mem, List.all_eq_true]

/-- The lines of the text that define a variable. -/
def envLines (text : List (BitVec 8)) : List (List (BitVec 8)) :=
  (text.splitOn newlineChar).filter (EnvLine ·)

@[simp] theorem envLines_nil : envLines [] = [] :=
  List.filter_cons_of_neg (by simp [not_envLine_nil])

/-- The last line. -/
theorem envLines_line {line : List (BitVec 8)} (h : newlineChar ∉ line) :
    envLines line = if EnvLine line then [line] else [] := by
  unfold envLines
  rw [List.splitOn_eq_singleton h, List.filter_cons]
  simp

/-- A line that others follow. -/
theorem envLines_append {line : List (BitVec 8)} (h : newlineChar ∉ line)
    (rest : List (BitVec 8)) :
    envLines (line ++ newlineChar :: rest) =
      if EnvLine line then line :: envLines rest else envLines rest := by
  unfold envLines
  rw [List.splitOn_append_cons_self_of_not_mem h, List.filter_cons]
  simp

/-- The first line of a text. -/
theorem exists_line (text : List (BitVec 8)) :
    ∃ line tail, text = line ++ tail ∧ newlineChar ∉ line ∧
      (tail = [] ∨ ∃ rest, tail = newlineChar :: rest) := by
  by_cases h : newlineChar ∈ text
  · obtain ⟨line, rest, rfl, hline⟩ := List.eq_append_cons_of_mem h
    exact ⟨line, _, rfl, hline, Or.inr ⟨rest, rfl⟩⟩
  · exact ⟨text, [], (List.append_nil _).symm, h, Or.inl rfl⟩

/-! ## Memory -/

/-- The memory at `p` spells `s`. -/
def Spells (mem : Bytes) : ℕ → List (BitVec 8) → Prop
  | _, [] => True
  | p, c :: s => mem p = c ∧ Spells mem (p + 1) s

section Spells

variable {mem mem' : Bytes} {p : ℕ} {s t : List (BitVec 8)} {c : BitVec 8}

theorem spells_append : Spells mem p (s ++ t) ↔ Spells mem p s ∧ Spells mem (p + s.length) t := by
  induction s generalizing p with
  | nil => simp [Spells]
  | cons c s ih =>
    rw [List.cons_append, Spells, Spells, ih, and_assoc, List.length_cons, Nat.add_right_comm,
      Nat.add_assoc]

/-- The character after a part. -/
theorem Spells.next (h : Spells mem p (s ++ c :: t)) : mem (p + s.length) = c :=
  (spells_append.mp h).2.1

theorem Spells.congr (h : Spells mem p s) (heq : ∀ a, p ≤ a → a < p + s.length → mem' a = mem a) :
    Spells mem' p s := by
  induction s generalizing p with
  | nil => trivial
  | cons c s ih =>
    rw [List.length_cons] at heq
    exact ⟨(heq p (Nat.le_refl p) (by omega)).trans h.1,
      ih h.2 fun a ha ha' => heq a (by omega) (by omega)⟩

/-- A scan stops at the first character that does not meet the condition. -/
theorem advance_eq {cond : BitVec 8 → Bool} {fuel : ℕ} (h : Spells mem p (s ++ c :: t))
    (hs : ∀ x ∈ s, cond x) (hc : ¬cond c) (hfuel : s.length < fuel) :
    advance cond mem fuel p = some (p + s.length) := by
  induction s generalizing p fuel with
  | nil =>
    obtain ⟨fuel, rfl⟩ := Nat.exists_eq_succ_of_ne_zero (Nat.ne_zero_of_lt hfuel)
    rw [advance, h.1, if_neg hc]
    rfl
  | cons x s ih =>
    obtain ⟨fuel, rfl⟩ := Nat.exists_eq_succ_of_ne_zero (Nat.ne_zero_of_lt hfuel)
    rw [List.length_cons] at hfuel ⊢
    rw [advance, h.1, if_pos (hs x List.mem_cons_self),
      ih h.2 (fun y hy => hs y (List.mem_cons_of_mem _ hy)) (by omega)]
    congr 1
    omega

/-! ## One line -/

/-- A character that is no end of a line. -/
def InLine (c : BitVec 8) : Prop :=
  c ≠ 0 ∧ c ≠ newlineChar

/-- The end of a line. -/
def LineEnd (c : BitVec 8) : Prop :=
  c = 0 ∨ c = newlineChar

theorem envEol_eq {fuel : ℕ} (h : Spells mem p (s ++ c :: t)) (hs : ∀ x ∈ s, InLine x)
    (hc : LineEnd c) (hfuel : s.length < fuel) : envEol fuel mem p = some (p + s.length) := by
  refine advance_eq h (fun x hx => decide_eq_true (hs x hx)) ?_ hfuel
  rcases hc with rfl | rfl <;> simp

/-- The end of the line is put back. -/
theorem envInvalidEol_eq {fuel : ℕ} (h : Spells mem p (s ++ c :: t)) (hs : ∀ x ∈ s, InLine x)
    (hc : LineEnd c) (hfuel : s.length < fuel) :
    envInvalidEol fuel mem p = some (mem, p + s.length) := by
  unfold envInvalidEol
  rw [envEol_eq h hs hc hfuel]
  simp

/-- The loop over a name stops at an `=` or at the end of the line. -/
theorem name_eq {fuel : ℕ} (h : Spells mem p (s ++ c :: t))
    (hs : ∀ x ∈ s, InLine x ∧ x ≠ equalsSign) (hc : LineEnd c ∨ c = equalsSign)
    (hfuel : s.length < fuel) (invalid : Bool) :
    envNext.name mem fuel p invalid =
      some (p + s.length, if ∀ x ∈ s, isalnum x then invalid else true) := by
  induction s generalizing p fuel invalid with
  | nil =>
    obtain ⟨fuel, rfl⟩ := Nat.exists_eq_succ_of_ne_zero (Nat.ne_zero_of_lt hfuel)
    rw [envNext.name, h.1, if_neg]
    · simp
    · rintro ⟨h0, heq, hnl⟩
      rcases hc with (rfl | rfl) | rfl
      · exact h0 rfl
      · exact hnl rfl
      · exact heq rfl
  | cons x s ih =>
    obtain ⟨fuel, rfl⟩ := Nat.exists_eq_succ_of_ne_zero (Nat.ne_zero_of_lt hfuel)
    rw [List.length_cons] at hfuel ⊢
    obtain ⟨⟨h0, hnl⟩, heq⟩ := hs x List.mem_cons_self
    rw [envNext.name, h.1, if_pos ⟨h0, heq, hnl⟩,
      ih h.2 (fun y hy => hs y (List.mem_cons_of_mem _ hy)) (by omega)]
    simp only [List.forall_mem_cons]
    rw [Nat.add_right_comm, Nat.add_assoc]
    by_cases hx : isalnum x <;> simp [hx]

/-- After a letter, the scan of the name tells whether the line is a variable. -/
theorem scan_name {fuel : ℕ} {x : BitVec 8} (h : Spells mem (p + 1) (s ++ c :: t))
    (hs : ∀ y ∈ s, InLine y) (hc : LineEnd c) (hx : isalpha x) (hfuel : s.length < fuel) :
    ∃ q invalid, envNext.name mem fuel (p + 1) false = some (q, invalid) ∧
      ((if mem q ≠ equalsSign then true else invalid) = true ↔ ¬EnvLine (x :: s)) := by
  rw [envLine_cons_iff]
  by_cases hmem : equalsSign ∈ s
  · obtain ⟨k, v, rfl, hnot⟩ := List.eq_append_cons_of_mem hmem
    have hk : Spells mem (p + 1) (k ++ equalsSign :: (v ++ c :: t)) := by
      simpa using h
    rw [List.length_append] at hfuel
    refine ⟨_, _, name_eq hk (fun y hy => ⟨hs y ?_, fun heq => hnot (heq ▸ hy)⟩) (Or.inr rfl)
      (by omega) false, ?_⟩
    · exact List.mem_append_left _ hy
    · rw [hk.next, takeWhile_name hnot]
      simp [hx]
  · have hcne : c ≠ equalsSign := by
      rcases hc with rfl | rfl <;> decide
    refine ⟨_, _, name_eq h (fun y hy => ⟨hs y hy, fun heq => hmem (heq ▸ hy)⟩) (Or.inl hc) hfuel
      false, ?_⟩
    rw [h.next]
    simp [hcne, hmem]

/-- The blanks end in the line, unless the line is blank. -/
theorem scan_blanks {fuel : ℕ} (h : Spells mem p (s ++ c :: t)) (hs : ∀ y ∈ s, InLine y)
    (hc : LineEnd c) (hfuel : s.length < fuel) :
    ∃ q, advance isblank mem fuel p = some q ∧
      (mem q = newlineChar → q = p + s.length ∧ c = newlineChar) := by
  have hsplit := List.takeWhile_append_dropWhile (p := isblank) (l := s)
  have hpre : ∀ y ∈ s.takeWhile isblank, isblank y := fun y hy =>
    List.all_eq_true.mp List.all_takeWhile y hy
  have hlen := (List.takeWhile_prefix (p := isblank) (l := s)).length_le
  cases hd : s.dropWhile isblank with
  | nil =>
    rw [hd, List.append_nil] at hsplit
    rw [hsplit] at hpre
    refine ⟨_, advance_eq h hpre ?_ hfuel, fun hq => ⟨rfl, ?_⟩⟩
    · rcases hc with rfl | rfl <;> decide
    · rw [← hq, h.next]
  | cons d r =>
    rw [hd] at hsplit
    have hnot : ¬isblank d := by
      have := List.head?_dropWhile_not isblank s
      rw [hd] at this
      simpa using this
    have hat : Spells mem p (s.takeWhile isblank ++ d :: (r ++ c :: t)) := by
      rw [← List.cons_append, ← List.append_assoc, hsplit]
      exact h
    refine ⟨_, advance_eq hat hpre hnot (by omega), fun hq => ?_⟩
    have hmem : d ∈ s := hsplit ▸ List.mem_append_right _ List.mem_cons_self
    exact absurd (hat.next.symm.trans hq) (hs d hmem).2

/-- `env_next` stays at a variable, and goes on to the next line from any other. -/
theorem envNext_line {fuel : ℕ} (h : Spells mem p (s ++ c :: t)) (hs : ∀ x ∈ s, InLine x)
    (hc : LineEnd c) (hne : s ≠ [] ∨ c ≠ 0) (hfuel : s.length ≤ fuel) :
    envNext (fuel + 1) mem p =
      if EnvLine s then some (mem, p)
      else if c = 0 then some (mem, p + s.length)
      else envNext fuel mem (p + s.length + 1) := by
  have hlast : mem (p + s.length) = c := h.next
  have hfuel' : s.length < fuel + 1 := Nat.lt_succ_of_le hfuel
  -- How the branches that skip the line go on.
  have hskip : (if mem (p + s.length) ≠ 0 then envNext fuel mem (p + s.length + 1)
      else some (mem, p + s.length)) =
      if c = 0 then some (mem, p + s.length) else envNext fuel mem (p + s.length + 1) := by
    rw [hlast]
    by_cases h0 : c = 0 <;> simp [h0]
  obtain ⟨q, hblank, hnewline⟩ := scan_blanks h hs hc hfuel'
  cases s with
  | nil =>
    obtain rfl : c = newlineChar := hc.resolve_left (hne.resolve_left fun h => h rfl)
    have hp : mem p = newlineChar := hlast
    rw [advance, hp, if_neg (by decide)] at hblank
    cases hblank
    rw [envNext, hp, if_neg (by decide), if_neg (by decide), advance, hp, if_neg (by decide),
      if_neg not_envLine_nil, if_neg (by decide)]
    simp [hp]
  | cons x l =>
    have hx : mem p = x := h.1
    rw [envNext, hx, if_neg (hs x List.mem_cons_self).1]
    by_cases halpha : isalpha x
    · obtain ⟨q, invalid, hname, hinvalid⟩ := scan_name h.2
        (fun y hy => hs y (List.mem_cons_of_mem _ hy)) hc halpha (Nat.lt_of_succ_lt hfuel')
      rw [if_pos halpha, hname]
      simp only [Option.bind_eq_bind, Option.bind_some]
      by_cases hline : EnvLine (x :: l)
      · rw [if_pos hline, if_neg fun hinv => hinvalid.mp hinv hline]
      · rw [if_neg hline, if_pos (hinvalid.mpr hline), envInvalidEol_eq h hs hc hfuel']
        exact hskip
    · have hline : ¬EnvLine (x :: l) := fun h => halpha ((envLine_cons_iff x l).mp h).1
      rw [if_neg halpha, if_neg hline, hblank]
      simp only [Option.bind_eq_bind, Option.bind_some]
      by_cases hq : mem q = newlineChar
      · obtain ⟨rfl, rfl⟩ := hnewline hq
        rw [if_pos hq, if_neg (by decide)]
      · -- A comment, or a line that is printed.
        rw [if_neg hq, envInvalidEol_eq h hs hc hfuel', envEol_eq h hs hc hfuel']
        split <;> exact hskip

end Spells

/-! ## The text -/

section Text

variable {mem : Bytes} {p : ℕ} {text line tail : List (BitVec 8)}

/-- A line of the text, with the character that ends it. -/
theorem Spells.lineEnd (h : Spells mem p (line ++ tail ++ [0])) (h0 : 0 ∉ line ++ tail)
    (hline : newlineChar ∉ line) (htail : tail = [] ∨ ∃ rest, tail = newlineChar :: rest) :
    (∀ x ∈ line, InLine x) ∧
      ∃ c t, LineEnd c ∧ Spells mem p (line ++ c :: t) ∧ (c = 0 ↔ tail = []) := by
  refine ⟨fun x hx => ⟨fun heq => h0 (List.mem_append_left _ (heq ▸ hx)),
    fun heq => hline (heq ▸ hx)⟩, ?_⟩
  rcases htail with rfl | ⟨rest, rfl⟩
  · exact ⟨0, [], Or.inl rfl, by simpa using h, by simp⟩
  · exact ⟨newlineChar, rest ++ [0], Or.inr rfl, by simpa using h,
      iff_of_false (by decide) (List.cons_ne_nil _ _)⟩

/-- `env_next` goes to the next variable of the text, or to its end. -/
theorem envNext_eq {fuel : ℕ} (h : Spells mem p (text ++ [0])) (h0 : 0 ∉ text)
    (hfuel : text.length < fuel) :
    ∃ s r, text = s ++ r ∧ envNext fuel mem p = some (mem, p + s.length) ∧
      envLines r = envLines text ∧
      (r = [] ∨ ∃ line tail, r = line ++ tail ∧ EnvLine line ∧ newlineChar ∉ line ∧
        (tail = [] ∨ ∃ rest, tail = newlineChar :: rest)) := by
  induction fuel generalizing p text with
  | zero => omega
  | succ fuel ih =>
    by_cases hnil : text = []
    · subst hnil
      refine ⟨[], [], rfl, ?_, rfl, Or.inl rfl⟩
      rw [envNext, h.1, if_pos rfl]
      rfl
    obtain ⟨line, tail, rfl, hline, htail⟩ := exists_line text
    obtain ⟨hin, c, t, hc, hat, hcnil⟩ := h.lineEnd h0 hline htail
    rw [List.length_append] at hfuel
    have hstep := @envNext_line _ _ _ _ _ fuel hat hin hc
      (by by_contra hor; simp_all) (by omega)
    by_cases henv : EnvLine line
    · rw [if_pos henv] at hstep
      exact ⟨[], line ++ tail, rfl, hstep, rfl, Or.inr ⟨line, tail, rfl, henv, hline, htail⟩⟩
    rw [if_neg henv] at hstep
    rcases htail with rfl | ⟨rest, rfl⟩
    · rw [if_pos (hcnil.mpr rfl)] at hstep
      refine ⟨line, [], rfl, hstep, ?_, Or.inl rfl⟩
      rw [List.append_nil, envLines_line hline, if_neg henv]
      simp
    · rw [if_neg fun h => by cases hcnil.mp h] at hstep
      have hrest : Spells mem (p + line.length + 1) (rest ++ [0]) := by
        have := (spells_append.mp (by simpa using h)).2
        exact this.2
      obtain ⟨s, r, rfl, hnext, hlines, hr⟩ := ih hrest
        (fun h => h0 (List.mem_append_right _ (List.mem_cons_of_mem _ h)))
        (by simp only [List.length_cons] at hfuel; omega)
      refine ⟨line ++ newlineChar :: s, r, by simp, ?_, ?_, hr⟩
      · rw [hstep, hnext, List.length_append, List.length_cons]
        congr 2
        omega
      · rw [envLines_append hline, if_neg henv, hlines]

/-- The end of a variable. -/
theorem eol_eq {eof fuel : ℕ} {c : BitVec 8} {t : List (BitVec 8)}
    (h : Spells mem p (line ++ c :: t)) (hin : ∀ x ∈ line, InLine x) (hc : LineEnd c)
    (heof : p + line.length ≤ eof) (hfuel : line.length < fuel) :
    setupEnv.eol eof true mem fuel p = some (p + line.length) := by
  induction line generalizing p fuel with
  | nil =>
    obtain ⟨fuel, rfl⟩ := Nat.exists_eq_succ_of_ne_zero (Nat.ne_zero_of_lt hfuel)
    rw [setupEnv.eol, h.1, if_neg]
    · rfl
    · rintro ⟨-, h0, hnl⟩
      rcases hc with rfl | rfl
      · exact h0 rfl
      · exact hnl ⟨rfl, rfl⟩
  | cons x line ih =>
    obtain ⟨fuel, rfl⟩ := Nat.exists_eq_succ_of_ne_zero (Nat.ne_zero_of_lt hfuel)
    rw [List.length_cons] at hfuel heof ⊢
    obtain ⟨h0, hnl⟩ := hin x List.mem_cons_self
    rw [setupEnv.eol, h.1, if_pos ⟨by omega, h0, fun h => hnl h.2⟩,
      ih h.2 (fun y hy => hin y (List.mem_cons_of_mem _ hy)) (by omega) (by omega)]
    congr 1
    omega

/-- The loop of `setup_env`, at the `i`th place of `__environ` and at `p`, stores `lines`, and does
not touch what lies before it. -/
def Stores (eof fuel : ℕ) (mem : Bytes) (environ : ℕ → ℕ) (i p : ℕ)
    (lines : List (List (BitVec 8))) : Prop :=
  ∃ mem' environ', setupEnv.loop eof true fuel mem environ i p = some (mem', environ') ∧
    (∀ a < p, mem' a = mem a) ∧
    (∀ j line, lines[j]? = some line →
      p ≤ environ' (i + j) ∧ Spells mem' (environ' (i + j)) (line ++ [0])) ∧
    ∀ j, j < i ∨ i + lines.length ≤ j → environ' j = environ j

theorem stores_nil {eof fuel i : ℕ} {environ : ℕ → ℕ}
    (h : setupEnv.loop eof true fuel mem environ i p = some (mem, environ)) :
    Stores eof fuel mem environ i p [] :=
  ⟨mem, environ, h, fun _ _ => rfl, fun _ _ hj => by simp at hj, fun _ _ => rfl⟩

/-- A turn of the loop that stores the line at `q`, and the turns after it. -/
theorem Stores.cons {eof fuel i q : ℕ} {environ : ℕ → ℕ} {lines : List (List (BitVec 8))}
    (h : Stores eof fuel (Function.update mem (q + line.length) 0) (Function.update environ i q)
      (i + 1) (q + line.length + 1) lines)
    (hturn : setupEnv.loop eof true (fuel + 1) mem environ i p =
      setupEnv.loop eof true fuel (Function.update mem (q + line.length) 0)
        (Function.update environ i q) (i + 1) (q + line.length + 1))
    (hpq : p ≤ q) (hat : Spells mem q line) :
    Stores eof (fuel + 1) mem environ i p (line :: lines) := by
  obtain ⟨mem', environ', hloop, hmem, hspells, hkeep⟩ := h
  refine ⟨mem', environ', hturn.trans hloop, fun a ha => ?_, fun j line' hj => ?_, fun j hj => ?_⟩
  · rw [hmem a (by omega), Function.update_of_ne (by omega)]
  · cases j with
    | zero =>
      cases hj
      rw [Nat.add_zero, hkeep i (Or.inl (Nat.lt_succ_self i)), Function.update_self]
      refine ⟨hpq, spells_append.mpr ⟨hat.congr fun a _ ha => ?_, ?_, trivial⟩⟩
      · rw [hmem a (by omega), Function.update_of_ne (by omega)]
      · rw [hmem _ (by omega), Function.update_self]
    | succ j =>
      rw [show i + (j + 1) = i + 1 + j by omega]
      obtain ⟨hle, hspell⟩ := hspells j line' hj
      exact ⟨by omega, hspell⟩
  · rw [List.length_cons] at hj
    rw [hkeep j (by omega), Function.update_of_ne (by omega)]

/-- The loop stores the variables of the text. -/
theorem stores_envLines {eof fuel : ℕ} (h : Spells mem p (text ++ [0])) (h0 : 0 ∉ text)
    (heof : p + text.length = eof) (hfuel : text.length < fuel) (environ : ℕ → ℕ) (i : ℕ)
    (hroom : i + (envLines text).length ≤ 200) :
    Stores eof fuel mem environ i p (envLines text) := by
  induction fuel generalizing mem p text environ i with
  | zero => omega
  | succ fuel ih =>
    by_cases hnil : text = []
    · subst hnil
      rw [envLines_nil]
      refine stores_nil ?_
      rw [setupEnv.loop, if_neg (by simp at heof; omega)]
    have hpos := List.length_pos_iff.mpr hnil
    obtain ⟨s, r, rfl, hnext, hlines, hr⟩ := envNext_eq h h0 hfuel
    rw [List.length_append] at heof hfuel hpos
    have hat : Spells mem (p + s.length) (r ++ [0]) := by
      rw [List.append_assoc] at h
      exact (spells_append.mp h).2
    rw [← hlines] at hroom ⊢
    rcases hr with rfl | ⟨line, tail, rfl, henv, hline, htail⟩
    · -- No variable is left.
      rw [envLines_nil]
      refine stores_nil ?_
      rw [setupEnv.loop, if_pos (by omega), if_pos rfl, hnext]
      simp only [Option.bind_eq_bind, Option.bind_some]
      rw [if_pos (Or.inl hat.1)]
    obtain ⟨hin, c, t, hc, hat', -⟩ := hat.lineEnd (fun h => h0 (List.mem_append_right _ h)) hline
      htail
    rw [List.length_append] at heof hfuel
    -- The variable is not empty, so the loop has not come to the end.
    obtain ⟨x, l, hxl⟩ : ∃ x l, line = x :: l := by
      obtain ⟨x, k, v, heq, -⟩ := henv
      exact ⟨x, _, heq⟩
    have hfirst : mem (p + s.length) ≠ 0 := by
      rw [hxl] at hat' hin
      rw [hat'.1]
      exact (hin x List.mem_cons_self).1
    have hlen : 0 < line.length := by
      rw [hxl]
      exact Nat.zero_lt_succ _
    have hplace : i < 200 := by
      rcases htail with rfl | ⟨rest, rfl⟩
      · rw [List.append_nil, envLines_line hline, if_pos henv, List.length_singleton] at hroom
        omega
      · rw [envLines_append hline, if_pos henv, List.length_cons] at hroom
        omega
    have hturn : setupEnv.loop eof true (fuel + 1) mem environ i p =
        setupEnv.loop eof true fuel (Function.update mem (p + s.length + line.length) 0)
          (Function.update environ i (p + s.length)) (i + 1) (p + s.length + line.length + 1) := by
      rw [setupEnv.loop, if_pos (by omega), if_pos rfl, hnext]
      simp only [Option.bind_eq_bind, Option.bind_some]
      rw [if_neg (not_or.mpr ⟨hfirst, by omega⟩), if_pos hplace,
        eol_eq hat' hin hc (by omega) (by omega), Option.bind_some]
    have hspell : Spells mem (p + s.length) line := (spells_append.mp hat').1
    rcases htail with rfl | ⟨rest, rfl⟩
    · rw [List.append_nil, envLines_line hline, if_pos henv]
      refine (stores_nil ?_).cons hturn (Nat.le_add_right ..) hspell
      obtain ⟨fuel, rfl⟩ := Nat.exists_eq_succ_of_ne_zero (show fuel ≠ 0 by omega)
      rw [setupEnv.loop, if_neg (by simp at heof; omega)]
    · rw [envLines_append hline, if_pos henv] at hroom ⊢
      rw [List.length_cons] at heof hfuel hroom
      have hrest : Spells mem (p + s.length + line.length + 1) (rest ++ [0]) := by
        have := (spells_append.mp (by simpa using hat)).2
        exact this.2
      have h0rest : 0 ∉ rest := fun h => h0 (List.mem_append_right _
        (List.mem_append_right _ (List.mem_cons_of_mem _ h)))
      refine (ih (hrest.congr fun a ha _ => Function.update_of_ne (by omega) ..) h0rest (by omega)
        (by omega) _ _ (by omega)).cons hturn (Nat.le_add_right ..) hspell

end Text

/-- For every text without NULs that is followed by a NUL and has at most 199 lines of the form
`[A-Za-z_][A-Za-z0-9_]*=` and anything, `setup_env` leaves these lines in `__environ`, in order,
each up to a NUL and with a null pointer after the last. -/
theorem setupEnv_lines {mem : Bytes} {env : ℕ} {text : List (BitVec 8)} (h0 : 0 ∉ text)
    (htext : Spells mem env (text ++ [0])) (hlines : (envLines text).length ≤ 199) {fuel : ℕ}
    (hfuel : text.length < fuel) :
    ∃ mem' environ', setupEnv fuel mem (fun _ => 0) env text.length = some (mem', environ') ∧
      (∀ j line, (envLines text)[j]? = some line →
        env ≤ environ' j ∧ Spells mem' (environ' j) (line ++ [0])) ∧
      environ' (envLines text).length = 0 := by
  have hscan : advance (fun c => c ≠ 0) mem fuel env = some (env + text.length) :=
    advance_eq htext (fun x hx => decide_eq_true fun heq => h0 (heq ▸ hx)) (by simp) hfuel
  obtain ⟨mem', environ', hloop, -, hspells, hrest⟩ :=
    stores_envLines htext h0 rfl hfuel (fun _ => 0) 0 (by omega)
  refine ⟨mem', environ', ?_, fun j line hj => ?_, hrest _ (Or.inr (by omega))⟩
  · unfold setupEnv
    rw [hscan]
    simpa using hloop
  · simpa using hspells j line hj

/-- A file with a variable, a comment, and a variable without a line end. -/
def sampleText : List (BitVec 8) :=
  ['A', '=', '1', '\n', '#', '\n', '_', 'b', '='].map fun c => BitVec.ofNat 8 c.toNat

/-- The file at 0x100. -/
def sampleMem : Bytes := fun a =>
  (sampleText ++ [0]).getD (a - 0x100) 0

theorem setupEnv_lines_two : ∃ mem' environ',
    setupEnv 10 sampleMem (fun _ => 0) 0x100 9 = some (mem', environ') ∧
      Spells mem' (environ' 0) [0x41, 0x3d, 0x31, 0] ∧
      Spells mem' (environ' 1) [0x5f, 0x62, 0x3d, 0] ∧ environ' 2 = 0 := by
  have hspells : Spells sampleMem 0x100 (sampleText ++ [0]) := by
    simp only [sampleText, Spells, List.map_cons, List.map_nil, List.cons_append, List.nil_append]
    decide
  have hlines : envLines sampleText = [[0x41, 0x3d, 0x31], [0x5f, 0x62, 0x3d]] := by
    decide
  have hfuel : sampleText.length < 10 := by
    decide
  obtain ⟨mem', environ', hsetup, hline, hend⟩ :=
    setupEnv_lines (by decide) hspells (by rw [hlines]; decide) hfuel
  rw [hlines] at hline hend
  exact ⟨mem', environ', hsetup, (hline 0 _ rfl).2, (hline 1 _ rfl).2, hend⟩

end AcrnUt
