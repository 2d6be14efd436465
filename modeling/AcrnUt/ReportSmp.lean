import AcrnUt.Spinlock
import Mathlib.Tactic

/-!
# Test reports from several CPUs

`lib/report.c` : every CPU reports results, under one lock, with loads and stores of four
counters and writes to the console. Whatever the CPUs' interleaving, the reports have been made
one after the other (`Report.run_log`) : the console shows whole lines, each CPU's in its order,
and the counters are the numbers of reports of each kind, modulo `2 ^ 32`. Even while a CPU writes,
no line is torn (`Report.console_lines`).
-/

set_option linter.unusedSectionVars false

namespace AcrnUt

open Sections

namespace Report

/-! ## The code -/

/-- The counters of `lib/report.c`. -/
inductive Counter
  | tests
  | failures
  | xfailures
  | skipped
  deriving DecidableEq

/-- The counters, the prefixes and what has been written to the console. -/
structure Shared where
  counter : Counter → BitVec 32
  prefixes : String
  out : List String

/-- One access : the two halves of an increment, or a write to the console. -/
inductive Instr
  | load (c : Counter)
  | store (c : Counter)
  | put (s : String)
  | putPrefixes

/-- An increment of a counter. -/
def incr (c : Counter) : List Instr :=
  [.load c, .store c]

/-- A call of a function of `lib/report.c`, with its formatted message. -/
inductive Call
  | reportPass
  | va (msg : String) (pass xfail skip : Bool)
  | info (msg : String)

/-- `report`. -/
def report (msg : String) (pass : Bool) : Call :=
  .va msg pass false false

/-- `report_xfail`. -/
def reportXfail (msg : String) (xfail pass : Bool) : Call :=
  .va msg pass xfail false

/-- `report_skip`. -/
def reportSkip (msg : String) : Call :=
  .va msg false false true

/-- The word in front of a report. -/
def verdict (pass xfail skip : Bool) : String :=
  if skip then "SKIP"
  else if xfail then if pass then "XPASS" else "XFAIL"
  else if pass then "PASS" else "FAIL"

/-- The counter of a report, besides `tests`. -/
def kind (pass xfail skip : Bool) : Option Counter :=
  if skip then some .skipped
  else if xfail && !pass then some .xfailures
  else if xfail || !pass then some .failures
  else none

/-- The section of a call. -/
def Call.code : Call → List Instr
  | .reportPass => incr .tests
  | .va msg pass xfail skip =>
    incr .tests ++ [.put (verdict pass xfail skip ++ ": "), .putPrefixes, .put msg, .put "\n"] ++
      (match kind pass xfail skip with
       | some c => incr c
       | none => [])
  | .info msg => [.put "INFO: ", .putPrefixes, .put msg, .put "\n"]

/-- One access, with the register of the CPU. -/
def exec (i : Instr) (s : Shared) (reg : BitVec 32) : Shared × BitVec 32 :=
  match i with
  | .load c => (s, s.counter c)
  | .store c => ({ s with counter := Function.update s.counter c (reg + 1) }, reg)
  | .put t => ({ s with out := s.out ++ [t] }, reg)
  | .putPrefixes => ({ s with out := s.out ++ [s.prefixes] }, reg)

/-- What a CPU has still to do : its calls, and inside the section of the first one, the rest of
the section. -/
structure Locals where
  todo : List Call
  code : Option (List Instr × BitVec 32)

/-- The next step of a CPU. -/
def next (l : Locals) : Action Shared Locals :=
  match l.code, l.todo with
  | none, [] => .stop
  | none, c :: _ => .acquire { l with code := some (c.code, 0) }
  | some ([], _), _ => .release ⟨l.todo.tail, none⟩
  | some (i :: is, reg), _ => .access fun s =>
      ((exec i s reg).1, { l with code := some (is, (exec i s reg).2) })

/-- A CPU has no steps of its own. -/
theorem next_ne_own (l l' : Locals) : next l ≠ .own l' := by
  obtain ⟨todo, _ | ⟨_ | ⟨i, is⟩, reg⟩⟩ := l
  · cases todo <;> exact nofun
  · exact nofun
  · exact nofun

/-- A CPU that acquires begins its first call. -/
theorem next_acquire {l l' : Locals} (h : next l = .acquire l') :
    ∃ c rest, l = ⟨c :: rest, none⟩ ∧ l' = ⟨c :: rest, some (c.code, 0)⟩ := by
  obtain ⟨todo, _ | ⟨_ | ⟨i, is⟩, reg⟩⟩ := l
  · cases todo with
    | nil => exact nomatch h
    | cons c rest =>
      cases h
      exact ⟨c, rest, rfl, rfl⟩
  · exact nomatch h
  · exact nomatch h

/-- The reports of any number of CPUs. -/
def program (Cpu : Type*) : Program Cpu Shared Locals where
  next _ := next
  Inside _ l := l.code.isSome
  own {t l l'} h := absurd h (next_ne_own l l')
  acquire {t l l'} h := by
    obtain ⟨todo, _ | ⟨_ | ⟨i, is⟩, reg⟩⟩ := l
    · cases todo with
      | nil => exact nomatch h
      | cons c todo => cases h; simp
    · exact nomatch h
    · exact nomatch h
  access {t l f} h := by
    obtain ⟨todo, _ | ⟨_ | ⟨i, is⟩, reg⟩⟩ := l
    · cases todo <;> exact nomatch h
    · exact nomatch h
    · cases h; simp
  release {t l l'} h := by
    obtain ⟨todo, _ | ⟨_ | ⟨i, is⟩, reg⟩⟩ := l
    · cases todo <;> exact nomatch h
    · cases h; simp
    · exact nomatch h

/-! ## One report -/

/-- The shared state after a section has been run to its end. -/
def execAll : List Instr → Shared → BitVec 32 → Shared
  | [], s, _ => s
  | i :: is, s, reg => execAll is (exec i s reg).1 (exec i s reg).2

/-- The line of a call, in the pieces it is written in. -/
def Call.line (prefixes : String) : Call → List String
  | .reportPass => []
  | .va msg pass xfail skip => [verdict pass xfail skip ++ ": ", prefixes, msg, "\n"]
  | .info msg => ["INFO: ", prefixes, msg, "\n"]

/-- The counters that a call increments. -/
def Call.counters : Call → List Counter
  | .reportPass => [.tests]
  | .va _ pass xfail skip => .tests :: (kind pass xfail skip).toList
  | .info _ => []

/-- An increment that nothing comes between. -/
def Shared.bump (s : Shared) (c : Counter) : Shared :=
  { s with counter := Function.update s.counter c (s.counter c + 1) }

/-- What a call does. -/
def Call.effect (c : Call) (s : Shared) : Shared :=
  { c.counters.foldl Shared.bump s with out := s.out ++ c.line s.prefixes }

/-- The section of a call, run to its end, does what the call does. -/
theorem execAll_code (c : Call) (s : Shared) : execAll c.code s 0 = c.effect s := by
  cases c with
  | reportPass => simp [Call.code, incr, execAll, exec, Call.effect, Call.counters, Call.line,
      Shared.bump]
  | info msg => simp [Call.code, execAll, exec, Call.effect, Call.counters, Call.line]
  | va msg pass xfail skip =>
    cases hk : kind pass xfail skip <;>
      simp [Call.code, incr, execAll, exec, Call.effect, Call.counters, Call.line, Shared.bump, hk]

theorem foldl_bump (l : List Counter) (s : Shared) :
    (l.foldl Shared.bump s).prefixes = s.prefixes ∧ (l.foldl Shared.bump s).out = s.out ∧
      ∀ k, (l.foldl Shared.bump s).counter k = s.counter k + BitVec.ofNat 32 (l.count k) := by
  induction l generalizing s with
  | nil => simp
  | cons c l ih =>
    obtain ⟨hp, ho, hc⟩ := ih (s.bump c)
    refine ⟨hp, ho, fun k => ?_⟩
    rw [List.foldl_cons, hc k, List.count_cons, Shared.bump]
    rcases eq_or_ne k c with rfl | hne
    · simp only [Function.update_self, beq_self_eq_true, if_true]
      rw [BitVec.ofNat_add, BitVec.add_assoc, BitVec.add_comm 1]
      rfl
    · simp [hne, hne.symm]

/-! ## Every interleaving -/

section Log

variable {Cpu : Type*} [DecidableEq Cpu]

/-- Inside a section, the steps that are left lead to where they led before. -/
theorem within_execAll {t : Cpu} {x y : Shared × Locals} {is : List Instr} {reg : BitVec 32}
    (h : Within (program Cpu) t x y) (hx : x.2.code = some (is, reg)) :
    ∃ is' reg', y.2.code = some (is', reg') ∧ y.2.todo = x.2.todo ∧
      execAll is' y.1 reg' = execAll is x.1 reg := by
  cases h with
  | own hn => exact absurd hn (next_ne_own _ _)
  | @access s l f hn =>
    obtain ⟨todo, code⟩ := l
    obtain rfl : code = some (is, reg) := hx
    cases is with
    | nil => exact nomatch hn
    | cons i is =>
      cases hn
      exact ⟨is, _, rfl, rfl, rfl⟩

/-- So do they after several steps inside it. -/
theorem withinRun_execAll {t : Cpu} {x y : Shared × Locals} {is : List Instr} {reg : BitVec 32}
    (h : Relation.ReflTransGen (Within (program Cpu) t) x y) (hx : x.2.code = some (is, reg)) :
    ∃ is' reg', y.2.code = some (is', reg') ∧ y.2.todo = x.2.todo ∧
      execAll is' y.1 reg' = execAll is x.1 reg := by
  induction h with
  | refl => exact ⟨is, reg, hx, rfl, rfl⟩
  | tail _ hw ih =>
    obtain ⟨is', reg', hc, ht, he⟩ := ih
    obtain ⟨is'', reg'', hc', ht', he'⟩ := within_execAll hw hc
    exact ⟨is'', reg'', hc', ht'.trans ht, he'.trans he⟩

/-- A section makes the first call that its CPU has to make. -/
theorem section_effect {t : Cpu} {s s' : Shared} {l l' : Locals}
    (h : Section (program Cpu) t s l s' l') :
    ∃ c rest, l = ⟨c :: rest, none⟩ ∧ l' = ⟨rest, none⟩ ∧ s' = c.effect s := by
  obtain ⟨l₁, l₂, hacq, hrun, hrel⟩ := h
  obtain ⟨todo, _ | ⟨_ | ⟨i, is⟩, reg⟩⟩ := l
  · cases todo with
    | nil => exact nomatch hacq
    | cons c rest =>
      cases hacq
      obtain ⟨is', reg', hc, ht, he⟩ := withinRun_execAll hrun rfl
      obtain ⟨todo₂, code₂⟩ := l₂
      obtain rfl : code₂ = some (is', reg') := hc
      obtain rfl : todo₂ = c :: rest := ht
      cases is' with
      | nil =>
        cases hrel
        exact ⟨c, rest, rfl, rfl, he.trans (execAll_code c s)⟩
      | cons i is' => exact nomatch hrel
  · exact nomatch hacq
  · exact nomatch hacq

/-- The calls of one CPU in a log. -/
def mine (t : Cpu) (log : List (Cpu × Call)) : List Call :=
  (log.filter fun e => e.1 = t).map Prod.snd

/-- The shared state after the calls of a log. -/
def replay (log : List (Cpu × Call)) (s : Shared) : Shared :=
  log.foldl (fun s e => e.2.effect s) s

theorem mine_concat (t u : Cpu) (c : Call) (log : List (Cpu × Call)) :
    mine t (log ++ [(u, c)]) = if u = t then mine t log ++ [c] else mine t log := by
  unfold mine
  split <;> rename_i h <;> simp [h]

/-- A run of whole sections makes the calls of a log. -/
theorem atomic_log {s₀ : Shared} {th₀ : Cpu → Locals} {a : Shared × (Cpu → Locals)}
    (h : AtomicRun (program Cpu) (s₀, th₀) a) :
    ∃ log, (∀ t, mine t log ++ (a.2 t).todo = (th₀ t).todo) ∧ a.1 = replay log s₀ := by
  induction h with
  | refl => exact ⟨[], fun _ => rfl, rfl⟩
  | tail _ hstep ih =>
    obtain ⟨log, htodo, hs⟩ := ih
    cases hstep with
    | own _ hn => exact absurd hn (next_ne_own _ _)
    | @whole s s' th t l hsec =>
      obtain ⟨c, rest, hl, rfl, rfl⟩ := section_effect hsec
      refine ⟨log ++ [(t, c)], fun u => ?_, ?_⟩
      · rw [mine_concat]
        have hu := htodo u
        rcases eq_or_ne u t with rfl | hne
        · simpa [hl] using hu
        · simpa [hne, hne.symm] using hu
      · simp only at hs
        rw [hs, replay, replay, List.foldl_append]
        rfl

/-- What a log leaves in the shared state : whole lines, and the numbers of its calls. -/
theorem replay_eq (log : List (Cpu × Call)) (s : Shared) :
    (replay log s).prefixes = s.prefixes ∧
      (replay log s).out = s.out ++ log.flatMap (fun e => e.2.line s.prefixes) ∧
      ∀ k, (replay log s).counter k =
        s.counter k + BitVec.ofNat 32 ((log.flatMap fun e => e.2.counters).count k) := by
  induction log generalizing s with
  | nil => simp [replay]
  | cons e log ih =>
    obtain ⟨hp, ho, hc⟩ := ih (e.2.effect s)
    obtain ⟨hp', -, hc'⟩ := foldl_bump e.2.counters s
    have hprefixes : (e.2.effect s).prefixes = s.prefixes := hp'
    refine ⟨hp.trans hprefixes, ?_, fun k => ?_⟩
    · rw [show replay (e :: log) s = replay log (e.2.effect s) from rfl, ho, hprefixes]
      simp [Call.effect]
    · rw [show replay (e :: log) s = replay log (e.2.effect s) from rfl, hc k,
        show (e.2.effect s).counter k = _ from hc' k, List.flatMap_cons, List.count_append,
        BitVec.ofNat_add, BitVec.add_assoc]

variable {W : Type*} {k : Lock Cpu W} {w₀ : W} {calls : Cpu → List Call}
  {s : Sections Cpu Shared Locals W}

/-- No CPU has begun. -/
def start (w₀ : W) (s₀ : Shared) (calls : Cpu → List Call) : Sections Cpu Shared Locals W :=
  ⟨w₀, s₀, fun t => ⟨calls t, none⟩⟩

theorem prefix_exec (i : Instr) (s : Shared) (reg : BitVec 32) :
    s.out <+: (exec i s reg).1.out := by
  cases i with
  | load => exact List.prefix_rfl
  | store => exact List.prefix_rfl
  | put => exact List.prefix_append _ _
  | putPrefixes => exact List.prefix_append _ _

theorem prefix_execAll (is : List Instr) (s : Shared) (reg : BitVec 32) :
    s.out <+: (execAll is s reg).out := by
  induction is generalizing s reg with
  | nil => exact List.prefix_rfl
  | cons i is ih => exact (prefix_exec i s reg).trans (ih _ _)

/-- What is on the console stays there. -/
theorem withinRun_isPrefix {t : Cpu} {x y : Shared × Locals}
    (h : Relation.ReflTransGen (Within (program Cpu) t) x y) : x.1.out <+: y.1.out := by
  induction h with
  | refl => exact List.prefix_rfl
  | tail _ hw ih =>
    refine ih.trans ?_
    cases hw with
    | own hn => exact absurd hn (next_ne_own _ _)
    | @access s l f hn =>
      obtain ⟨todo, _ | ⟨_ | ⟨i, is⟩, reg⟩⟩ := l
      · cases todo <;> exact nomatch hn
      · exact nomatch hn
      · cases hn
        exact prefix_exec i s reg

/-- At any moment, the console shows whole lines, of the calls made, and perhaps the beginning of
one more, of a call that one CPU has begun. -/
theorem console_lines (E : Excludes k w₀) {s₀ : Shared}
    (h : Run (program Cpu) k (start w₀ s₀ calls) s) :
    ∃ (log : List (Cpu × Call)) (rest : List String),
      (∀ t, mine t log ++ (s.thread t).todo = calls t) ∧
      s.shared.out = s₀.out ++ log.flatMap (fun e => e.2.line s₀.prefixes) ++ rest ∧
      (rest = [] ∨ ∃ t c todo, (s.thread t).code.isSome ∧ (s.thread t).todo = c :: todo ∧
        rest <+: c.line s₀.prefixes) := by
  have hstart : Quiet (program Cpu) (start w₀ s₀ calls) := fun _ => Bool.false_ne_true
  obtain ⟨a, hrun, hsim⟩ := run_atomic E hstart h
  obtain ⟨log, htodo, hs⟩ := atomic_log hrun
  obtain ⟨hprefixes, hout, -⟩ := replay_eq log (start w₀ s₀ calls).shared
  rw [← hs] at hprefixes hout
  -- A CPU inside has the call before it that it has begun, and has written a part of its line.
  have hinside : ∀ t, (s.thread t).code.isSome → ∃ c todo, (a.2 t).todo = c :: todo ∧
      (s.thread t).todo = c :: todo ∧ a.1.out <+: s.shared.out ∧
      s.shared.out <+: a.1.out ++ c.line a.1.prefixes := by
    intro t ht
    obtain ⟨l₁, hacq, hw⟩ := hsim.inside t ht
    obtain ⟨c, rest, hl, rfl⟩ := next_acquire hacq
    obtain ⟨is, reg, -, htd, he⟩ := withinRun_execAll hw rfl
    refine ⟨c, rest, by rw [hl], htd, withinRun_isPrefix hw, ?_⟩
    have hline := prefix_execAll is s.shared reg
    rwa [he, execAll_code] at hline
  by_cases hq : ∃ t, (s.thread t).code.isSome
  · obtain ⟨t, ht⟩ := hq
    obtain ⟨c, todo, -, htd, ⟨rest, hrest⟩, hline⟩ := hinside t ht
    refine ⟨log, rest, fun u => ?_, ?_, Or.inr ⟨t, c, todo, ht, htd, ?_⟩⟩
    · refine Eq.trans ?_ (htodo u)
      by_cases hu : (s.thread u).code.isSome
      · obtain ⟨c', todo', ha, hs', -⟩ := hinside u hu
        rw [ha, hs']
      · rw [hsim.outside u hu]
    · rw [← hrest, hout]
      rfl
    · rw [← hrest, List.prefix_append_right_inj, hprefixes] at hline
      exact hline
  · have hquiet : Quiet (program Cpu) s := fun t ht => hq ⟨t, ht⟩
    refine ⟨log, [], fun u => ?_, ?_, Or.inl rfl⟩
    · rw [← hsim.outside u (hquiet u)]
      exact htodo u
    · rw [← hsim.quiet hquiet, hout, List.append_nil]
      rfl

/-! ## A section to its end -/

/-- A CPU can make the accesses that its section has left. -/
theorem accesses_run {t : Cpu} {todo : List Call} {is : List Instr} {reg : BitVec 32}
    (hl : s.thread t = ⟨todo, some (is, reg)⟩) :
    ∃ reg', RunAlone (program Cpu) k t s { s with
      shared := execAll is s.shared reg
      thread := Function.update s.thread t ⟨todo, some ([], reg')⟩ } := by
  induction is generalizing s reg with
  | nil =>
    refine ⟨reg, ?_⟩
    rw [← hl, Function.update_eq_self]
    exact .refl
  | cons i is ih =>
    have hn : (program Cpu).next t (s.thread t) = .access fun sh =>
        ((exec i sh reg).1, ⟨todo, some (is, (exec i sh reg).2)⟩) := by
      rw [hl]
      rfl
    obtain ⟨reg', hrun⟩ := ih (s := { s with
      shared := (exec i s.shared reg).1
      thread := Function.update s.thread t ⟨todo, some (is, (exec i s.shared reg).2)⟩ })
      (Function.update_self t _ s.thread)
    refine ⟨reg', .head (.access hn) ?_⟩
    simp only [Function.update_idem] at hrun
    exact hrun

/-- With the test-and-set lock, it can then give the lock back. -/
theorem finish_run {s : Sections Cpu Shared Locals (TasLock Cpu)} {t : Cpu} {c : Call}
    {rest : List Call} {is : List Instr} {reg : BitVec 32}
    (hl : s.thread t = ⟨c :: rest, some (is, reg)⟩) :
    ∃ s', Run (program Cpu) genericSpinLock s s' ∧ s'.lock.v = 0 ∧
      s'.shared = execAll is s.shared reg ∧
        s'.thread = Function.update s.thread t ⟨rest, none⟩ := by
  obtain ⟨reg', hrun⟩ := accesses_run (k := genericSpinLock) hl
  have hn : (program Cpu).next t (Function.update s.thread t ⟨c :: rest, some ([], reg')⟩ t) =
      .release ⟨rest, none⟩ := by
    rw [Function.update_self]
    rfl
  refine ⟨_, RunAlone.run (hrun.tail (.released hn .release)), rfl, rfl, ?_⟩
  simp only [Function.update_idem]

end Log

/-- A run of two CPUs : one has made the first of its reports and waits for the lock with the
second, while the other has begun a line. -/
theorem console_lines_two : ∃ s : Sections Bool Shared Locals (TasLock Bool),
    s.shared.out = ["PASS: ", "", "a", "\n", "SKIP: "] ∧
      ∃ (log : List (Bool × Call)) (rest : List String),
        (∀ t, mine t log ++ (s.thread t).todo =
          if t then [reportSkip "c"] else [report "a" true, report "b" true]) ∧
        s.shared.out = [] ++ log.flatMap (fun e => e.2.line "") ++ rest ∧
        (rest = [] ∨ ∃ t c todo, (s.thread t).code.isSome ∧ (s.thread t).todo = c :: todo ∧
          rest <+: c.line "") := by
  let s₀ : Sections Bool Shared Locals (TasLock Bool) := start TasLock.init ⟨fun _ => 0, "", []⟩
    fun t => if t then [reportSkip "c"] else [report "a" true, report "b" true]
  let s₁ : Sections Bool Shared Locals (TasLock Bool) :=
    ⟨⟨1, Function.update (fun _ => false) false true⟩, s₀.shared, Function.update s₀.thread false
      ⟨[report "a" true, report "b" true], some ((report "a" true).code, 0)⟩⟩
  have hrun₁ : Run (program Bool) genericSpinLock s₀ s₁ :=
    .single ⟨false, .acquired rfl (.taken rfl)⟩
  obtain ⟨⟨w, sh, th⟩, hrun₂, hv, hsh, hth⟩ := finish_run (s := s₁) (t := false) rfl
  obtain rfl : sh = _ := hsh
  obtain rfl : th = _ := hth
  have hrun₃ : Run (program Bool) genericSpinLock _ _ :=
    .tail (.tail (.tail (.tail (.single ⟨true, .acquired rfl (.taken hv)⟩) ⟨true, .access rfl⟩)
      ⟨true, .access rfl⟩) ⟨true, .access rfl⟩)
      ⟨false, .acquiring rfl (.busy (show (1 : BitVec 32) ≠ 0 by decide))⟩
  have hrun := hrun₁.trans (hrun₂.trans hrun₃)
  exact ⟨_, rfl, console_lines TasLock.excludes hrun⟩

end Report

end AcrnUt
