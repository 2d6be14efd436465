import AcrnUt.Spinlock

/-!
# The spinlock test

`arm/spinlock-test.c` : every CPU takes a lock, writes 0 and 1 into two globals in one order or
the other, and counts an error if the two are then equal. `main` chooses between a lock of
test-and-set and `none_lock`, which reads the word and then writes it.

With the first, no CPU ever counts an error. With the second, CPU 1 may report one in some run
as soon as there are two CPUs and the loop is not empty, if the build loads the globals again to
compare them. They are plain `int`s, and a compiler that optimises, as at the `-O2` of
`arm/Makefile.common`, may take the values of the two stores before, and drop the comparison. So
every run of the test passes exactly if `main` is given an argument other than `bad`, or there is
nothing to exclude, or the build compares nothing (`SpinlockTest.allPass_iff`).
-/

set_option linter.unusedSectionVars false

namespace AcrnUt

open Sections

/-! ## The test -/

namespace SpinlockTest

/-- `global_a` and `global_b`. -/
structure Globals where
  a : ℕ
  b : ℕ

/-- What a build makes of `global_a == global_b` : two loads, or false, from the values of the two
stores before. -/
inductive Build
  | loads
  | folds

/-- Where a CPU is in the loop of `test_spinlock` : at its head, or inside the section, before
the test of `global_a`, the two stores, the two loads, and the unlock. -/
inductive Pc
  | head
  | test
  | setA (a b : ℕ)
  | setB (b : ℕ)
  | loadA
  | loadB (a : ℕ)
  | unlock

/-- The locals of `test_spinlock`. -/
structure Locals where
  i : ℕ
  errors : ℕ
  pc : Pc

/-- A CPU at the start of `test_spinlock`. -/
def Locals.start : Locals :=
  ⟨0, 0, .head⟩

variable {nrCpus : ℕ}

/-- `test_spinlock`, with one step for each access to a global. -/
def next (build : Build) (loopSize : ℕ) (cpu : Fin nrCpus) (l : Locals) : Action Globals Locals :=
  match l.pc with
  | .head => if l.i < loopSize then .acquire { l with pc := .test } else .stop
  | .test => .access fun g =>
      (g, { l with pc := if g.a = (cpu.val + 1) % 2 then .setA 1 0 else .setA 0 1 })
  | .setA a b => .access fun g => ({ g with a := a }, { l with pc := .setB b })
  | .setB b => .access fun g =>
      ({ g with b := b }, { l with pc := match build with | .loads => .loadA | .folds => .unlock })
  | .loadA => .access fun g => (g, { l with pc := .loadB g.a })
  | .loadB a => .access fun g =>
      (g, { l with pc := .unlock, errors := if a = g.b then l.errors + 1 else l.errors })
  | .unlock => .release { l with pc := .head, i := l.i + 1 }

/-- The CPU is inside the section. -/
def Inside (l : Locals) : Prop :=
  match l.pc with
  | .head => False
  | _ => True

/-- The test on every CPU. -/
def testSpinlock (build : Build) (loopSize : ℕ) : Program (Fin nrCpus) Globals Locals where
  next := next build loopSize
  Inside _ := Inside
  own {t l l'} h := by
    obtain ⟨i, errors, pc⟩ := l
    cases pc <;> simp [next] at h
    split at h <;> exact nomatch h
  acquire {t l l'} h := by
    obtain ⟨i, errors, pc⟩ := l
    cases pc <;> simp [next] at h
    split at h
    · cases h
      exact ⟨id, trivial⟩
    · exact nomatch h
  access {t l f} h := by
    obtain ⟨i, errors, pc⟩ := l
    cases pc <;> simp only [next, Action.access.injEq, reduceCtorEq] at h
    · split at h <;> exact nomatch h
    · subst h
      refine ⟨trivial, fun s => ?_⟩
      simp only
      split <;> trivial
    · subst h
      exact ⟨trivial, fun _ => trivial⟩
    · subst h
      cases build <;> exact ⟨trivial, fun _ => trivial⟩
    all_goals subst h; exact ⟨trivial, fun _ => trivial⟩
  release {t l l'} h := by
    obtain ⟨i, errors, pc⟩ := l
    cases pc <;> simp [next] at h
    · split at h <;> exact nomatch h
    · subst h
      exact ⟨trivial, id⟩

section Next

variable {build : Build} {n : ℕ} {cpu : Fin nrCpus} {l l' : Locals}

/-- Every step of the test is one of its lock, or an access to a global. -/
theorem next_ne_own : (testSpinlock build n).next cpu l ≠ .own l' := by
  intro hn
  obtain ⟨i, errors, pc⟩ := l
  cases pc <;> simp only [testSpinlock, next, reduceCtorEq] at hn
  split at hn <;> cases hn

theorem next_acquire (hn : (testSpinlock build n).next cpu l = .acquire l') :
    l.pc = .head ∧ l' = { l with pc := .test } := by
  obtain ⟨i, errors, pc⟩ := l
  cases pc <;> simp only [testSpinlock, next, reduceCtorEq] at hn
  split at hn
  · exact ⟨rfl, (Action.acquire.inj hn).symm⟩
  · cases hn

theorem next_release (hn : (testSpinlock build n).next cpu l = .release l') :
    l.pc = .unlock ∧ l' = { l with pc := .head, i := l.i + 1 } := by
  obtain ⟨i, errors, pc⟩ := l
  cases pc <;> simp only [testSpinlock, next, reduceCtorEq] at hn
  · split at hn <;> cases hn
  · exact ⟨rfl, (Action.release.inj hn).symm⟩

theorem next_head_ne_access {f : Globals → Globals × Locals} (hpc : l.pc = .head) :
    (testSpinlock build n).next cpu l ≠ .access f := by
  intro hn
  simp only [testSpinlock, next, hpc] at hn
  split at hn <;> cases hn

end Next

/-- The CPU has left the loop, and reports whether it has counted no error. -/
def Done (loopSize : ℕ) (l : Locals) : Prop :=
  l.pc = .head ∧ loopSize ≤ l.i

/-! ## With a lock that excludes -/

/-- What a CPU alone in its section knows of the globals. -/
def Knows (g : Globals) (l : Locals) : Prop :=
  match l.pc with
  | .setA a b => a ≠ b
  | .setB b => g.a ≠ b
  | .loadA => g.a ≠ g.b
  | .loadB a => a ≠ g.b
  | _ => True

/-- No step of a section counts an error. -/
theorem within_errors {build : Build} {n : ℕ} {cpu : Fin nrCpus} {x y : Globals × Locals}
    (h : Within (testSpinlock build n) cpu x y) (hk : Knows x.1 x.2) (he : x.2.errors = 0) :
    Knows y.1 y.2 ∧ y.2.errors = 0 := by
  cases h with
  | own hn => exact absurd hn next_ne_own
  | @access g l f hn =>
    obtain ⟨i, errors, pc⟩ := l
    cases pc with
    | head => exact absurd hn (next_head_ne_access rfl)
    | test =>
      cases hn
      refine ⟨?_, he⟩
      by_cases hg : g.a = (cpu.val + 1) % 2 <;> simp [Knows, hg]
    | setA a b => cases hn; exact ⟨hk, he⟩
    | setB b =>
      cases hn
      refine ⟨?_, he⟩
      cases build with
      | loads => exact hk
      | folds => trivial
    | loadA => cases hn; exact ⟨hk, he⟩
    | loadB a =>
      cases hn
      refine ⟨trivial, ?_⟩
      simpa [show a ≠ g.b from hk] using he
    | unlock => cases hn

/-- So no section does. -/
theorem section_errors {build : Build} {n : ℕ} {cpu : Fin nrCpus} {g g' : Globals}
    {l l' : Locals} (h : Section (testSpinlock build n) cpu g l g' l') (he : l.errors = 0) :
    l'.errors = 0 := by
  obtain ⟨l₁, l₂, hacq, hrun, hrel⟩ := h
  have h₁ : Knows g l₁ ∧ l₁.errors = 0 := by
    obtain ⟨-, rfl⟩ := next_acquire hacq
    exact ⟨trivial, he⟩
  have h₂ : Knows g' l₂ ∧ l₂.errors = 0 := by
    refine Relation.ReflTransGen.head_induction_on (motive := fun x _ =>
      Knows x.1 x.2 ∧ x.2.errors = 0 → Knows g' l₂ ∧ l₂.errors = 0) hrun id ?_ h₁
    exact fun hw _ ih hx => ih (within_errors hw hx.1 hx.2)
  obtain ⟨-, rfl⟩ := next_release hrel
  exact h₂.2

/-- The state before `on_cpus` calls `test_spinlock`. -/
def start {W : Type*} (w : W) : Sections (Fin nrCpus) Globals Locals W :=
  ⟨w, ⟨0, 0⟩, fun _ => .start⟩

/-- With a lock that excludes, a CPU that is outside its section has counted no error. -/
theorem errors_eq_zero {W : Type*} {k : Lock (Fin nrCpus) W} {w₀ : W} (E : Excludes k w₀)
    {build : Build} {n : ℕ} {s : Sections (Fin nrCpus) Globals Locals W}
    (h : Run (testSpinlock build n) k (start w₀) s) {cpu : Fin nrCpus}
    (hpc : (s.thread cpu).pc = .head) : (s.thread cpu).errors = 0 := by
  have hquiet : Quiet (testSpinlock build n) (start w₀ : Sections (Fin nrCpus) Globals Locals W) :=
    fun _ => id
  have hinv := invariant (I := fun _ => True) (J := fun _ l => l.errors = 0) E hquiet h trivial
    (fun _ => rfl) (fun _ _ hn => absurd hn next_ne_own)
    fun _ he hs => ⟨trivial, section_errors hs he⟩
  refine hinv.2 cpu ?_
  simp [testSpinlock, Inside, hpc]

/-! ## Without the comparison -/

/-- The CPU has counted no error and is not about to compare. -/
def Skips (l : Locals) : Prop :=
  l.errors = 0 ∧ l.pc ≠ .loadA ∧ ∀ a, l.pc ≠ .loadB a

/-- A step of a build that compares nothing counts no error, whatever the lock does. -/
theorem skips_step {W : Type*} {k : Lock (Fin nrCpus) W} {n : ℕ}
    {s s' : Sections (Fin nrCpus) Globals Locals W} {t : Fin nrCpus}
    (h : Sections.Step (testSpinlock .folds n) k t s s') (hs : ∀ cpu, Skips (s.thread cpu)) :
    ∀ cpu, Skips (s'.thread cpu) := by
  obtain ⟨herr, hloadA, hloadB⟩ := hs t
  have hupdate : ∀ l, Skips l → ∀ cpu, Skips (Function.update s.thread t l cpu) := by
    intro l hl cpu
    rcases eq_or_ne cpu t with rfl | hne
    · rwa [Function.update_self]
    · rw [Function.update_of_ne hne]
      exact hs cpu
  cases h with
  | own hn => exact absurd hn next_ne_own
  | acquiring _ _ => exact hs
  | acquired hn _ =>
    obtain ⟨-, rfl⟩ := next_acquire hn
    exact hupdate _ ⟨herr, nofun, nofun⟩
  | access hn =>
    cases hpc : (s.thread t).pc with
    | head => exact absurd hn (next_head_ne_access hpc)
    | loadA => exact absurd hpc hloadA
    | loadB a => exact absurd hpc (hloadB a)
    | test =>
      simp only [testSpinlock, next, hpc] at hn
      cases hn
      refine hupdate _ ⟨herr, ?_, fun a => ?_⟩ <;> simp only <;> split <;> exact nofun
    | setA a b =>
      simp only [testSpinlock, next, hpc] at hn
      cases hn
      exact hupdate _ ⟨herr, nofun, nofun⟩
    | setB b =>
      simp only [testSpinlock, next, hpc] at hn
      cases hn
      exact hupdate _ ⟨herr, nofun, nofun⟩
    | unlock => simp only [testSpinlock, next, hpc, reduceCtorEq] at hn
  | releasing _ _ => exact hs
  | released hn _ =>
    obtain ⟨-, rfl⟩ := next_release hn
    exact hupdate _ ⟨herr, nofun, nofun⟩

/-- So no run of it does. -/
theorem skips_of_run {W : Type*} {k : Lock (Fin nrCpus) W} {w₀ : W} {n : ℕ}
    {s : Sections (Fin nrCpus) Globals Locals W}
    (h : Run (testSpinlock .folds n) k (start w₀) s) (cpu : Fin nrCpus) : Skips (s.thread cpu) := by
  induction h generalizing cpu with
  | refl => exact ⟨rfl, nofun, nofun⟩
  | tail _ hstep ih =>
    obtain ⟨t, hstep⟩ := hstep
    exact skips_step hstep ih cpu

/-! ## With none -/

/-- Where a CPU is in `none_lock` : outside, past the loop that reads 0, or past the store. -/
inductive NonePc
  | out
  | seen
  | held
  deriving DecidableEq

/-- The word that `none_lock` reads and writes, and where the CPUs are. -/
structure NoneLock (nrCpus : ℕ) where
  v : ℤ
  pc : Fin nrCpus → NonePc

/-- The word before it is used. -/
def NoneLock.init : NoneLock nrCpus :=
  ⟨0, fun _ => .out⟩

/-- One step of a CPU in `none_lock` or `none_unlock`. -/
inductive NoneLock.Step (p : Fin nrCpus) (w : NoneLock nrCpus) : Label → NoneLock nrCpus → Prop
  | busy : w.pc p = .out → w.v ≠ 0 → Step p w .internal w
  | seen : w.pc p = .out → w.v = 0 →
      Step p w .internal { w with pc := Function.update w.pc p .seen }
  | store : w.pc p = .seen → Step p w .acquired ⟨1, Function.update w.pc p .held⟩
  | unlock : w.pc p = .held → Step p w .released ⟨0, Function.update w.pc p .out⟩

/-- `none_lock` and `none_unlock`. -/
def noneLock : Lock (Fin nrCpus) (NoneLock nrCpus) :=
  ⟨fun p lab w w' => NoneLock.Step p w lab w'⟩

/-- A CPU that is alone excludes itself. -/
def NoneLock.excludes (hone : nrCpus ≤ 1) :
    Excludes noneLock (NoneLock.init : NoneLock nrCpus) where
  Ok _ := True
  Holds w p := w.pc p = .held
  start := ⟨trivial, fun _ => nofun⟩
  internal {p w w'} _ hs := by
    have hp : ∀ q : Fin nrCpus, q = p := fun q => Fin.ext (by omega)
    cases hs with
    | busy _ _ => exact ⟨trivial, fun _ => Iff.rfl⟩
    | seen hpc _ => exact ⟨trivial, fun q => by simp [hp q, hpc]⟩
  acquired {p w w'} _ hs := by
    have hp : ∀ q : Fin nrCpus, q = p := fun q => Fin.ext (by omega)
    cases hs with
    | store hpc => exact ⟨trivial, fun q => by simp [hp q, hpc], fun q => by simp [hp q]⟩
  released {p w w'} _ _ hs := by
    have hp : ∀ q : Fin nrCpus, q = p := fun q => Fin.ext (by omega)
    cases hs with
    | unlock _ => exact ⟨trivial, fun q => by simp [hp q]⟩

/-- Two CPUs with `none_lock`, and the others not begun. -/
def two (p q : Fin nrCpus) (v : ℤ) (cp cq : NonePc) (g : Globals) (lp lq : Locals) :
    Sections (Fin nrCpus) Globals Locals (NoneLock nrCpus) :=
  ⟨⟨v, Function.update (Function.update (fun _ => .out) p cp) q cq⟩, g,
    Function.update (Function.update (fun _ => .start) p lp) q lq⟩

section Two

variable {p q : Fin nrCpus} {v : ℤ} {cp cq : NonePc} {g : Globals} {lp lq l' : Locals} {n : ℕ}

/-- Runs of the test with `none_lock`, of a build that loads the globals to compare them. -/
abbrev NoneRun (n : ℕ) :
    Sections (Fin nrCpus) Globals Locals (NoneLock nrCpus) →
      Sections (Fin nrCpus) Globals Locals (NoneLock nrCpus) → Prop :=
  Run (testSpinlock .loads n) noneLock

theorem two_comm (hpq : p ≠ q) : two p q v cp cq g lp lq = two q p v cq cp g lq lp := by
  unfold two
  rw [Function.update_comm hpq, Function.update_comm hpq]

/-- The second CPU reads 0 in `none_lock`. -/
theorem two_seen (hn : next .loads n q lq = .acquire l') :
    NoneRun n (two p q 0 cp .out g lp lq) (two p q 0 cp .seen g lp lq) := by
  have h : NoneLock.Step q (two p q 0 cp .out g lp lq).lock .internal
      (two p q 0 cp .seen g lp lq).lock := by
    simpa [two] using NoneLock.Step.seen (w := (two p q 0 cp .out g lp lq).lock) (p := q)
      (Function.update_self ..) rfl
  refine Sections.Step.run (t := q) (.acquiring (l := l') ?_ h)
  simpa [two, testSpinlock] using hn

/-- It stores 1, whatever the word is by then. -/
theorem two_store (hn : next .loads n q lq = .acquire l') :
    NoneRun n (two p q v cp .seen g lp lq) (two p q 1 cp .held g lp l') := by
  have h : NoneLock.Step q (two p q v cp .seen g lp lq).lock .acquired
      (two p q 1 cp .held g lp lq).lock := by
    simpa [two] using NoneLock.Step.store (w := (two p q v cp .seen g lp lq).lock) (p := q)
      (Function.update_self ..)
  have hs := Sections.Step.acquired (P := testSpinlock .loads n) (k := noneLock) (t := q) (l := l')
    (s := two p q v cp .seen g lp lq) (by simpa [two, testSpinlock] using hn) h
  simpa [two] using hs.run

/-- It accesses a global. -/
theorem two_access {f : Globals → Globals × Locals} {g' : Globals}
    (hn : next .loads n q lq = .access f) (hf : f g = (g', l')) :
    NoneRun n (two p q v cp cq g lp lq) (two p q v cp cq g' lp l') := by
  have hs := Sections.Step.access (P := testSpinlock .loads n) (k := noneLock) (t := q) (f := f)
    (s := two p q v cp cq g lp lq) (by simpa [two, testSpinlock] using hn)
  simpa [two, hf] using hs.run

/-- It looks at `global_a` to choose between its stores. -/
theorem two_test {i e : ℕ} {c : Pc}
    (hc : (if g.a = (q.val + 1) % 2 then Pc.setA 1 0 else Pc.setA 0 1) = c) :
    NoneRun n (two p q v cp cq g lp ⟨i, e, .test⟩) (two p q v cp cq g lp ⟨i, e, c⟩) :=
  two_access rfl (by rw [hc])

/-- It leaves its section. -/
theorem two_unlock (hn : next .loads n q lq = .release l') :
    NoneRun n (two p q v cp .held g lp lq) (two p q 0 cp .out g lp l') := by
  have h : NoneLock.Step q (two p q v cp .held g lp lq).lock .released
      (two p q 0 cp .out g lp lq).lock := by
    simpa [two] using NoneLock.Step.unlock (w := (two p q v cp .held g lp lq).lock) (p := q)
      (Function.update_self ..)
  have hs := Sections.Step.released (P := testSpinlock .loads n) (k := noneLock) (t := q) (l := l')
    (s := two p q v cp .held g lp lq) (by simpa [two, testSpinlock] using hn) h
  simpa [two] using hs.run

/-- The second CPU may make a turn of the loop while the other stays where it is. -/
theorem two_turn {i e : ℕ} (hi : i < n) :
    ∃ g' e', e ≤ e' ∧ NoneRun n (two p q 0 cp .out g lp ⟨i, e, .head⟩)
      (two p q 0 cp .out g' lp ⟨i + 1, e', .head⟩) := by
  have hacq : next .loads n q ⟨i, e, .head⟩ = .acquire ⟨i, e, .test⟩ := if_pos hi
  have htest : ∃ a b, NoneRun n (two p q 1 cp .held g lp ⟨i, e, .test⟩)
      (two p q 1 cp .held g lp ⟨i, e, .setA a b⟩) := by
    by_cases hg : g.a = (q.val + 1) % 2
    · exact ⟨1, 0, two_test (if_pos hg)⟩
    · exact ⟨0, 1, two_test (if_neg hg)⟩
  obtain ⟨a, b, htest⟩ := htest
  have hstores : NoneRun n (two p q 1 cp .held g lp ⟨i, e, .setA a b⟩)
      (two p q 1 cp .held ⟨a, b⟩ lp ⟨i, e, .loadA⟩) :=
    (two_access rfl rfl).trans (two_access rfl rfl)
  have hloads : NoneRun n (two p q 1 cp .held ⟨a, b⟩ lp ⟨i, e, .loadA⟩)
      (two p q 1 cp .held ⟨a, b⟩ lp ⟨i, if a = b then e + 1 else e, .unlock⟩) :=
    (two_access rfl rfl).trans (two_access rfl rfl)
  refine ⟨⟨a, b⟩, if a = b then e + 1 else e, by split <;> omega, ?_⟩
  exact (two_seen hacq).trans ((two_store hacq).trans (htest.trans (hstores.trans
    (hloads.trans (two_unlock rfl)))))

/-- So it may finish, and loses no error on the way. -/
theorem two_done {i e : ℕ} (hi : i ≤ n) :
    ∃ g' e', e ≤ e' ∧ NoneRun n (two p q 0 cp .out g lp ⟨i, e, .head⟩)
      (two p q 0 cp .out g' lp ⟨n, e', .head⟩) := by
  induction hk : n - i generalizing i e g with
  | zero =>
    obtain rfl : i = n := by omega
    exact ⟨g, e, le_rfl, .refl⟩
  | succ k ih =>
    have hi' : i < n := by omega
    obtain ⟨g₁, e₁, he₁, hrun₁⟩ := two_turn (g := g) hi'
    obtain ⟨g₂, e₂, he₂, hrun₂⟩ := ih hi' (by omega)
    exact ⟨g₂, e₂, he₁.trans he₂, hrun₁.trans hrun₂⟩

/-- CPUs 0 and 1 may both read 0, and then write the globals in turns. -/
theorem two_error (hn : 0 < n) (hp : p.val = 0) (hq : q.val = 1) :
    NoneRun n (start NoneLock.init)
      (two p q 0 .held .out ⟨1, 1⟩ ⟨0, 0, .loadA⟩ ⟨1, 1, .head⟩) := by
  have hpq : p ≠ q := fun h => by simp [h, hq] at hp
  have hstart : start NoneLock.init = two p q 0 .out .out ⟨0, 0⟩ .start .start := by
    simp [start, two, NoneLock.init]
  have hacq : ∀ cpu : Fin nrCpus, next .loads n cpu .start = .acquire ⟨0, 0, .test⟩ :=
    fun _ => if_pos hn
  rw [hstart]
  -- Both read 0, and both store 1.
  have h₁ : NoneRun n (two p q 0 .out .out ⟨0, 0⟩ .start .start)
      (two p q 0 .out .seen ⟨0, 0⟩ .start .start) := two_seen (hacq q)
  have h₂ : NoneRun n (two p q 0 .out .seen ⟨0, 0⟩ .start .start)
      (two p q 1 .held .seen ⟨0, 0⟩ ⟨0, 0, .test⟩ .start) := by
    rw [two_comm hpq, two_comm hpq]
    exact (two_seen (hacq p)).trans (two_store (hacq p))
  have h₃ : NoneRun n (two p q 1 .held .seen ⟨0, 0⟩ ⟨0, 0, .test⟩ .start)
      (two p q 1 .held .held ⟨0, 0⟩ ⟨0, 0, .test⟩ ⟨0, 0, .test⟩) := two_store (hacq q)
  -- CPU 0 sets `global_a` to 0, which CPU 1 reads.
  have h₄ : NoneRun n (two p q 1 .held .held ⟨0, 0⟩ ⟨0, 0, .test⟩ ⟨0, 0, .test⟩)
      (two p q 1 .held .held ⟨0, 0⟩ ⟨0, 0, .setB 1⟩ ⟨0, 0, .test⟩) := by
    rw [two_comm hpq, two_comm hpq]
    exact (two_test (if_neg (by simp [hp]))).trans (two_access rfl rfl)
  have h₅ : NoneRun n (two p q 1 .held .held ⟨0, 0⟩ ⟨0, 0, .setB 1⟩ ⟨0, 0, .test⟩)
      (two p q 1 .held .held ⟨1, 0⟩ ⟨0, 0, .setB 1⟩ ⟨0, 0, .loadB 1⟩) :=
    (two_test (if_pos (by simp [hq]))).trans
      ((two_access rfl rfl).trans ((two_access rfl rfl).trans (two_access rfl rfl)))
  -- CPU 0 now sets `global_b` to 1, which CPU 1 compares with the 1 of its own.
  have h₆ : NoneRun n (two p q 1 .held .held ⟨1, 0⟩ ⟨0, 0, .setB 1⟩ ⟨0, 0, .loadB 1⟩)
      (two p q 1 .held .held ⟨1, 1⟩ ⟨0, 0, .loadA⟩ ⟨0, 0, .loadB 1⟩) := by
    rw [two_comm hpq, two_comm hpq]
    exact two_access rfl rfl
  have h₇ : NoneRun n (two p q 1 .held .held ⟨1, 1⟩ ⟨0, 0, .loadA⟩ ⟨0, 0, .loadB 1⟩)
      (two p q 0 .held .out ⟨1, 1⟩ ⟨0, 0, .loadA⟩ ⟨1, 1, .head⟩) :=
    (two_access rfl rfl).trans (two_unlock rfl)
  exact h₁.trans (h₂.trans (h₃.trans (h₄.trans (h₅.trans (h₆.trans h₇)))))

end Two

/-! ## The two modes of the test -/

/-- The locks that `main` chooses between. -/
inductive LockOps
  | gccBuiltin
  | none
  deriving DecidableEq

/-- The choice of `main`. -/
def lockOps (argv : List String) : LockOps :=
  match argv with
  | _ :: arg :: _ => if arg ≠ "bad" then .gccBuiltin else .none
  | _ => .none

/-- In every run with the lock, a CPU that has left the loop reports no error. -/
def AllPass (build : Build) (nrCpus loopSize : ℕ) {W : Type} (k : Lock (Fin nrCpus) W) (w₀ : W) :
    Prop :=
  ∀ s, Run (testSpinlock build loopSize) k (start w₀) s →
    ∀ cpu, Done loopSize (s.thread cpu) → (s.thread cpu).errors = 0

/-- The test with the lock that `main` chooses. -/
def LockOps.AllPass (build : Build) (nrCpus loopSize : ℕ) : LockOps → Prop
  | .gccBuiltin => SpinlockTest.AllPass build nrCpus loopSize genericSpinLock TasLock.init
  | .none => SpinlockTest.AllPass build nrCpus loopSize noneLock NoneLock.init

/-- With an empty loop, no CPU ever moves. -/
theorem thread_of_empty {build : Build} {W : Type} {k : Lock (Fin nrCpus) W} {w₀ : W}
    {s : Sections (Fin nrCpus) Globals Locals W} (h : Run (testSpinlock build 0) k (start w₀) s) :
    s.thread = fun _ => .start := by
  induction h with
  | refl => rfl
  | @tail s s' _ hstep ih =>
    obtain ⟨t, hstep⟩ := hstep
    have hstop : (testSpinlock build 0).next t (s.thread t) = .stop := by rw [ih]; rfl
    cases hstep with
    | own hn => exact nomatch hstop.symm.trans hn
    | acquiring hn _ => exact nomatch hstop.symm.trans hn
    | acquired hn _ => exact nomatch hstop.symm.trans hn
    | access hn => exact nomatch hstop.symm.trans hn
    | releasing hn _ => exact nomatch hstop.symm.trans hn
    | released hn _ => exact nomatch hstop.symm.trans hn

/-- With `none_lock`, CPU 1 reports an error in some run of a build that compares. -/
theorem not_allPass_none {loopSize : ℕ} (hn : 0 < loopSize) (hcpus : 1 < nrCpus) :
    ¬ LockOps.none.AllPass .loads nrCpus loopSize := by
  intro h
  have hp : 0 < nrCpus := by omega
  obtain ⟨g, e, he, hrun⟩ := two_done (p := ⟨0, hp⟩) (q := ⟨1, hcpus⟩) (g := ⟨1, 1⟩) (e := 1) hn
  have hdone := h _ ((two_error hn rfl rfl).trans hrun) ⟨1, hcpus⟩
  simp only [two, Function.update_self] at hdone
  have hzero : e = 0 := hdone ⟨rfl, le_rfl⟩
  omega

/-- Every run of the test passes exactly if its argument is another than `bad`, or there is one
CPU, or the loop is empty, or the build compares nothing. -/
theorem allPass_iff (build : Build) (argv : List String) (loopSize : ℕ) :
    (lockOps argv).AllPass build nrCpus loopSize ↔
      (∃ name arg rest, argv = name :: arg :: rest ∧ arg ≠ "bad") ∨ nrCpus ≤ 1 ∨ loopSize = 0 ∨
        build = .folds := by
  have hbuiltin : lockOps argv = .gccBuiltin ↔
      ∃ name arg rest, argv = name :: arg :: rest ∧ arg ≠ "bad" := by
    unfold lockOps
    split
    · split <;> simp_all
    · simp_all
  rw [← hbuiltin]
  cases hops : lockOps argv with
  | gccBuiltin =>
    have hpass : LockOps.gccBuiltin.AllPass build nrCpus loopSize :=
      fun s hrun cpu hdone => errors_eq_zero TasLock.excludes hrun hdone.1
    exact iff_of_true hpass (Or.inl rfl)
  | none =>
    rw [or_iff_right (show ¬ LockOps.none = .gccBuiltin from nofun)]
    constructor
    · intro h
      by_contra hnot
      cases build with
      | loads => exact not_allPass_none (by omega) (by omega) h
      | folds => exact hnot (Or.inr (Or.inr rfl))
    · rintro (hone | rfl | rfl) s hrun cpu hdone
      · exact errors_eq_zero (NoneLock.excludes hone) hrun hdone.1
      · rw [thread_of_empty hrun]
        rfl
      · exact (skips_of_run hrun cpu).1

end SpinlockTest

end AcrnUt
