import AcrnUt.Acyclic
import AcrnUt.CpuMask

/-!
# The deadlock check

Before a CPU waits for another one to be idle, `lib/arm/smp.c` enters it in the waiters of that
CPU, and `deadlock_check` follows the waiters of the waiters to see whether a cycle has been closed.
The search keeps no record of the CPUs that it has seen; it ends because it never passes the edge
that was entered last, and without it there is no cycle (`ArmDeadlock.deadlockCheck_spec`). So the
relation stays without cycles until an assertion fails (`ArmDeadlock.deadlock_detection`).
-/

set_option linter.unusedSectionVars false

open Relation

namespace AcrnUt

namespace ArmDeadlock

variable {w : ℕ}

/-- What `__deadlock_check` has found : the CPUs that it prints, each with ` <=> ` before it
except the first. -/
abbrev Chain :=
  Option (List ℕ)

/-- The loop of `__deadlock_check` : the waiters one after the other, each one checked by
`check` unless it is `cpu`. -/
def checkWaiters (cpu : ℕ) (check : ℕ → Option Chain) : List ℕ → Option Chain
  | [] => some none
  | i :: waiters =>
    if i = cpu then some (some [cpu])
    else do
      let found ← check i
      match found with
      | some chain => pure (some (chain ++ [i]))
      | none => checkWaiters cpu check waiters

/-- `__deadlock_check`, with the waiters of `i` and a bound on the depth of the recursion. -/
def checkFrom (nrCpus : ℕ) (waiters : ℕ → CpuMask w) (cpu : ℕ) : ℕ → ℕ → Option Chain
  | 0, _ => none
  | fuel + 1, i =>
    checkWaiters cpu (checkFrom nrCpus waiters cpu fuel) ((waiters i).forEach nrCpus)

/-- `deadlock_check` : it returns, or prints a chain and fails its assertion. -/
def deadlockCheck (nrCpus : ℕ) (waiters : ℕ → CpuMask w) (me cpu fuel : ℕ) : Option Chain := do
  let found ← checkFrom nrCpus waiters cpu fuel me
  match found with
  | some chain => pure (some (chain ++ [me]))
  | none => pure none

/-- `cpumask_set_cpu(me, &on_cpu_info[cpu].waiters)`. -/
def setWaiter (waiters : ℕ → CpuMask w) (me cpu : ℕ) : ℕ → CpuMask w :=
  Function.update waiters cpu ((waiters cpu).setCpu me)

/-- `cpumask_clear_cpu(me, &on_cpu_info[cpu].waiters)`. -/
def clearWaiter (waiters : ℕ → CpuMask w) (me cpu : ℕ) : ℕ → CpuMask w :=
  Function.update waiters cpu ((waiters cpu).clearCpu me)

/-- `i` waits for `j`. -/
def WaitsFor (nrCpus : ℕ) (waiters : ℕ → CpuMask w) (i j : ℕ) : Prop :=
  i < nrCpus ∧ j < nrCpus ∧ (waiters j).testCpu i

section Check

variable [NeZero w] {nrCpus : ℕ} {waiters : ℕ → CpuMask w} {me cpu : ℕ}

theorem mem_forEach {i j : ℕ} (hj : j < nrCpus) :
    i ∈ (waiters j).forEach nrCpus ↔ WaitsFor nrCpus waiters i j := by
  rw [CpuMask.forEach, (CpuMask.forEachFrom_spec nrCpus (waiters j) (-1) le_rfl).2]
  exact ⟨fun h => ⟨h.2.1, hj, h.2.2⟩, fun h => ⟨by omega, h.1, h.2.2⟩⟩

/-- The edge that is entered. -/
theorem waitsFor_setWaiter (hme : me < nrCpus) (hcpu : cpu < nrCpus) :
    WaitsFor nrCpus (setWaiter waiters me cpu) = addEdge (WaitsFor nrCpus waiters) me cpu := by
  ext i j
  unfold WaitsFor setWaiter addEdge
  by_cases h : j = cpu
  · subst h
    rw [Function.update_self, CpuMask.testCpu_setCpu, Bool.or_eq_true, beq_iff_eq]
    constructor
    · rintro ⟨hi, hj, rfl | htest⟩
      · exact Or.inr ⟨rfl, rfl⟩
      · exact Or.inl ⟨hi, hj, htest⟩
    · rintro (⟨hi, hj, htest⟩ | ⟨rfl, -⟩)
      · exact ⟨hi, hj, Or.inr htest⟩
      · exact ⟨hme, hcpu, Or.inl rfl⟩
  · simp [h]

theorem waitsFor_clearWaiter_le :
    WaitsFor nrCpus (clearWaiter waiters me cpu) ≤ WaitsFor nrCpus waiters := by
  rintro i j ⟨hi, hj, htest⟩
  refine ⟨hi, hj, ?_⟩
  rw [clearWaiter, Function.update_apply] at htest
  split at htest
  case isTrue heq =>
    rw [CpuMask.testCpu_clearCpu, Bool.and_eq_true] at htest
    exact heq ▸ htest.2
  case isFalse => exact htest

/-- The search through a list of waiters, when the check of each one but `cpu` ends. -/
theorem checkWaiters_spec {check : ℕ → Option Chain} {p : ℕ → Prop} :
    ∀ {l : List ℕ}, (∀ i ∈ l, i ≠ cpu → ∃ found, check i = some found ∧ (found.isSome ↔ p i)) →
    ∃ found, checkWaiters cpu check l = some found ∧ (found.isSome ↔ ∃ i ∈ l, i = cpu ∨ p i)
  | [], _ => ⟨none, rfl, by simp⟩
  | i :: l, h => by
    rw [checkWaiters]
    split
    case isTrue heq => exact ⟨_, rfl, by simp [heq]⟩
    case isFalse hne =>
      obtain ⟨found, hcheck, hfound⟩ := h i List.mem_cons_self hne
      rw [hcheck, Option.bind_eq_bind, Option.bind_some]
      cases found with
      | some chain => exact ⟨_, rfl, by simp [hfound.1 rfl]⟩
      | none =>
        obtain ⟨found, hrest, hiff⟩ := checkWaiters_spec (l := l) fun j hj =>
          h j (List.mem_cons_of_mem i hj)
        have hp : ¬p i := fun hp => by simpa using hfound.2 hp
        exact ⟨found, hrest, by simp [hiff, hne, hp]⟩

/-- The recursion is as deep as the chains of CPUs that wait, and finds whether `cpu` is the
start of one that ends at `j`. -/
theorem checkFrom_spec (hacyclic : AcyclicRel (WaitsFor nrCpus waiters)) : ∀ (fuel : ℕ) {j : ℕ},
    j < nrCpus → j ≠ cpu →
    (reaching (WaitsFor nrCpus waiters) (Finset.range nrCpus) j).card < fuel →
    ∃ found, checkFrom nrCpus (setWaiter waiters me cpu) cpu fuel j = some found ∧
      (found.isSome ↔ TransGen (WaitsFor nrCpus waiters) cpu j)
  | 0, j, _, _, hfuel => absurd hfuel (Nat.not_lt_zero _)
  | fuel + 1, j, hj, hne, hfuel => by
    rw [checkFrom, setWaiter, Function.update_of_ne hne]
    obtain ⟨found, hcheck, hfound⟩ := checkWaiters_spec (l := (waiters j).forEach nrCpus)
      (p := TransGen (WaitsFor nrCpus waiters) cpu) fun i hi hicpu => by
        have hij := (mem_forEach hj).1 hi
        have hlt := hacyclic.card_reaching_lt (Finset.mem_range.2 hij.1) hij
        exact checkFrom_spec hacyclic fuel hij.1 hicpu (by omega)
    refine ⟨found, hcheck, hfound.trans ⟨?_, fun hpath => ?_⟩⟩
    · rintro ⟨i, hi, rfl | hpath⟩
      · exact .single ((mem_forEach hj).1 hi)
      · exact hpath.tail ((mem_forEach hj).1 hi)
    · obtain ⟨i, hpath, hij⟩ := TransGen.tail'_iff.1 hpath
      exact ⟨i, (mem_forEach hj).2 hij, reflTransGen_iff_eq_or_transGen.1 hpath⟩

theorem checkWaiters_mono {check check' : ℕ → Option Chain}
    (h : ∀ i found, check i = some found → check' i = some found) :
    ∀ {l : List ℕ} {found : Chain}, checkWaiters cpu check l = some found →
      checkWaiters cpu check' l = some found
  | [], _, hfound => hfound
  | i :: l, found, hfound => by
    rw [checkWaiters] at hfound ⊢
    split
    case isTrue heq => rwa [if_pos heq] at hfound
    case isFalse hne =>
      rw [if_neg hne] at hfound
      obtain ⟨first, hfirst, hrest⟩ := Option.bind_eq_some_iff.1 hfound
      rw [h i first hfirst, Option.bind_eq_bind, Option.bind_some]
      cases first with
      | some chain => exact hrest
      | none => exact checkWaiters_mono h hrest

/-- More depth changes no result. -/
theorem checkFrom_succ : ∀ (fuel : ℕ) {i : ℕ} {found : Chain},
    checkFrom nrCpus waiters cpu fuel i = some found →
    checkFrom nrCpus waiters cpu (fuel + 1) i = some found
  | 0, _, _, h => by simp [checkFrom] at h
  | fuel + 1, i, found, h => by
    rw [checkFrom] at h ⊢
    exact checkWaiters_mono (fun i found => checkFrom_succ fuel) h

theorem checkFrom_mono {fuel fuel' i : ℕ} {found : Chain} (hle : fuel ≤ fuel')
    (h : checkFrom nrCpus waiters cpu fuel i = some found) :
    checkFrom nrCpus waiters cpu fuel' i = some found := by
  induction hle with
  | refl => exact h
  | step _ ih => exact checkFrom_succ _ ih

/-- `deadlock_check` ends with `found`. -/
def Checks (nrCpus : ℕ) (waiters : ℕ → CpuMask w) (me cpu : ℕ) (found : Chain) : Prop :=
  ∃ depth, ∀ fuel ≥ depth, deadlockCheck nrCpus waiters me cpu fuel = some found

theorem Checks.unique {found found' : Chain} (h : Checks nrCpus waiters me cpu found)
    (h' : Checks nrCpus waiters me cpu found') : found = found' := by
  obtain ⟨depth, hdepth⟩ := h
  obtain ⟨depth', hdepth'⟩ := h'
  have heq := hdepth (max depth depth') (le_max_left ..)
  rw [hdepth' _ (le_max_right ..)] at heq
  exact (Option.some.inj heq).symm

/-- The check ends, and its assertion fails exactly if `cpu` waits for `me` already. -/
theorem deadlockCheck_spec (hacyclic : AcyclicRel (WaitsFor nrCpus waiters)) (hme : me < nrCpus)
    (hne : me ≠ cpu) : ∃ found, Checks nrCpus (setWaiter waiters me cpu) me cpu found ∧
      (found.isSome ↔ TransGen (WaitsFor nrCpus waiters) cpu me) := by
  have hcard := hacyclic.card_reaching_lt_card (Finset.mem_range.2 hme)
  obtain ⟨found, hcheck, hfound⟩ : ∃ found,
      checkFrom nrCpus (setWaiter waiters me cpu) cpu _ me = some found ∧ _ :=
    checkFrom_spec hacyclic _ hme hne hcard
  refine ⟨found.map (· ++ [me]), ?_, ?_⟩
  · refine ⟨(Finset.range nrCpus).card, fun fuel hfuel => ?_⟩
    rw [deadlockCheck, checkFrom_mono hfuel hcheck, Option.bind_eq_bind, Option.bind_some]
    cases found <;> rfl
  · rw [Option.isSome_map, hfound]

end Check

/-! ## Runs -/

/-- What a CPU does to the waiters of others, in `cpu_wait` and `on_cpus`. -/
inductive WaitAction
  | register (cpu : ℕ)
  | clear (cpu : ℕ)

/-- `cpu_wait`. -/
def cpuWait (me cpu : ℕ) : List WaitAction :=
  if cpu = me then [] else [.register cpu, .clear cpu]

/-- The end of `on_cpus`, when it has called the others : it waits for all of them at once. -/
def onCpusWait (me : ℕ) (present : List ℕ) : List WaitAction :=
  (present.filter (· ≠ me)).map .register ++ present.map .clear

/-- The waiters of each CPU, what each CPU has still to do, and whether an assertion has failed. -/
structure WaitSystem (w : ℕ) where
  waiters : ℕ → CpuMask w
  todo : ℕ → List WaitAction
  asserted : Bool

namespace WaitSystem

/-- A step of a CPU. It enters itself in the waiters of another one and checks for a deadlock
before any CPU enters itself again. -/
inductive Step (nrCpus : ℕ) (s : WaitSystem w) : WaitSystem w → Prop
  | cpuWait {me cpu : ℕ} : me < nrCpus → cpu < nrCpus → s.todo me = [] →
      Step nrCpus s { s with todo := Function.update s.todo me (cpuWait me cpu) }
  | onCpus {me : ℕ} {present : List ℕ} : me < nrCpus → (∀ cpu ∈ present, cpu < nrCpus) →
      s.todo me = [] →
      Step nrCpus s { s with todo := Function.update s.todo me (onCpusWait me present) }
  | register {me cpu : ℕ} {rest : List WaitAction} {found : Chain} :
      s.todo me = .register cpu :: rest →
      Checks nrCpus (setWaiter s.waiters me cpu) me cpu found →
      Step nrCpus s ⟨setWaiter s.waiters me cpu, Function.update s.todo me rest,
        s.asserted || found.isSome⟩
  | clear {me cpu : ℕ} {rest : List WaitAction} : s.todo me = .clear cpu :: rest →
      Step nrCpus s { s with
        waiters := clearWaiter s.waiters me cpu
        todo := Function.update s.todo me rest }

/-- The states of the runs in which nobody does anything at first. -/
inductive Run (nrCpus : ℕ) (waiters : ℕ → CpuMask w) : WaitSystem w → Prop
  | init : Run nrCpus waiters ⟨waiters, fun _ => [], false⟩
  | step {s s' : WaitSystem w} : Run nrCpus waiters s → s.Step nrCpus s' → Run nrCpus waiters s'

/-- A CPU enters itself only in the waiters of others, and there is no cycle before an assertion
fails. -/
structure Inv (nrCpus : ℕ) (s : WaitSystem w) : Prop where
  todo : ∀ me cpu, .register cpu ∈ s.todo me → me < nrCpus ∧ cpu < nrCpus ∧ me ≠ cpu
  acyclic : s.asserted = false → AcyclicRel (WaitsFor nrCpus s.waiters)

theorem mem_cpuWait {me cpu cpu' : ℕ} (h : .register cpu ∈ cpuWait me cpu') :
    cpu = cpu' ∧ me ≠ cpu := by
  unfold cpuWait at h
  split at h
  · simp at h
  case isFalse hne =>
    have heq : cpu = cpu' := by simpa using h
    exact ⟨heq, fun hme => hne (heq ▸ hme.symm)⟩

theorem mem_onCpusWait {me cpu : ℕ} {present : List ℕ}
    (h : .register cpu ∈ onCpusWait me present) : cpu ∈ present ∧ me ≠ cpu := by
  have hmem : cpu ∈ present ∧ ¬cpu = me := by simpa [onCpusWait] using h
  exact ⟨hmem.1, fun h => hmem.2 h.symm⟩

section Run

variable [NeZero w] {nrCpus : ℕ} {waiters : ℕ → CpuMask w} {s s' : WaitSystem w}

/-- What a CPU has still to do is replaced. -/
theorem Inv.update (h : s.Inv nrCpus) {me : ℕ} {actions : List WaitAction}
    (hactions : ∀ cpu, .register cpu ∈ actions → me < nrCpus ∧ cpu < nrCpus ∧ me ≠ cpu) :
    ∀ me' cpu, .register cpu ∈ Function.update s.todo me actions me' →
      me' < nrCpus ∧ cpu < nrCpus ∧ me' ≠ cpu := by
  intro me' cpu hmem
  rw [Function.update_apply] at hmem
  split at hmem
  case isTrue heq => exact heq ▸ hactions cpu hmem
  case isFalse => exact h.todo me' cpu hmem

theorem Inv.rest (h : s.Inv nrCpus) {me : ℕ} {action : WaitAction} {rest : List WaitAction}
    (htodo : s.todo me = action :: rest) :
    ∀ cpu, .register cpu ∈ rest → me < nrCpus ∧ cpu < nrCpus ∧ me ≠ cpu :=
  fun cpu hmem => h.todo me cpu (htodo ▸ List.mem_cons_of_mem action hmem)

theorem Step.inv (hstep : s.Step nrCpus s') (h : s.Inv nrCpus) : s'.Inv nrCpus := by
  cases hstep with
  | @cpuWait me cpu hme hcpu _ =>
    refine ⟨h.update fun cpu' hmem => ?_, h.acyclic⟩
    obtain ⟨rfl, hne⟩ := mem_cpuWait hmem
    exact ⟨hme, hcpu, hne⟩
  | @onCpus me present hme hpresent _ =>
    refine ⟨h.update fun cpu hmem => ?_, h.acyclic⟩
    obtain ⟨hcpu, hne⟩ := mem_onCpusWait hmem
    exact ⟨hme, hpresent cpu hcpu, hne⟩
  | @register me cpu rest found htodo hcheck =>
    obtain ⟨hme, hcpu, hne⟩ := h.todo me cpu (htodo ▸ List.mem_cons_self)
    refine ⟨h.update (h.rest htodo), fun hasserted => ?_⟩
    obtain ⟨hbefore, hnone⟩ := Bool.or_eq_false_iff.1 hasserted
    have hacyclic := h.acyclic hbefore
    -- the check has looked at the relation as it was before the edge
    obtain ⟨found', hcheck', hiff⟩ := deadlockCheck_spec hacyclic hme hne
    rw [hcheck.unique hcheck'] at hnone
    rw [waitsFor_setWaiter hme hcpu, hacyclic.addEdge_iff, reflTransGen_iff_eq_or_transGen]
    rintro (heq | hpath)
    · exact hne heq
    · simp [hiff.2 hpath] at hnone
  | @clear me cpu rest htodo =>
    exact ⟨h.update (h.rest htodo), fun hasserted =>
      (h.acyclic hasserted).mono waitsFor_clearWaiter_le⟩

theorem Run.inv (hacyclic : AcyclicRel (WaitsFor nrCpus waiters)) (h : Run nrCpus waiters s) :
    s.Inv nrCpus := by
  induction h with
  | init => exact ⟨fun me cpu hmem => by simp at hmem, fun _ => hacyclic⟩
  | step _ hstep ih => exact hstep.inv ih

end Run

end WaitSystem

/-- The check ends and tells whether the wait closes a cycle, and no cycle is closed before an
assertion fails. -/
theorem deadlock_detection [NeZero w] (nrCpus : ℕ) (waiters : ℕ → CpuMask w)
    (hacyclic : AcyclicRel (WaitsFor nrCpus waiters)) :
    (∀ me < nrCpus, ∀ cpu < nrCpus, me ≠ cpu →
      ∃ found, Checks nrCpus (setWaiter waiters me cpu) me cpu found ∧
        (found.isSome ↔ TransGen (WaitsFor nrCpus waiters) cpu me)) ∧
    ∀ s, WaitSystem.Run nrCpus waiters s → s.asserted = false →
      AcyclicRel (WaitsFor nrCpus s.waiters) :=
  ⟨fun _ hme _ _ hne => deadlockCheck_spec hacyclic hme hne,
    fun _ hrun => (hrun.inv hacyclic).acyclic⟩

/-- Nobody waits. -/
def nobody : ℕ → CpuMask 64 :=
  fun _ => ⟨fun _ => 0⟩

theorem not_waitsFor_nobody {i j : ℕ} : ¬WaitsFor 4 nobody i j :=
  fun ⟨_, _, htest⟩ => by simp [CpuMask.testCpu, nobody] at htest

/-- CPU 1 waits for CPU 2, and CPU 2 for CPU 0. -/
def oneTwoZero : ℕ → CpuMask 64 :=
  setWaiter (setWaiter nobody 2 0) 1 2

theorem oneTwoZero_eq : WaitsFor 4 oneTwoZero = addEdge (addEdge (WaitsFor 4 nobody) 2 0) 1 2 := by
  rw [oneTwoZero, waitsFor_setWaiter (by norm_num) (by norm_num),
    waitsFor_setWaiter (by norm_num) (by norm_num)]

theorem oneTwoZero_acyclic : AcyclicRel (WaitsFor 4 oneTwoZero) := by
  have hempty : AcyclicRel (WaitsFor 4 nobody) := fun _ hx => by
    obtain ⟨_, -, hwaits⟩ := TransGen.tail'_iff.1 hx
    exact not_waitsFor_nobody hwaits
  have hone : AcyclicRel (addEdge (WaitsFor 4 nobody) 2 0) := by
    refine hempty.addEdge_iff.2 fun hpath => ?_
    obtain heq | ⟨_, hwaits, -⟩ := hpath.cases_head
    · cases heq
    · exact not_waitsFor_nobody hwaits
  rw [oneTwoZero_eq]
  refine hone.addEdge_iff.2 fun hpath => ?_
  -- from CPU 2 the only edge leads to CPU 0, which waits for nobody
  obtain heq | ⟨_, hwaits | ⟨-, rfl⟩, hpath⟩ := hpath.cases_head
  · cases heq
  · exact not_waitsFor_nobody hwaits
  obtain heq | ⟨_, hwaits | ⟨heq, -⟩, -⟩ := hpath.cases_head
  · cases heq
  · exact not_waitsFor_nobody hwaits
  · cases heq

/-- CPU 0 is not to wait for CPU 1, which waits for it through CPU 2. -/
theorem deadlock_detection_chain :
    (∃ found, Checks 4 (setWaiter oneTwoZero 0 1) 0 1 found ∧ found.isSome) ∧
    ∀ s, WaitSystem.Run 4 oneTwoZero s → s.asserted = false →
      AcyclicRel (WaitsFor 4 s.waiters) := by
  obtain ⟨hchecks, hruns⟩ := deadlock_detection 4 oneTwoZero oneTwoZero_acyclic
  obtain ⟨found, hcheck, hiff⟩ := hchecks 0 (by norm_num) 1 (by norm_num) zero_ne_one
  refine ⟨⟨found, hcheck, hiff.mpr ?_⟩, hruns⟩
  rw [oneTwoZero_eq]
  exact .tail (.single (Or.inr ⟨rfl, rfl⟩)) (Or.inl (Or.inr ⟨rfl, rfl⟩))

end ArmDeadlock

end AcrnUt
