import AcrnUt.Chain
import Mathlib.Tactic

/-!
# Calls across CPUs on ARM

`lib/arm/smp.c` as steps of any number of CPUs under sequential consistency. A CPU that runs
`do_idle` waits with its idle bit set for a function in its mailbox, `on_cpu_info`. A caller
waits for the bit, posts a function under the lock where it finds the mailbox empty, and
clears the bit after the lock.

The bit and the mailbox are written by different CPUs. If every caller that clears the bit
finds it set, they go together through the configurations of `ArmSmp.Mailbox`, and nothing
posted is lost (`ArmSmp.run_protocol`). A caller that has seen the bit before an earlier function
ran may find the mailbox empty while the bit is still clear : then the target sets the bit
over the function it has just got (`ArmSmp.stranded`).
-/

set_option linter.unusedSectionVars false

namespace AcrnUt

variable {Cpu F D : Type*} [DecidableEq Cpu]

namespace ArmSmp

/-- A call of `on_cpu_async` for another CPU; `sync` says that it is `on_cpu`'s. -/
structure Call (Cpu F D : Type*) where
  cpu : Cpu
  func : F
  data : D
  sync : Bool

/-- `on_cpu_async`, as the calls it makes for other CPUs. For its own CPU it runs `func`. -/
def onCpuAsync (me cpu : Cpu) (func : F) (data : D) : List (Call Cpu F D) :=
  if cpu = me then [] else [⟨cpu, func, data, false⟩]

/-- `on_cpu`, which waits for its own CPU no more than `cpu_wait` does. -/
def onCpu (me cpu : Cpu) (func : F) (data : D) : List (Call Cpu F D) :=
  if cpu = me then [] else [⟨cpu, func, data, true⟩]

/-- `on_cpus`, on the present CPUs. It then runs `func` itself and reads the idle bits until
the others are set. -/
def onCpus (me : Cpu) (present : List Cpu) (func : F) (data : D) : List (Call Cpu F D) :=
  (present.filter (· ≠ me)).flatMap fun cpu => onCpuAsync me cpu func data

/-- Where a CPU is in `do_idle` : outside, about to set its bit, in the loop that reads it,
past the loop, in the function, or about to store `NULL`. -/
inductive IdlePc (F D : Type*)
  | outside
  | setting
  | parked
  | woken
  | running (func : F) (data : D)
  | ran

/-- Where a CPU is in `on_cpu_async` and `on_cpu` : in no call, before the section that boots
the CPU, in `cpu_wait`, before the section that posts, before it clears the bit, or in the
last `cpu_wait` of `on_cpu`. A call that has posted knows the number of its post. -/
inductive CallPc (Cpu F D : Type*)
  | ordinary
  | booting (k : Call Cpu F D)
  | waiting (k : Call Cpu F D)
  | checking (k : Call Cpu F D)
  | clearing (k : Call Cpu F D) (n : ℕ)
  | finishing (k : Call Cpu F D) (n : ℕ)

end ArmSmp

open ArmSmp in
/-- The masks, the mailboxes and the CPUs, with the calls each has still to make. The pairs
posted to a CPU and the pairs it has run are recorded beside them. -/
structure ArmSmp (Cpu F D : Type*) where
  online : Cpu → Bool
  idle : Cpu → Bool
  func : Cpu → Option F
  data : Cpu → D
  idlePc : Cpu → IdlePc F D
  callPc : Cpu → CallPc Cpu F D
  todo : Cpu → List (Call Cpu F D)
  posted : Cpu → List (F × D)
  ran : Cpu → List (F × D)

namespace ArmSmp

/-- Some CPUs are online and outside `do_idle`; the mailboxes are empty. -/
def init (online : Cpu → Bool) (data : Cpu → D) : ArmSmp Cpu F D where
  online := online
  idle _ := false
  func _ := none
  data := data
  idlePc _ := .outside
  callPc _ := .ordinary
  todo _ := []
  posted _ := []
  ran _ := []

/-- A CPU that is executing code of its own : it is not in `do_idle`, or in a function that
`do_idle` has called. -/
def Runs (s : ArmSmp Cpu F D) (p : Cpu) : Prop :=
  s.online p = true ∧ (s.idlePc p = .outside ∨ ∃ func data, s.idlePc p = .running func data)

/-- A CPU that is executing code of its own and is in no call. -/
def Ordinary (s : ArmSmp Cpu F D) (p : Cpu) : Prop :=
  s.callPc p = .ordinary ∧ s.todo p = []

/-- One step of a CPU. A caller's step that clears the bit of a CPU is made where `cond`
holds. -/
inductive Step (cond : ArmSmp Cpu F D → Cpu → Prop) (s : ArmSmp Cpu F D) : ArmSmp Cpu F D → Prop
  | onCpuAsync {p cpu : Cpu} {func : F} {data : D} : s.Runs p → s.Ordinary p →
      Step cond s { s with todo := Function.update s.todo p (onCpuAsync p cpu func data) }
  | onCpu {p cpu : Cpu} {func : F} {data : D} : s.Runs p → s.Ordinary p →
      Step cond s { s with todo := Function.update s.todo p (onCpu p cpu func data) }
  | onCpus {p : Cpu} {present : List Cpu} {func : F} {data : D} : s.Runs p → s.Ordinary p →
      Step cond s { s with todo := Function.update s.todo p (onCpus p present func data) }
  | call {p : Cpu} {k : Call Cpu F D} {rest : List (Call Cpu F D)} : s.Runs p →
      s.callPc p = .ordinary → s.todo p = k :: rest →
      Step cond s { s with
        callPc := Function.update s.callPc p (.booting k)
        todo := Function.update s.todo p rest }
  | boot {p : Cpu} {k : Call Cpu F D} : s.callPc p = .booting k → s.online k.cpu = false →
      Step cond s { s with
        online := Function.update s.online k.cpu true
        idlePc := Function.update s.idlePc k.cpu .setting
        callPc := Function.update s.callPc p (.waiting k) }
  | booted {p : Cpu} {k : Call Cpu F D} : s.callPc p = .booting k → s.online k.cpu = true →
      Step cond s { s with callPc := Function.update s.callPc p (.waiting k) }
  | wait {p : Cpu} {k : Call Cpu F D} : s.callPc p = .waiting k → s.idle k.cpu = true →
      Step cond s { s with callPc := Function.update s.callPc p (.checking k) }
  | retry {p : Cpu} {k : Call Cpu F D} : s.callPc p = .checking k → s.func k.cpu ≠ none →
      Step cond s { s with callPc := Function.update s.callPc p (.waiting k) }
  | post {p : Cpu} {k : Call Cpu F D} : s.callPc p = .checking k → s.func k.cpu = none →
      Step cond s { s with
        func := Function.update s.func k.cpu (some k.func)
        data := Function.update s.data k.cpu k.data
        callPc := Function.update s.callPc p (.clearing k (s.posted k.cpu).length)
        posted := Function.update s.posted k.cpu (s.posted k.cpu ++ [(k.func, k.data)]) }
  | clear {p : Cpu} {k : Call Cpu F D} {n : ℕ} : s.callPc p = .clearing k n → cond s k.cpu →
      Step cond s { s with
        idle := Function.update s.idle k.cpu false
        callPc := Function.update s.callPc p (if k.sync then .finishing k n else .ordinary) }
  | finish {p : Cpu} {k : Call Cpu F D} {n : ℕ} : s.callPc p = .finishing k n →
      s.idle k.cpu = true →
      Step cond s { s with callPc := Function.update s.callPc p .ordinary }
  | doIdle {c : Cpu} : s.online c = true → s.idlePc c = .outside → s.Ordinary c →
      Step cond s { s with idlePc := Function.update s.idlePc c .setting }
  | setIdle {c : Cpu} : s.idlePc c = .setting →
      Step cond s { s with
        idle := Function.update s.idle c true
        idlePc := Function.update s.idlePc c .parked }
  | wake {c : Cpu} : s.idlePc c = .parked → s.idle c = false →
      Step cond s { s with idlePc := Function.update s.idlePc c .woken }
  | run {c : Cpu} {func : F} : s.idlePc c = .woken → s.func c = some func →
      Step cond s { s with idlePc := Function.update s.idlePc c (.running func (s.data c)) }
  | ran {c : Cpu} {func : F} {data : D} : s.idlePc c = .running func data → s.Ordinary c →
      Step cond s { s with
        idlePc := Function.update s.idlePc c .ran
        ran := Function.update s.ran c (s.ran c ++ [(func, data)]) }
  | null {c : Cpu} : s.idlePc c = .ran →
      Step cond s { s with
        func := Function.update s.func c none
        idlePc := Function.update s.idlePc c .setting }

/-- The states of the runs from `s`. -/
inductive Run (cond : ArmSmp Cpu F D → Cpu → Prop) (s : ArmSmp Cpu F D) : ArmSmp Cpu F D → Prop
  | refl : Run cond s s
  | step {t u : ArmSmp Cpu F D} : Run cond s t → t.Step cond u → Run cond s u

/-- The caller that clears the bit finds it set. -/
def FoundIdle (s : ArmSmp Cpu F D) (c : Cpu) : Prop :=
  s.idle c = true

/-! ## The invariant -/

/-- The idle bit of a CPU, where it is in `do_idle`, its mailbox, and the caller that has
posted and not yet cleared the bit. -/
inductive Mailbox : Bool → IdlePc F D → Option F → D → Option Cpu → Prop
  | outside {data : D} : Mailbox false .outside none data none
  | setting {data : D} : Mailbox false .setting none data none
  | early {func : F} {data : D} {p : Cpu} : Mailbox false .setting (some func) data (some p)
  | parked {data : D} : Mailbox true .parked none data none
  | posted {func : F} {data : D} {p : Cpu} : Mailbox true .parked (some func) data (some p)
  | sent {func : F} {data : D} : Mailbox false .parked (some func) data none
  | woken {func : F} {data : D} : Mailbox false .woken (some func) data none
  | running {func : F} {data : D} : Mailbox false (.running func data) (some func) data none
  | ran {func : F} {data : D} : Mailbox false .ran (some func) data none

namespace Mailbox

variable {idle : Bool} {pc : IdlePc F D} {func : Option F} {data : D} {q : Option Cpu}

theorem start (h : Mailbox idle .outside func data q) : Mailbox idle .setting func data q := by
  cases h
  exact .setting

theorem setIdle (h : Mailbox idle .setting func data q) : Mailbox true .parked func data q := by
  cases h
  · exact .parked
  · exact .posted

theorem wake (h : Mailbox false .parked func data q) : Mailbox false .woken func data q := by
  cases h
  exact .woken

theorem run {f : F} (h : Mailbox idle .woken (some f) data q) :
    Mailbox idle (.running f data) (some f) data q := by
  cases h
  exact .running

theorem finish {f : F} {d : D} (h : Mailbox idle (.running f d) func data q) :
    Mailbox idle .ran func data q ∧ func = some f ∧ data = d := by
  cases h
  exact ⟨.ran, rfl, rfl⟩

theorem null (h : Mailbox idle .ran func data q) :
    Mailbox idle .setting (none : Option F) data q := by
  cases h
  exact .setting

/-- A mailbox that is empty may be posted to, once the CPU is in `do_idle`. -/
theorem post (h : Mailbox idle pc none data q) (hpc : pc ≠ .outside) (f : F) (d : D) (p : Cpu) :
    q = none ∧ pc ≠ .ran ∧ Mailbox idle pc (some f) d (some p) := by
  cases h
  · exact absurd rfl hpc
  · exact ⟨rfl, by simp, .early⟩
  · exact ⟨rfl, by simp, .posted⟩

theorem clear {p : Cpu} (h : Mailbox true pc func data (some p)) :
    pc = .parked ∧ Mailbox false pc func data (none : Option Cpu) := by
  cases h
  exact ⟨rfl, .sent⟩

theorem parked_of_idle (h : Mailbox true pc func data q) : pc = .parked := by
  cases h <;> rfl

theorem eq_none_of_parked (h : Mailbox true .parked func data (none : Option Cpu)) :
    func = none := by
  cases h
  rfl

theorem ne_none_of_woken (h : Mailbox idle .woken func data q) : func ≠ none := by
  cases h
  exact Option.some_ne_none _

end Mailbox

/-- What is in a mailbox and has not run. -/
def inbox : IdlePc F D → Option F → D → List (F × D)
  | .ran, _, _ => []
  | _, func, data => func.toList.map fun func => (func, data)

theorem inbox_of_ne {pc : IdlePc F D} (hpc : pc ≠ .ran) (func : Option F) (data : D) :
    inbox pc func data = func.toList.map fun func => (func, data) := by
  cases pc <;> first | rfl | exact absurd rfl hpc

/-- The CPU has been told of its mailbox and has not finished with it. -/
def Busy (idle : Bool) : IdlePc F D → Prop
  | .parked => idle = false
  | .woken => True
  | .running _ _ => True
  | _ => False

/-- What holds when every bit was found set. `poster` is the caller that has posted to a CPU
and not yet cleared its bit. -/
structure Inv (s : ArmSmp Cpu F D) (poster : Cpu → Option Cpu) : Prop where
  mailbox : ∀ c, Mailbox (s.idle c) (s.idlePc c) (s.func c) (s.data c) (poster c)
  offline : ∀ c, s.online c = false → s.idlePc c = .outside
  posting : ∀ c p, poster c = some p → ∃ k n, s.callPc p = .clearing k n ∧ k.cpu = c
  log : ∀ c, s.posted c = s.ran c ++ inbox (s.idlePc c) (s.func c) (s.data c)
  checking : ∀ p k, s.callPc p = .checking k → s.idlePc k.cpu ≠ .outside
  clearing : ∀ p k n, s.callPc p = .clearing k n → poster k.cpu = some p ∧
    (s.posted k.cpu)[n]? = some (k.func, k.data)
  finishing : ∀ p k n, s.callPc p = .finishing k n →
    (s.posted k.cpu)[n]? = some (k.func, k.data) ∧
      (n < (s.ran k.cpu).length ∨ Busy (s.idle k.cpu) (s.idlePc k.cpu))

theorem init_inv {online : Cpu → Bool} {data : Cpu → D} :
    (init online data : ArmSmp Cpu F D).Inv fun _ => none where
  mailbox _ := .outside
  offline _ _ := rfl
  posting := nofun
  log _ := rfl
  checking := nofun
  clearing := nofun
  finishing := nofun

/-! ## The steps -/

section Steps

variable {s : ArmSmp Cpu F D} {poster : Cpu → Option Cpu} {p c : Cpu} {k : Call Cpu F D} {n : ℕ}

/-- A caller moves to a point where it has not posted, or has cleared the bit. -/
theorem Inv.callPc (h : s.Inv poster) {pc : CallPc Cpu F D} {todo : Cpu → List (Call Cpu F D)}
    (hfrom : ∀ k n, s.callPc p ≠ .clearing k n)
    (hchecking : ∀ k, pc = .checking k → s.idlePc k.cpu ≠ .outside)
    (hclearing : ∀ k n, pc ≠ .clearing k n) (hfinishing : ∀ k n, pc ≠ .finishing k n) :
    Inv { s with callPc := Function.update s.callPc p pc, todo := todo } poster where
  mailbox := h.mailbox
  offline := h.offline
  posting c q hq := by
    obtain ⟨k, n, hk, hc⟩ := h.posting c q hq
    refine ⟨k, n, (Function.update_of_ne ?_ _ _).trans hk, hc⟩
    rintro rfl
    exact hfrom k n hk
  log := h.log
  checking q k hq := by
    rcases update_cases hq with ⟨-, hpc⟩ | ⟨-, hq⟩
    · exact hchecking k hpc
    · exact h.checking q k hq
  clearing q k n hq := by
    rcases update_cases hq with ⟨-, hpc⟩ | ⟨-, hq⟩
    · exact absurd hpc (hclearing k n)
    · exact h.clearing q k n hq
  finishing q k n hq := by
    rcases update_cases hq with ⟨-, hpc⟩ | ⟨-, hq⟩
    · exact absurd hpc (hfinishing k n)
    · exact h.finishing q k n hq

/-- A CPU moves in `do_idle`. -/
theorem Inv.idlePc (h : s.Inv poster) (online : Cpu → Bool) {idle : Bool} {pc : IdlePc F D}
    {func : Option F} {ran : List (F × D)}
    (honline : ∀ b, online b = false → s.online b = false ∧ b ≠ c) (hpc : pc ≠ .outside)
    (hmailbox : Mailbox idle pc func (s.data c) (poster c))
    (hlog : s.posted c = ran ++ inbox pc func (s.data c))
    (hfinishing : ∀ n, n < (s.posted c).length →
      n < (s.ran c).length ∨ Busy (s.idle c) (s.idlePc c) → n < ran.length ∨ Busy idle pc) :
    Inv { s with
      online := online
      idle := Function.update s.idle c idle
      idlePc := Function.update s.idlePc c pc
      func := Function.update s.func c func
      ran := Function.update s.ran c ran } poster where
  mailbox b := by
    rcases eq_or_ne b c with rfl | hne
    · simpa using hmailbox
    · simpa [hne] using h.mailbox b
  offline b hb := by
    obtain ⟨hb, hne⟩ := honline b hb
    exact (Function.update_of_ne hne _ _).trans (h.offline b hb)
  posting := h.posting
  log b := by
    rcases eq_or_ne b c with rfl | hne
    · simpa using hlog
    · simpa [hne] using h.log b
  checking p k hk := by
    intro hout
    rcases update_cases hout with ⟨-, hout⟩ | ⟨-, hout⟩
    · exact hpc hout
    · exact h.checking p k hk hout
  clearing := h.clearing
  finishing p k n hk := by
    obtain ⟨hpost, hdone⟩ := h.finishing p k n hk
    refine ⟨hpost, ?_⟩
    rcases eq_or_ne k.cpu c with rfl | hne
    · simpa using hfinishing n (List.getElem?_eq_some_iff.mp hpost).1 hdone
    · simpa [hne] using hdone

/-- A caller posts where it has found the mailbox empty. -/
theorem Inv.post (h : s.Inv poster) (hpc : s.callPc p = .checking k) (hnull : s.func k.cpu = none) :
    Inv { s with
      func := Function.update s.func k.cpu (some k.func)
      data := Function.update s.data k.cpu k.data
      callPc := Function.update s.callPc p (.clearing k (s.posted k.cpu).length)
      posted := Function.update s.posted k.cpu (s.posted k.cpu ++ [(k.func, k.data)]) }
      (Function.update poster k.cpu (some p)) := by
  have hmail := h.mailbox k.cpu
  rw [hnull] at hmail
  obtain ⟨hnone, hran, hpost⟩ := hmail.post (h.checking p k hpc) k.func k.data p
  refine ⟨fun b => ?_, h.offline, fun b q hq => ?_, fun b => ?_, fun q k' hq => ?_,
    fun q k' n hq => ?_, fun q k' n hq => ?_⟩
  · rcases eq_or_ne b k.cpu with rfl | hne
    · simpa using hpost
    · simpa [hne] using h.mailbox b
  · rcases update_cases hq with ⟨rfl, hp⟩ | ⟨-, hq⟩
    · obtain rfl := Option.some.inj hp
      exact ⟨k, _, Function.update_self .., rfl⟩
    · obtain ⟨k', n, hk, rfl⟩ := h.posting b q hq
      refine ⟨k', n, (Function.update_of_ne ?_ _ _).trans hk, rfl⟩
      rintro rfl
      exact absurd (hpc.symm.trans hk) (by simp)
  · rcases eq_or_ne b k.cpu with rfl | hne
    · have hlog := h.log k.cpu
      rw [inbox_of_ne hran] at hlog
      simpa [inbox_of_ne hran, hnull] using hlog
    · simpa [hne] using h.log b
  · rcases update_cases hq with ⟨-, hq⟩ | ⟨-, hq⟩
    · exact absurd hq (by simp)
    · exact h.checking q k' hq
  · rcases update_cases hq with ⟨rfl, hpc'⟩ | ⟨-, hq⟩
    · obtain ⟨rfl, rfl⟩ : k = k' ∧ (s.posted k.cpu).length = n := by simpa using hpc'
      simp
    · obtain ⟨hposter, hpost⟩ := h.clearing q k' n hq
      have hne : k'.cpu ≠ k.cpu := fun heq => by simp [heq, hnone] at hposter
      simpa [hne] using And.intro hposter hpost
  · rcases update_cases hq with ⟨-, hq⟩ | ⟨-, hq⟩
    · exact absurd hq (by simp)
    · obtain ⟨hpost, hdone⟩ := h.finishing q k' n hq
      refine ⟨?_, hdone⟩
      rcases eq_or_ne k'.cpu k.cpu with heq | hne
      · have hlt := (List.getElem?_eq_some_iff.mp hpost).1
        rw [heq] at hlt hpost ⊢
        simpa [List.getElem?_append_left hlt] using hpost
      · simpa [hne] using hpost

/-- A caller clears a bit that is set. -/
theorem Inv.clear (h : s.Inv poster) (hpc : s.callPc p = .clearing k n)
    (hidle : s.idle k.cpu = true) :
    Inv { s with
      idle := Function.update s.idle k.cpu false
      callPc := Function.update s.callPc p (if k.sync then .finishing k n else .ordinary) }
      (Function.update poster k.cpu none) := by
  obtain ⟨hposter, hpost⟩ := h.clearing p k n hpc
  have hmail := h.mailbox k.cpu
  rw [hidle, hposter] at hmail
  have hparked := hmail.clear
  have hbusy : ∀ b, Busy (s.idle b) (s.idlePc b) →
      Busy (Function.update s.idle k.cpu false b) (s.idlePc b) := fun b hb => by
    rcases eq_or_ne b k.cpu with rfl | hne
    · rw [hparked.1, Function.update_self]
      rfl
    · rwa [Function.update_of_ne hne]
  refine ⟨fun b => ?_, h.offline, fun b q hq => ?_, h.log, fun q k' hq => ?_, fun q k' m hq => ?_,
    fun q k' m hq => ?_⟩
  · rcases eq_or_ne b k.cpu with rfl | hne
    · simpa using hparked.2
    · simpa [hne] using h.mailbox b
  · rcases update_cases hq with ⟨-, hq⟩ | ⟨hne, hq⟩
    · exact absurd hq (by simp)
    · obtain ⟨k', m, hk, rfl⟩ := h.posting b q hq
      refine ⟨k', m, (Function.update_of_ne ?_ _ _).trans hk, rfl⟩
      rintro rfl
      obtain ⟨rfl, -⟩ : k = k' ∧ n = m := by simpa using hpc.symm.trans hk
      exact hne rfl
  · rcases update_cases hq with ⟨-, hq⟩ | ⟨-, hq⟩
    · split at hq <;> exact absurd hq (by simp)
    · exact h.checking q k' hq
  · rcases update_cases hq with ⟨-, hq⟩ | ⟨hne, hq⟩
    · split at hq <;> exact absurd hq (by simp)
    · obtain ⟨hposter', hpost'⟩ := h.clearing q k' m hq
      refine ⟨(Function.update_of_ne (fun heq => hne ?_) _ _).trans hposter', hpost'⟩
      exact Option.some.inj ((heq ▸ hposter').symm.trans hposter)
  · rcases update_cases hq with ⟨-, hq⟩ | ⟨-, hq⟩
    · split at hq
      · obtain ⟨rfl, rfl⟩ : k = k' ∧ n = m := by simpa using hq
        refine ⟨hpost, Or.inr ?_⟩
        simp [hparked.1, Busy]
      · exact absurd hq (by simp)
    · obtain ⟨hpost', hdone⟩ := h.finishing q k' m hq
      exact ⟨hpost', hdone.imp_right (hbusy _)⟩

/-- A CPU in `do_idle` is online. -/
theorem Inv.online (h : s.Inv poster) (hpc : s.idlePc c ≠ .outside) (b : Cpu)
    (hb : s.online b = false) : s.online b = false ∧ b ≠ c :=
  ⟨hb, fun heq => hpc (h.offline c (heq ▸ hb))⟩

/-- A step that clears no bit but a set one keeps the invariant. -/
theorem Inv.step (h : s.Inv poster) {s' : ArmSmp Cpu F D} (hstep : s.Step FoundIdle s') :
    ∃ poster, s'.Inv poster := by
  cases hstep with
  | onCpuAsync => exact ⟨poster, { h with }⟩
  | onCpu => exact ⟨poster, { h with }⟩
  | onCpus => exact ⟨poster, { h with }⟩
  | call _ hpc =>
    exact ⟨poster, h.callPc (by simp [hpc]) (by simp) (by simp) (by simp)⟩
  | @boot p k hpc hoff =>
    have hout := h.offline _ hoff
    have hboot : Inv { s with
        online := Function.update s.online k.cpu true
        idlePc := Function.update s.idlePc k.cpu .setting } poster := by
      have hmail := h.mailbox k.cpu
      have hlog := h.log k.cpu
      rw [hout] at hmail hlog
      have hinv := h.idlePc (Function.update s.online k.cpu true)
        (fun b hb => (update_cases hb).elim (fun hb => absurd hb.2 (by simp)) And.symm) (by simp)
        hmail.start hlog
        fun n _ hdone => Or.inl (hdone.resolve_right fun hbusy => by simp [hout, Busy] at hbusy)
      simpa only [Function.update_eq_self] using hinv
    exact ⟨poster, hboot.callPc (by simp [hpc]) (by simp) (by simp) (by simp)⟩
  | booted hpc => exact ⟨poster, h.callPc (by simp [hpc]) (by simp) (by simp) (by simp)⟩
  | @wait p k hpc hidle =>
    refine ⟨poster, h.callPc (by simp [hpc]) ?_ (by simp) (by simp)⟩
    intro k' hk hout
    obtain rfl := CallPc.checking.inj hk
    exact absurd ((hidle ▸ h.mailbox k.cpu).parked_of_idle.symm.trans hout) (by simp)
  | retry hpc => exact ⟨poster, h.callPc (by simp [hpc]) (by simp) (by simp) (by simp)⟩
  | post hpc hnull => exact ⟨_, h.post hpc hnull⟩
  | clear hpc hidle => exact ⟨_, h.clear hpc hidle⟩
  | finish hpc => exact ⟨poster, h.callPc (by simp [hpc]) (by simp) (by simp) (by simp)⟩
  | @doIdle c hon hpc =>
    have hmail := h.mailbox c
    have hlog := h.log c
    rw [hpc] at hmail hlog
    have hinv := h.idlePc s.online (fun b hb => ⟨hb, fun heq => by simp [heq, hon] at hb⟩) (by simp)
      hmail.start hlog
      fun n _ hdone => Or.inl (hdone.resolve_right fun hbusy => by simp [hpc, Busy] at hbusy)
    exact ⟨poster, by simpa only [Function.update_eq_self] using hinv⟩
  | @setIdle c hpc =>
    have hmail := h.mailbox c
    have hlog := h.log c
    rw [hpc] at hmail hlog
    have hinv := h.idlePc s.online (h.online (by simp [hpc])) (by simp) hmail.setIdle hlog
      fun n _ hdone => Or.inl (hdone.resolve_right fun hbusy => by simp [hpc, Busy] at hbusy)
    exact ⟨poster, by simpa only [Function.update_eq_self] using hinv⟩
  | @wake c hpc hidle =>
    have hmail := h.mailbox c
    have hlog := h.log c
    rw [hpc, hidle] at hmail
    rw [hpc] at hlog
    have hinv := h.idlePc s.online (h.online (by simp [hpc])) (by simp) hmail.wake hlog
      fun n _ _ => Or.inr trivial
    rw [← hidle] at hinv
    exact ⟨poster, by simpa only [Function.update_eq_self] using hinv⟩
  | @run c func hpc hfunc =>
    have hmail := h.mailbox c
    have hlog := h.log c
    rw [hpc, hfunc] at hmail hlog
    have hinv := h.idlePc s.online (h.online (by simp [hpc])) (by simp) hmail.run hlog
      fun n _ _ => Or.inr trivial
    rw [← hfunc] at hinv
    exact ⟨poster, by simpa only [Function.update_eq_self] using hinv⟩
  | @ran c func data hpc =>
    have hmail := h.mailbox c
    have hlog := h.log c
    rw [hpc] at hmail hlog
    obtain ⟨hmail, hfunc, hdata⟩ := hmail.finish
    rw [hfunc, hdata] at hlog
    have hposted : s.posted c = (s.ran c ++ [(func, data)]) ++
        inbox (.ran : IdlePc F D) (s.func c) (s.data c) := by
      rw [hlog, inbox, List.append_nil]
      rfl
    have hinv := h.idlePc s.online (h.online (by simp [hpc])) (by simp) hmail hposted
      fun n hn _ => Or.inl (by simpa [hposted, inbox] using hn)
    exact ⟨poster, by simpa only [Function.update_eq_self] using hinv⟩
  | @null c hpc =>
    have hmail := h.mailbox c
    have hlog := h.log c
    rw [hpc] at hmail hlog
    have hinv := h.idlePc s.online (h.online (by simp [hpc])) (by simp) hmail.null hlog
      fun n _ hdone => Or.inl (hdone.resolve_right fun hbusy => by simp [hpc, Busy] at hbusy)
    exact ⟨poster, by simpa only [Function.update_eq_self] using hinv⟩

theorem Run.inv {online : Cpu → Bool} {data : Cpu → D} (h : (init online data).Run FoundIdle s) :
    ∃ poster, s.Inv poster := by
  induction h with
  | refl => exact ⟨_, init_inv⟩
  | step _ hstep ih =>
    obtain ⟨poster, hinv⟩ := ih
    exact hinv.step hstep

end Steps

/-! ## The protocol -/

/-- What a caller may rely on, between any two steps. -/
structure Protocol (s : ArmSmp Cpu F D) : Prop where
  /-- A CPU runs the pairs posted to it, each once, and what it has not run is in its
  mailbox. -/
  executed : ∀ c, s.posted c = s.ran c ++ inbox (s.idlePc c) (s.func c) (s.data c)
  /-- A CPU waits over a posted function only as long as its caller is to clear the bit. -/
  notStranded : ∀ c, s.idlePc c = .parked → s.idle c = true → s.func c ≠ none →
    ∃ p k n, s.callPc p = .clearing k n ∧ k.cpu = c
  /-- A CPU that is about to call its function has one. -/
  notNull : ∀ c, s.idlePc c = .woken → s.func c ≠ none
  /-- When `on_cpu` may return, the pair that it posted has run. -/
  returns : ∀ p k n, s.callPc p = .finishing k n → s.idle k.cpu = true →
    (s.ran k.cpu)[n]? = some (k.func, k.data)

theorem Inv.protocol {s : ArmSmp Cpu F D} {poster : Cpu → Option Cpu} (h : s.Inv poster) :
    s.Protocol where
  executed := h.log
  notStranded c hpc hidle hfunc := by
    have hmail := h.mailbox c
    rw [hpc, hidle] at hmail
    cases hposter : poster c with
    | none => exact absurd (hposter ▸ hmail).eq_none_of_parked hfunc
    | some p =>
      obtain ⟨k, n, hk, hc⟩ := h.posting c p hposter
      exact ⟨p, k, n, hk, hc⟩
  notNull c hpc := (hpc ▸ h.mailbox c).ne_none_of_woken
  returns p k n hk hidle := by
    obtain ⟨hpost, hdone⟩ := h.finishing p k n hk
    have hparked := (hidle ▸ h.mailbox k.cpu).parked_of_idle
    have hlt : n < (s.ran k.cpu).length := hdone.resolve_right (by simp [hidle, hparked, Busy])
    rwa [h.log, List.getElem?_append_left hlt] at hpost

/-- In a run whose callers clear no bit but a set one, every pair posted is run once by its
CPU, none is stranded, and `on_cpu` returns after its function. -/
theorem run_protocol {online : Cpu → Bool} {data : Cpu → D} {s : ArmSmp Cpu F D}
    (h : (init online data).Run FoundIdle s) : s.Protocol := by
  obtain ⟨poster, hinv⟩ := h.inv
  exact hinv.protocol

/-- CPUs 0 and 1 both call CPU 2, which is not online yet. CPU 1 finds the mailbox taken, and
posts when the first function has run. -/
theorem run_protocol_three_cpus : ∃ s : ArmSmp (Fin 3) Unit ℕ,
    (init (· ≠ 2) fun _ => 0).Run FoundIdle s ∧ s.ran 2 = [((), 7), ((), 8)] ∧
      s.callPc 0 = .ordinary ∧ s.Protocol := by
  have h := @Run.refl _ _ _ _ (@FoundIdle (Fin 3) Unit ℕ) (init (· ≠ 2) fun _ => 0)
  have h := h.step (@Step.onCpu _ _ _ _ _ _ 0 2 () 7 ⟨rfl, Or.inl rfl⟩ ⟨rfl, rfl⟩)
  have h := h.step (@Step.call _ _ _ _ _ _ 0 _ _ ⟨rfl, Or.inl rfl⟩ rfl rfl)
  have h := h.step (@Step.boot _ _ _ _ _ _ 0 _ rfl rfl)
  have h := h.step (@Step.onCpuAsync _ _ _ _ _ _ 1 2 () 8 ⟨rfl, Or.inl rfl⟩ ⟨rfl, rfl⟩)
  have h := h.step (@Step.call _ _ _ _ _ _ 1 _ _ ⟨rfl, Or.inl rfl⟩ rfl rfl)
  have h := h.step (@Step.booted _ _ _ _ _ _ 1 _ rfl rfl)
  have h := h.step (@Step.setIdle _ _ _ _ _ _ 2 rfl)
  have h := h.step (@Step.wait _ _ _ _ _ _ 0 _ rfl rfl)
  have h := h.step (@Step.wait _ _ _ _ _ _ 1 _ rfl rfl)
  have h := h.step (@Step.post _ _ _ _ _ _ 0 _ rfl rfl)
  have h := h.step (@Step.retry _ _ _ _ _ _ 1 _ rfl (Option.some_ne_none _))
  have h := h.step (@Step.clear _ _ _ _ _ _ 0 _ _ rfl rfl)
  have h := h.step (@Step.wake _ _ _ _ _ _ 2 rfl rfl)
  have h := h.step (@Step.run _ _ _ _ _ _ 2 _ rfl rfl)
  have h := h.step (@Step.ran _ _ _ _ _ _ 2 _ _ rfl ⟨rfl, rfl⟩)
  have h := h.step (@Step.null _ _ _ _ _ _ 2 rfl)
  have h := h.step (@Step.setIdle _ _ _ _ _ _ 2 rfl)
  have h := h.step (@Step.finish _ _ _ _ _ _ 0 _ _ rfl rfl)
  have h := h.step (@Step.wait _ _ _ _ _ _ 1 _ rfl rfl)
  have h := h.step (@Step.post _ _ _ _ _ _ 1 _ rfl rfl)
  have h := h.step (@Step.clear _ _ _ _ _ _ 1 _ _ rfl rfl)
  have h := h.step (@Step.wake _ _ _ _ _ _ 2 rfl rfl)
  have h := h.step (@Step.run _ _ _ _ _ _ 2 _ rfl rfl)
  have h := h.step (@Step.ran _ _ _ _ _ _ 2 _ _ rfl ⟨rfl, rfl⟩)
  exact ⟨_, h, rfl, rfl, run_protocol h⟩

/-- CPUs 0 and 1 both see the bit of CPU 2. The second finds the mailbox empty after the first
function has run, before CPU 2 sets its bit again : its function stays in the mailbox, and
its `on_cpu` may return. -/
theorem stranded : ∃ s : ArmSmp (Fin 3) Unit ℕ,
    (init (fun _ => true) fun _ => 0).Run (fun _ _ => True) s ∧
    s.posted 2 = [((), 7), ((), 8)] ∧ s.ran 2 = [((), 7)] ∧
    s.idlePc 2 = .parked ∧ s.idle 2 = true ∧ s.func 2 = some () ∧
    (∀ p k n, s.callPc p ≠ .clearing k n) ∧ s.callPc 1 = .finishing ⟨2, (), 8, true⟩ 1 ∧
    ¬s.Protocol := by
  have h := @Run.refl (Fin 3) Unit ℕ _ (fun _ _ => True) (init (fun _ => true) fun _ => 0)
  have h := h.step (@Step.onCpu _ _ _ _ _ _ 0 2 () 7 ⟨rfl, Or.inl rfl⟩ ⟨rfl, rfl⟩)
  have h := h.step (@Step.call _ _ _ _ _ _ 0 _ _ ⟨rfl, Or.inl rfl⟩ rfl rfl)
  have h := h.step (@Step.booted _ _ _ _ _ _ 0 _ rfl rfl)
  have h := h.step (@Step.onCpu _ _ _ _ _ _ 1 2 () 8 ⟨rfl, Or.inl rfl⟩ ⟨rfl, rfl⟩)
  have h := h.step (@Step.call _ _ _ _ _ _ 1 _ _ ⟨rfl, Or.inl rfl⟩ rfl rfl)
  have h := h.step (@Step.booted _ _ _ _ _ _ 1 _ rfl rfl)
  have h := h.step (@Step.doIdle _ _ _ _ _ _ 2 rfl rfl ⟨rfl, rfl⟩)
  have h := h.step (@Step.setIdle _ _ _ _ _ _ 2 rfl)
  have h := h.step (@Step.wait _ _ _ _ _ _ 0 _ rfl rfl)
  have h := h.step (@Step.wait _ _ _ _ _ _ 1 _ rfl rfl)
  have h := h.step (@Step.post _ _ _ _ _ _ 0 _ rfl rfl)
  have h := h.step (@Step.clear _ _ _ _ _ _ 0 _ _ rfl trivial)
  have h := h.step (@Step.wake _ _ _ _ _ _ 2 rfl rfl)
  have h := h.step (@Step.run _ _ _ _ _ _ 2 _ rfl rfl)
  have h := h.step (@Step.ran _ _ _ _ _ _ 2 _ _ rfl ⟨rfl, rfl⟩)
  have h := h.step (@Step.null _ _ _ _ _ _ 2 rfl)
  have h := h.step (@Step.post _ _ _ _ _ _ 1 _ rfl rfl)
  have h := h.step (@Step.clear _ _ _ _ _ _ 1 _ _ rfl trivial)
  have h := h.step (@Step.setIdle _ _ _ _ _ _ 2 rfl)
  refine ⟨_, h, rfl, rfl, rfl, rfl, rfl, ?_, rfl, fun hprotocol => ?_⟩
  · intro p k n
    fin_cases p <;> exact nofun
  · obtain ⟨p, k, n, hk, -⟩ := hprotocol.notStranded 2 rfl rfl (Option.some_ne_none _)
    fin_cases p <;> exact nomatch hk

end ArmSmp

end AcrnUt
