import AcrnUt.Chain
import Mathlib.Tactic

/-!
# Calls across CPUs on x86

`lib/x86/smp.c` as steps of any number of CPUs. A caller takes `ipi_lock`, stores the function
into the one mailbox, sends the IPI and spins until `ipi_done`. The handler of the target loads
the mailbox; it acknowledges an asynchronous call before it runs the function and another
after.

The mailbox and the IPI are in use only while a caller spins for them, and then for its call
(`X86Smp.CallerOk`, `X86Smp.Inv`). A handler keeps what it has loaded, so the mailbox may be
used again as soon as a call is acknowledged. Every call runs once, on its target and with its
data, and `active_cpus` counts those that are posted and not finished, as long as each IPI finds
its CPU outside `on_cpu` and the test of the counter (`X86Smp.run_calls`).

`ipi_entry` saves no register. An IPI that finds a CPU waiting for the lock leaves any values
in the arguments of its call (`X86Smp.run_lost`).
-/

set_option linter.unusedSectionVars false

namespace AcrnUt

variable {Cpu F D : Type*} [DecidableEq Cpu]

namespace X86Smp

/-- A call of `__on_cpu`. -/
structure Call (Cpu F D : Type*) where
  cpu : Cpu
  function : F
  data : D
  wait : Bool

/-- What a CPU has still to do : a call, or the loop at the end of `on_cpus`. -/
inductive Op (Cpu F D : Type*)
  | call (k : Call Cpu F D)
  | waitAll

/-- `on_cpu`. -/
def onCpu (cpu : Cpu) (function : F) (data : D) : List (Op Cpu F D) :=
  [.call ⟨cpu, function, data, true⟩]

/-- `on_cpu_async`. -/
def onCpuAsync (cpu : Cpu) (function : F) (data : D) : List (Op Cpu F D) :=
  [.call ⟨cpu, function, data, false⟩]

/-- `on_cpus`, from the last CPU to the first. -/
def onCpus (cpus : List Cpu) (function : F) (data : D) : List (Op Cpu F D) :=
  (cpus.reverse.flatMap fun cpu => onCpuAsync cpu function data) ++ [.waitAll]

/-- What a caller that holds the lock does next for a call to another CPU. -/
inductive Stage
  | inc
  | clearDone
  | function
  | data
  | wait
  | icr
  | spin

/-- Where a CPU is in `on_cpus` and `__on_cpu` : in no call, past its load of `active_cpus`, at the
lock, past it, in the function when it is its own target, at a stage of the call, or before the
unlock. `k` is what it has for the arguments of the call, and `asked` what they were. With the
counter it is recorded whether `smp_init` was over. A call that knows its target has its number. -/
inductive CallerPc (Cpu F D : Type*)
  | ordinary
  | waited (active : ℤ) (inited : Bool)
  | locking (asked k : Call Cpu F D)
  | entering (asked k : Call Cpu F D)
  | here (n : ℕ) (k : Call Cpu F D)
  | posting (stage : Stage) (n : ℕ) (k : Call Cpu F D)
  | unlocking (n : ℕ) (k : Call Cpu F D)

/-- Where a CPU is in `ipi`, for the call `n` : outside, before each of its three loads, before
the acknowledgement of an asynchronous call, in the function, before the decrement, or before
the acknowledgement of another call. -/
inductive HandlerPc (F D : Type*)
  | out
  | entry (n : ℕ)
  | haveFunction (n : ℕ) (function : Option F)
  | haveData (n : ℕ) (function : Option F) (data : D)
  | ack (n : ℕ) (function : Option F) (data : D)
  | calling (n : ℕ) (function : Option F) (data : D) (wait : Bool)
  | returned (n : ℕ) (wait : Bool)
  | signal (n : ℕ)

/-- What an interrupted caller may find when the handler is done. The handler is a C function and
`ipi_entry` saves no register for it, so what is in the registers that functions need not keep is
lost : the counter, the arguments, the result of the exchange in the lock, and that of the load of
`ipi_done`. -/
inductive Lost : CallerPc Cpu F D → CallerPc Cpu F D → Prop
  | ordinary : Lost .ordinary .ordinary
  | waited {active active' : ℤ} {inited : Bool} :
      Lost (.waited active inited) (.waited active' inited)
  | locking {asked k k' : Call Cpu F D} : Lost (.locking asked k) (.locking asked k')
  | exchanged {asked k k' : Call Cpu F D} : Lost (.locking asked k) (.entering asked k')
  | entering {asked k k' : Call Cpu F D} : Lost (.entering asked k) (.entering asked k')
  | again {asked k k' : Call Cpu F D} : Lost (.entering asked k) (.locking asked k')
  | here {n : ℕ} {k k' : Call Cpu F D} : Lost (.here n k) (.here n k')
  | posting {stage : Stage} {n : ℕ} {k k' : Call Cpu F D} :
      Lost (.posting stage n k) (.posting stage n k')
  | spin {n : ℕ} {k k' : Call Cpu F D} : Lost (.posting .spin n k) (.unlocking n k')
  | unlocking {n : ℕ} {k : Call Cpu F D} : Lost (.unlocking n k) (.unlocking n k)

/-- A function that has returned : the number of its call, the CPU it ran on, itself and its
data. -/
structure Ran (Cpu F D : Type*) where
  call : ℕ
  cpu : Cpu
  function : F
  data : D

end X86Smp

open X86Smp in
/-- The lock with its holder, the mailbox, the counter, the IPIs pending at the CPUs, and the
CPUs. The calls that have taken the lock are recorded as they were asked, with their callers, and
the numbers of those that are posted and finished, the functions that have returned, and the call
whose IPI was sent last. -/
structure X86Smp (Cpu F D : Type*) where
  lock : Option Cpu
  function : Option F
  data : D
  done : Bool
  wait : Bool
  activeCpus : ℤ
  inited : Bool
  pending : Cpu → Bool
  caller : Cpu → CallerPc Cpu F D
  handler : Cpu → HandlerPc F D
  todo : Cpu → List (Op Cpu F D)
  calls : List (Cpu × Call Cpu F D)
  posted : List ℕ
  finished : List ℕ
  ran : List (Ran Cpu F D)
  mail : ℕ

namespace X86Smp

/-- Before `smp_init`. -/
def init (data : D) : X86Smp Cpu F D where
  lock := none
  function := none
  data := data
  done := false
  wait := false
  activeCpus := 0
  inited := false
  pending _ := false
  caller _ := .ordinary
  handler _ := .out
  todo _ := []
  calls := []
  posted := []
  finished := []
  ran := []
  mail := 0

/-- A CPU is executing ordinary code, and is in no call. -/
def Ordinary (s : X86Smp Cpu F D) (p : Cpu) : Prop :=
  s.handler p = .out ∧ s.caller p = .ordinary

/-- An IPI finds the CPU in no call, and not between the load and the test of `active_cpus`. -/
def Idle (s : X86Smp Cpu F D) (c : Cpu) : Prop :=
  s.caller c = .ordinary

/-- One step of a CPU. IPIs are delivered to CPUs of which `cond` holds. -/
inductive Step (cond : X86Smp Cpu F D → Cpu → Prop) (s : X86Smp Cpu F D) : X86Smp Cpu F D → Prop
  | onCpu {p cpu : Cpu} {function : F} {data : D} : s.Ordinary p → s.todo p = [] →
      Step cond s { s with todo := Function.update s.todo p (onCpu cpu function data) }
  | onCpuAsync {p cpu : Cpu} {function : F} {data : D} : s.Ordinary p → s.todo p = [] →
      Step cond s { s with todo := Function.update s.todo p (onCpuAsync cpu function data) }
  | onCpus {p : Cpu} {cpus : List Cpu} {function : F} {data : D} : s.Ordinary p → s.todo p = [] →
      Step cond s { s with todo := Function.update s.todo p (onCpus cpus function data) }
  | load {p : Cpu} {rest : List (Op Cpu F D)} : s.Ordinary p → s.todo p = .waitAll :: rest →
      Step cond s { s with
        caller := Function.update s.caller p (.waited s.activeCpus s.inited) }
  | pause {p : Cpu} {active : ℤ} {inited : Bool} : s.handler p = .out →
      s.caller p = .waited active inited → 1 < active →
      Step cond s { s with caller := Function.update s.caller p .ordinary }
  | leave {p : Cpu} {active : ℤ} {inited : Bool} {rest : List (Op Cpu F D)} : s.handler p = .out →
      s.caller p = .waited active inited → s.todo p = .waitAll :: rest → active ≤ 1 →
      Step cond s { s with
        caller := Function.update s.caller p .ordinary
        todo := Function.update s.todo p rest }
  | call {p : Cpu} {k : Call Cpu F D} {rest : List (Op Cpu F D)} : s.Ordinary p →
      s.todo p = .call k :: rest →
      Step cond s { s with
        caller := Function.update s.caller p (.locking k k)
        todo := Function.update s.todo p rest }
  | lock {p : Cpu} {asked k : Call Cpu F D} : s.handler p = .out →
      s.caller p = .locking asked k → s.lock = none →
      Step cond s { s with
        lock := some p
        caller := Function.update s.caller p (.entering asked k) }
  | target {p : Cpu} {asked k : Call Cpu F D} : s.handler p = .out →
      s.caller p = .entering asked k →
      Step cond s { s with
        caller := Function.update s.caller p
          (if k.cpu = p then .here s.calls.length k else .posting .inc s.calls.length k)
        calls := s.calls ++ [(p, asked)] }
  | here {p : Cpu} {n : ℕ} {k : Call Cpu F D} : s.handler p = .out → s.caller p = .here n k →
      Step cond s { s with
        caller := Function.update s.caller p (.unlocking n k)
        ran := s.ran ++ [⟨n, p, k.function, k.data⟩] }
  | inc {p : Cpu} {n : ℕ} {k : Call Cpu F D} : s.handler p = .out →
      s.caller p = .posting .inc n k →
      Step cond s { s with
        activeCpus := s.activeCpus + 1
        caller := Function.update s.caller p (.posting .clearDone n k)
        posted := s.posted ++ [n] }
  | clearDone {p : Cpu} {n : ℕ} {k : Call Cpu F D} : s.handler p = .out →
      s.caller p = .posting .clearDone n k →
      Step cond s { s with
        done := false
        caller := Function.update s.caller p (.posting .function n k) }
  | function {p : Cpu} {n : ℕ} {k : Call Cpu F D} : s.handler p = .out →
      s.caller p = .posting .function n k →
      Step cond s { s with
        function := some k.function
        caller := Function.update s.caller p (.posting .data n k) }
  | data {p : Cpu} {n : ℕ} {k : Call Cpu F D} : s.handler p = .out →
      s.caller p = .posting .data n k →
      Step cond s { s with
        data := k.data
        caller := Function.update s.caller p (.posting .wait n k) }
  | wait {p : Cpu} {n : ℕ} {k : Call Cpu F D} : s.handler p = .out →
      s.caller p = .posting .wait n k →
      Step cond s { s with
        wait := k.wait
        caller := Function.update s.caller p (.posting .icr n k) }
  | icr {p : Cpu} {n : ℕ} {k : Call Cpu F D} : s.handler p = .out →
      s.caller p = .posting .icr n k →
      Step cond s { s with
        pending := Function.update s.pending k.cpu true
        caller := Function.update s.caller p (.posting .spin n k)
        mail := n }
  | spin {p : Cpu} {n : ℕ} {k : Call Cpu F D} : s.handler p = .out →
      s.caller p = .posting .spin n k → s.done = true →
      Step cond s { s with caller := Function.update s.caller p (.unlocking n k) }
  | unlock {p : Cpu} {n : ℕ} {k : Call Cpu F D} : s.handler p = .out →
      s.caller p = .unlocking n k →
      Step cond s { s with
        lock := none
        caller := Function.update s.caller p .ordinary }
  | smpInit : s.inited = false →
      Step cond s { s with
        activeCpus := s.activeCpus + 1
        inited := true }
  | deliver {c : Cpu} {pc : CallerPc Cpu F D} : s.pending c = true → s.handler c = .out →
      cond s c → Lost (s.caller c) pc →
      Step cond s { s with
        pending := Function.update s.pending c false
        caller := Function.update s.caller c pc
        handler := Function.update s.handler c (.entry s.mail) }
  | loadFunction {c : Cpu} {n : ℕ} : s.handler c = .entry n →
      Step cond s { s with handler := Function.update s.handler c (.haveFunction n s.function) }
  | loadData {c : Cpu} {n : ℕ} {f : Option F} : s.handler c = .haveFunction n f →
      Step cond s { s with handler := Function.update s.handler c (.haveData n f s.data) }
  | loadWait {c : Cpu} {n : ℕ} {f : Option F} {d : D} : s.handler c = .haveData n f d →
      Step cond s { s with
        handler := Function.update s.handler c
          (if s.wait then .calling n f d true else .ack n f d) }
  | ack {c : Cpu} {n : ℕ} {f : Option F} {d : D} : s.handler c = .ack n f d →
      Step cond s { s with
        done := true
        handler := Function.update s.handler c (.calling n f d false) }
  | ret {c : Cpu} {n : ℕ} {f : F} {d : D} {w : Bool} : s.handler c = .calling n (some f) d w →
      Step cond s { s with
        handler := Function.update s.handler c (.returned n w)
        ran := s.ran ++ [⟨n, c, f, d⟩] }
  | dec {c : Cpu} {n : ℕ} {w : Bool} : s.handler c = .returned n w →
      Step cond s { s with
        activeCpus := s.activeCpus - 1
        handler := Function.update s.handler c (if w then .signal n else .out)
        finished := s.finished ++ [n] }
  | signal {c : Cpu} {n : ℕ} : s.handler c = .signal n →
      Step cond s { s with
        done := true
        handler := Function.update s.handler c .out }

/-- The states that are reached from the start of `smp_init`. -/
inductive Run (cond : X86Smp Cpu F D → Cpu → Prop) (data : D) : X86Smp Cpu F D → Prop
  | init : Run cond data (init data)
  | step {s s' : X86Smp Cpu F D} : Run cond data s → s.Step cond s' → Run cond data s'

/-! ## The invariant -/

/-- The caller holds the lock. -/
def CallerPc.Inside : CallerPc Cpu F D → Prop
  | .ordinary => False
  | .waited _ _ => False
  | .locking _ _ => False
  | _ => True

/-- The call that a handler is for. -/
def HandlerPc.call? : HandlerPc F D → Option ℕ
  | .out => none
  | .entry n => some n
  | .haveFunction n _ => some n
  | .haveData n _ _ => some n
  | .ack n _ _ => some n
  | .calling n _ _ _ => some n
  | .returned n _ => some n
  | .signal n => some n

/-- The handler has still to set `ipi_done`. -/
def HandlerPc.signals : HandlerPc F D → Bool
  | .out => false
  | .calling _ _ _ wait => wait
  | .returned _ wait => wait
  | _ => true

/-- The function has returned. -/
def HandlerPc.hasRun : HandlerPc F D → Bool
  | .returned _ _ => true
  | .signal _ => true
  | _ => false

/-- The call is finished. -/
def HandlerPc.hasFinished : HandlerPc F D → Bool
  | .signal _ => true
  | _ => false

/-- What a handler has loaded is of the call `k`. -/
def HandlerPc.Matches (k : Call Cpu F D) : HandlerPc F D → Prop
  | .out => True
  | .entry _ => True
  | .haveFunction _ function => function = some k.function
  | .haveData _ function data => function = some k.function ∧ data = k.data
  | .ack _ function data => function = some k.function ∧ data = k.data ∧ k.wait = false
  | .calling _ function data wait => function = some k.function ∧ data = k.data ∧ wait = k.wait
  | .returned _ wait => wait = k.wait
  | .signal _ => k.wait = true

/-- The calls whose functions have returned. -/
def ranCalls (s : X86Smp Cpu F D) : List ℕ :=
  s.ran.map Ran.call

/-- The call `n` is posted and no handler has taken it. -/
structure Untouched (posted ran finished : List ℕ) (handler : Cpu → HandlerPc F D) (n : ℕ) :
    Prop where
  posted : n ∈ posted
  ran : n ∉ ran
  finished : n ∉ finished
  handler : ∀ c, (handler c).call? ≠ some n

/-- The mailbox holds what has been stored of the call `k` before the stage. -/
def Stored (s : X86Smp Cpu F D) (k : Call Cpu F D) : Stage → Prop
  | .inc => True
  | .clearDone => True
  | .function => True
  | .data => s.function = some k.function
  | .wait => s.function = some k.function ∧ s.data = k.data
  | .icr => s.function = some k.function ∧ s.data = k.data ∧ s.wait = k.wait
  | .spin => s.function = some k.function ∧ s.data = k.data ∧ s.wait = k.wait

/-- The IPI of the call `n` is pending at its target, or the handler there will acknowledge
it. -/
def InTransit (s : X86Smp Cpu F D) (n : ℕ) (k : Call Cpu F D) : Prop :=
  s.pending k.cpu = true ∧ s.mail = n ∧
      Untouched s.posted s.ranCalls s.finished s.handler n ∨
    (s.handler k.cpu).call? = some n ∧ (s.handler k.cpu).signals = true

/-- How far the call `n` has come at a stage of its caller. -/
def StageOk (s : X86Smp Cpu F D) (n : ℕ) (k : Call Cpu F D) : Stage → Prop
  | .inc => n ∉ s.posted ∧ n ∉ s.ranCalls
  | .clearDone => Untouched s.posted s.ranCalls s.finished s.handler n
  | .spin => s.done = false ∧ s.InTransit n k ∨
    s.done = true ∧ (n ∈ s.ranCalls ∨ k.wait = false ∧ (s.handler k.cpu).call? = some n)
  | _ => Untouched s.posted s.ranCalls s.finished s.handler n ∧ s.done = false

/-- What holds at each point of `on_cpus` and `__on_cpu`. -/
def CallerOk (s : X86Smp Cpu F D) (p : Cpu) : CallerPc Cpu F D → Prop
  | .ordinary => True
  | .waited active inited => inited = true → active ≤ 1 →
    ∀ n k, s.calls[n]? = some (p, k) → n ∈ s.ranCalls
  | .locking asked k => k = asked
  | .entering asked k => k = asked
  | .here n k => s.calls[n]? = some (p, k) ∧ k.cpu = p ∧ n ∉ s.posted ∧ n ∉ s.ranCalls
  | .posting stage n k => s.calls[n]? = some (p, k) ∧ k.cpu ≠ p ∧ s.Stored k stage ∧
    s.StageOk n k stage
  | .unlocking n k => s.calls[n]? = some (p, k) ∧ (k.wait = true ∨ k.cpu = p → n ∈ s.ranCalls)

/-- What holds of a handler that is at `h`, for the call `n`. -/
structure HandlerOk (calls : List (Cpu × Call Cpu F D)) (posted ran finished : List ℕ) (c : Cpu)
    (n : ℕ) (h : HandlerPc F D) : Prop where
  call : ∃ p k, calls[n]? = some (p, k) ∧ k.cpu = c ∧ h.Matches k
  posted : n ∈ posted
  ran : n ∈ ran ↔ h.hasRun = true
  finished : n ∈ finished ↔ h.hasFinished = true

/-- What has returned is what was called. -/
structure RanOk (calls : List (Cpu × Call Cpu F D)) (ran : List (Ran Cpu F D)) : Prop where
  mem : ∀ r ∈ ran, ∃ p k, calls[r.call]? = some (p, k) ∧
    r = ⟨r.call, k.cpu, k.function, k.data⟩
  nodup : (ran.map Ran.call).Nodup

/-- The counter is the number of the calls that are posted and not finished, and one for
`smp_init`. -/
structure Counted (posted finished : List ℕ) (active : ℤ) (inited : Bool) : Prop where
  nodup : posted.Nodup
  sub : finished ⊆ posted
  finished_nodup : finished.Nodup
  active : active + finished.length = inited.toNat + posted.length

/-- The lock is with the caller inside, the mailbox and the IPI are its, and no call is
lost. -/
structure Inv (s : X86Smp Cpu F D) : Prop where
  lock : ∀ p, (s.caller p).Inside ↔ s.lock = some p
  caller : ∀ p, s.CallerOk p (s.caller p)
  handler : ∀ c n, (s.handler c).call? = some n →
    HandlerOk s.calls s.posted s.ranCalls s.finished c n (s.handler c)
  busy : ∀ c n, (s.handler c).call? = some n → (s.handler c).signals = true →
    s.done = false ∧ ∃ p k, s.caller p = .posting .spin n k
  pending : ∀ c, s.pending c = true →
    s.done = false ∧ Untouched s.posted s.ranCalls s.finished s.handler s.mail ∧
      ∃ p k, s.caller p = .posting .spin s.mail k ∧ k.cpu = c
  ran : RanOk s.calls s.ran
  counted : Counted s.posted s.finished s.activeCpus s.inited
  posted : ∀ n ∈ s.posted, n < s.calls.length
  finished : ∀ n ∈ s.finished, n ∈ s.ranCalls
  progress : ∀ n p k, s.calls[n]? = some (p, k) → n ∈ s.ranCalls ∨
    (s.caller p = .here n k ∨ ∃ stage, s.caller p = .posting stage n k) ∨
      (s.handler k.cpu).call? = some n

theorem init_inv {data : D} : (init data : X86Smp Cpu F D).Inv where
  lock _ := ⟨False.elim, nofun⟩
  caller _ := trivial
  handler := nofun
  busy := nofun
  pending := nofun
  ran := ⟨nofun, List.nodup_nil⟩
  counted := ⟨List.nodup_nil, nofun, List.nodup_nil, rfl⟩
  posted := nofun
  finished := nofun
  progress := nofun

section Facts

variable {s : X86Smp Cpu F D} {p q c : Cpu} {n m : ℕ} {k : Call Cpu F D} {stage : Stage}

/-- What holds of a caller that is not inside depends on nothing but its calls, and on what has
run. -/
theorem CallerOk.of_not_inside {t : X86Smp Cpu F D} {pc : CallerPc Cpu F D} (h : s.CallerOk p pc)
    (hpc : ¬pc.Inside) (hcalls : ∀ (n : ℕ) k, t.calls[n]? = some (p, k) → s.calls[n]? = some (p, k))
    (hran : s.ranCalls ⊆ t.ranCalls) : t.CallerOk p pc := by
  cases pc with
  | ordinary => exact trivial
  | waited => exact fun hinited hactive n k hk => hran (h hinited hactive n k (hcalls n k hk))
  | locking => exact h
  | _ => exact absurd trivial hpc

/-- Only one caller is inside. -/
theorem Inv.eq_of_inside (h : s.Inv) (hp : (s.caller p).Inside) (hq : (s.caller q).Inside) :
    q = p :=
  Option.some.inj (((h.lock q).mp hq).symm.trans ((h.lock p).mp hp))

/-- A caller that is inside and does not spin has the mailbox for itself. -/
theorem Inv.quiet (h : s.Inv) (hp : (s.caller p).Inside)
    (hspin : ∀ n k, s.caller p ≠ .posting .spin n k) :
    (∀ c, s.pending c ≠ true) ∧ ∀ c n, (s.handler c).call? = some n →
      (s.handler c).signals ≠ true := by
  have hother : ∀ q n k, s.caller q ≠ .posting .spin n k := fun q n k hq => by
    have hqp := h.eq_of_inside hp (q := q) (hq ▸ trivial)
    exact hspin n k (hqp ▸ hq)
  refine ⟨fun c hc => ?_, fun c n hn hs => ?_⟩
  · obtain ⟨-, -, q, k, hq, -⟩ := h.pending c hc
    exact hother q _ k hq
  · obtain ⟨-, q, k, hq⟩ := h.busy c n hn hs
    exact hother q n k hq

/-- A call that has started is in its handler or in none. -/
theorem Inv.eq_of_call (h : s.Inv) {d : Cpu} (hc : (s.handler c).call? = some n)
    (hd : (s.handler d).call? = some n) : d = c := by
  obtain ⟨⟨p, k, hk, hkc, -⟩, -⟩ := h.handler c n hc
  obtain ⟨⟨p', k', hk', hkd, -⟩, -⟩ := h.handler d n hd
  obtain ⟨-, rfl⟩ : p = p' ∧ k = k' := by simpa using hk.symm.trans hk'
  exact hkd.symm.trans hkc

/-- The caller that a handler is to acknowledge. -/
theorem Inv.spinner (h : s.Inv) (hc : (s.handler c).call? = some n)
    (hs : (s.handler c).signals = true) : ∃ p k, s.caller p = .posting .spin n k ∧ k.cpu = c ∧
      s.calls[n]? = some (p, k) ∧ (s.handler c).Matches k ∧ s.Stored k .spin := by
  obtain ⟨⟨p', k', hk', hkc, hmatch⟩, -⟩ := h.handler c n hc
  obtain ⟨-, p, k, hp⟩ := h.busy c n hc hs
  have hcaller := h.caller p
  rw [hp] at hcaller
  obtain ⟨hk, -, hstored, -⟩ := hcaller
  obtain ⟨rfl, rfl⟩ : p' = p ∧ k' = k := by simpa using hk'.symm.trans hk
  exact ⟨p', k', hp, hkc, hk, hmatch, hstored⟩

end Facts

/-! ## The steps of a caller -/

section Caller

variable {s t : X86Smp Cpu F D} {p : Cpu} {n : ℕ} {k : Call Cpu F D} {stage next : Stage}
  {pc : CallerPc Cpu F D}

@[simp] theorem callerOk_caller {caller : Cpu → CallerPc Cpu F D} {todo : Cpu → List (Op Cpu F D)} :
    CallerOk { s with caller := caller, todo := todo } p pc ↔ s.CallerOk p pc := by
  cases pc <;> exact Iff.rfl

/-- A caller that is not inside moves outside. -/
theorem Inv.of_outside (h : s.Inv) {todo : Cpu → List (Op Cpu F D)} (hp : ¬(s.caller p).Inside)
    (hpc : ¬pc.Inside) (hok : s.CallerOk p pc) :
    Inv { s with caller := Function.update s.caller p pc, todo := todo } := by
  have hkeep : ∀ q, (s.caller q).Inside → Function.update s.caller p pc q = s.caller q :=
    fun q hq => Function.update_of_ne (fun heq => hp (by rwa [← heq])) _ _
  refine ⟨fun q => ?_, fun q => ?_, h.handler, fun c n hn hs => ?_, fun c hc => ?_, h.ran,
    h.counted, h.posted, h.finished, fun n q k hk => ?_⟩
  · rw [← h.lock q]
    rcases eq_or_ne q p with rfl | hne
    · simpa using iff_of_false hpc hp
    · simp [hne]
  · rw [callerOk_caller]
    rcases eq_or_ne q p with rfl | hne
    · simpa using hok
    · simpa [hne] using h.caller q
  · obtain ⟨hdone, q, k, hq⟩ := h.busy c n hn hs
    exact ⟨hdone, q, k, (hkeep q (hq ▸ trivial)).trans hq⟩
  · obtain ⟨hdone, hmail, q, k, hq, hkc⟩ := h.pending c hc
    exact ⟨hdone, hmail, q, k, (hkeep q (hq ▸ trivial)).trans hq, hkc⟩
  · rcases h.progress n q k hk with hran | (hhere | ⟨stage, hpost⟩) | hhandler
    · exact Or.inl hran
    · exact Or.inr (Or.inl (Or.inl ((hkeep q (hhere ▸ trivial)).trans hhere)))
    · exact Or.inr (Or.inl (Or.inr ⟨stage, (hkeep q (hpost ▸ trivial)).trans hpost⟩))
    · exact Or.inr (Or.inr hhandler)

/-- The lock stays with a caller that moves inside. -/
theorem Inv.lock_update (h : s.Inv) (hp : (s.caller p).Inside) (hpc : pc.Inside) (q : Cpu) :
    (Function.update s.caller p pc q).Inside ↔ s.lock = some q := by
  rw [← h.lock q]
  rcases eq_or_ne q p with rfl | hne
  · simpa using iff_of_true hpc hp
  · simp [hne]

theorem Inv.caller_at (h : s.Inv) {pc : CallerPc Cpu F D} (hp : s.caller p = pc) :
    s.CallerOk p pc :=
  hp ▸ h.caller p

/-- Of the callers only the one inside matters, if the others have no new calls. -/
theorem Inv.caller_update (h : s.Inv) (hp : (s.caller p).Inside) (hpc : t.CallerOk p pc)
    (hcalls : ∀ q ≠ p, ∀ (n : ℕ) k, t.calls[n]? = some (q, k) → s.calls[n]? = some (q, k))
    (hran : s.ranCalls ⊆ t.ranCalls) (q : Cpu) :
    t.CallerOk q (Function.update s.caller p pc q) := by
  rcases eq_or_ne q p with rfl | hne
  · simpa using hpc
  · have hout : ¬(s.caller q).Inside := fun hq => hne (h.eq_of_inside hp hq)
    rw [Function.update_of_ne hne]
    exact (h.caller q).of_not_inside hout (hcalls q hne) hran

/-- A caller that moves loses no call, if it does not lose the one it is at. -/
theorem Inv.progress_caller (h : s.Inv) {ran : List ℕ} (hran : s.ranCalls ⊆ ran)
    (hmove : ∀ m l, (s.caller p = .here m l ∨ ∃ stage, s.caller p = .posting stage m l) →
      m ∈ ran ∨ (pc = .here m l ∨ ∃ stage, pc = .posting stage m l) ∨
        (s.handler l.cpu).call? = some m)
    {m : ℕ} {q : Cpu} {l : Call Cpu F D} (hl : s.calls[m]? = some (q, l)) :
    m ∈ ran ∨ (Function.update s.caller p pc q = .here m l ∨
        ∃ stage, Function.update s.caller p pc q = .posting stage m l) ∨
      (s.handler l.cpu).call? = some m := by
  rcases h.progress m q l hl with hmem | hcaller | hhandler
  · exact Or.inl (hran hmem)
  · rcases eq_or_ne q p with rfl | hne
    · rw [Function.update_self]
      exact hmove m l hcaller
    · rw [Function.update_of_ne hne]
      exact Or.inr (Or.inl hcaller)
  · exact Or.inr (Or.inr hhandler)

/-- A caller that moves on with its call keeps it from being lost. -/
theorem Inv.progress_update (h : s.Inv) (hp : s.caller p = .posting stage n k) {m : ℕ} {q : Cpu}
    {l : Call Cpu F D} (hl : s.calls[m]? = some (q, l)) : m ∈ s.ranCalls ∨
      (Function.update s.caller p (.posting next n k) q = .here m l ∨
        ∃ stage, Function.update s.caller p (.posting next n k) q = .posting stage m l) ∨
      (s.handler l.cpu).call? = some m := by
  refine h.progress_caller (fun _ => id) (fun m l hcaller => ?_) hl
  obtain ⟨rfl, rfl⟩ : n = m ∧ k = l := by simpa [hp] using hcaller
  exact Or.inr (Or.inl (Or.inr ⟨next, rfl⟩))

/-- A caller that does not spin moves to the next stage, and stores in the mailbox. -/
theorem Inv.store (h : s.Inv) (hp : s.caller p = .posting stage n k) (hstage : stage ≠ .spin)
    {function : Option F} {data : D} {done wait : Bool}
    (hok : CallerOk { s with function := function, data := data, done := done, wait := wait } p
      (.posting next n k)) :
    Inv { s with
      function := function
      data := data
      done := done
      wait := wait
      caller := Function.update s.caller p (.posting next n k) } := by
  have hin : (s.caller p).Inside := hp ▸ trivial
  obtain ⟨hpending, hbusy⟩ := h.quiet hin fun m l hl => by
    rw [hp] at hl
    exact hstage (CallerPc.posting.inj hl).1
  exact ⟨h.lock_update hin trivial,
    h.caller_update hin (callerOk_caller.mpr hok) (fun _ _ _ _ => id) (fun _ => id), h.handler,
    fun c m hm hs => absurd hs (hbusy c m hm), fun c hc => absurd hc (hpending c), h.ran,
    h.counted, h.posted, h.finished, fun m q l hl => h.progress_update hp hl⟩

/-- A caller takes the lock. -/
theorem Inv.takeLock (h : s.Inv) {asked : Call Cpu F D} (hp : s.caller p = .locking asked k)
    (hlock : s.lock = none) :
    Inv { s with
      lock := some p
      caller := Function.update s.caller p (.entering asked k) } := by
  have hout : ∀ q, ¬(s.caller q).Inside := fun q hq => by
    rw [h.lock q, hlock] at hq
    exact absurd hq (by simp)
  refine ⟨fun q => ?_, fun q => ?_, h.handler, fun c m hm hs => ?_, fun c hc => ?_, h.ran,
    h.counted, h.posted, h.finished, fun m q l hl =>
      h.progress_caller (fun _ => id) (fun m l hcaller => ?_) hl⟩
  · dsimp only
    rcases eq_or_ne q p with rfl | hne
    · rw [Function.update_self]
      exact iff_of_true trivial rfl
    · rw [Function.update_of_ne hne]
      exact iff_of_false (hout q) fun heq => hne (Option.some.inj heq).symm
  · dsimp only
    rcases eq_or_ne q p with rfl | hne
    · rw [Function.update_self]
      exact h.caller_at hp
    · rw [Function.update_of_ne hne]
      exact (h.caller q).of_not_inside (hout q) (fun _ _ => id) fun _ => id
  · obtain ⟨-, q, l, hq⟩ := h.busy c m hm hs
    exact absurd (hq ▸ trivial) (hout q)
  · obtain ⟨-, -, q, l, hq, -⟩ := h.pending c hc
    exact absurd (hq ▸ trivial) (hout q)
  · simp [hp] at hcaller

theorem getElem?_concat_cases {α : Type*} {l : List α} {a b : α} {m : ℕ}
    (h : (l ++ [a])[m]? = some b) : l[m]? = some b ∨ m = l.length ∧ b = a := by
  rcases Nat.lt_or_ge m l.length with hlt | hge
  · rw [List.getElem?_append_left hlt] at h
    exact Or.inl h
  · obtain ⟨hlt, -⟩ := List.getElem?_eq_some_iff.mp h
    rw [List.length_append, List.length_singleton] at hlt
    obtain rfl : m = l.length := Nat.le_antisymm (Nat.le_of_lt_succ hlt) hge
    rw [List.getElem?_concat_length] at h
    exact Or.inr ⟨rfl, (Option.some.inj h).symm⟩

/-- The caller that has the lock starts a new call. -/
theorem Inv.target (h : s.Inv) {asked : Call Cpu F D} (hp : s.caller p = .entering asked k) :
    Inv { s with
      caller := Function.update s.caller p
        (if k.cpu = p then .here s.calls.length k else .posting .inc s.calls.length k)
      calls := s.calls ++ [(p, asked)] } := by
  have hin : (s.caller p).Inside := hp ▸ trivial
  obtain ⟨hpending, hbusy⟩ := h.quiet hin (by simp [hp])
  obtain rfl : k = asked := h.caller_at hp
  have hgrow : ∀ {m q l}, s.calls[m]? = some (q, l) →
      (s.calls ++ [(p, k)])[m]? = some (q, l) := fun hl => by
    obtain ⟨hlt, -⟩ := List.getElem?_eq_some_iff.mp hl
    rwa [List.getElem?_append_left hlt]
  have hnew' : ∀ {m q l}, (s.calls ++ [(p, k)])[m]? = some (q, l) →
      s.calls[m]? = some (q, l) ∨ m = s.calls.length ∧ q = p ∧ l = k := fun hl =>
    (getElem?_concat_cases hl).imp_right fun hlast => ⟨hlast.1, Prod.mk.inj hlast.2⟩
  have hran : ∀ m ∈ s.ranCalls, m < s.calls.length := fun m hm => by
    obtain ⟨r, hr, rfl⟩ := List.mem_map.mp hm
    obtain ⟨q, l, hl, -⟩ := h.ran.mem r hr
    exact (List.getElem?_eq_some_iff.mp hl).1
  have hnew : s.calls.length ∉ s.posted ∧ s.calls.length ∉ s.ranCalls :=
    ⟨fun hm => absurd (h.posted _ hm) (lt_irrefl _), fun hm => absurd (hran _ hm) (lt_irrefl _)⟩
  refine ⟨h.lock_update hin (by split <;> trivial), h.caller_update hin ?_ (fun q hne m l hl => ?_)
    (fun _ => id), fun c m hm => ?_, fun c m hm hs => absurd hs (hbusy c m hm),
    fun c hc => absurd hc (hpending c), ⟨fun r hr => ?_, h.ran.nodup⟩, h.counted, fun m hm => ?_,
    h.finished, fun m q l hl => ?_⟩
  · split
    · next hself => exact ⟨List.getElem?_concat_length, hself, hnew⟩
    · next hother => exact ⟨List.getElem?_concat_length, hother, trivial, hnew⟩
  · exact (hnew' hl).resolve_right fun heq => hne heq.2.1
  · obtain ⟨⟨q, l, hl, hmatch⟩, hposted, hran, hfinished⟩ := h.handler c m hm
    exact ⟨⟨q, l, hgrow hl, hmatch⟩, hposted, hran, hfinished⟩
  · obtain ⟨q, l, hl, hr⟩ := h.ran.mem r hr
    exact ⟨q, l, hgrow hl, hr⟩
  · dsimp only
    rw [List.length_append]
    exact Nat.lt_succ_of_lt (h.posted m hm)
  · dsimp only at hl ⊢
    rcases hnew' hl with hl | ⟨rfl, rfl, rfl⟩
    · exact h.progress_caller (fun _ => id) (fun m l hcaller => by simp [hp] at hcaller) hl
    · rw [Function.update_self]
      refine Or.inr (Or.inl ?_)
      split
      · exact Or.inl rfl
      · exact Or.inr ⟨.inc, rfl⟩

/-- A caller runs the function of a call to itself. -/
theorem Inv.runHere (h : s.Inv) (hp : s.caller p = .here n k) :
    Inv { s with
      caller := Function.update s.caller p (.unlocking n k)
      ran := s.ran ++ [⟨n, p, k.function, k.data⟩] } := by
  have hin : (s.caller p).Inside := hp ▸ trivial
  obtain ⟨hpending, hbusy⟩ := h.quiet hin (by simp [hp])
  obtain ⟨hk, hself, hposted, hran⟩ := h.caller_at hp
  have hcalls : (s.ran ++ [(⟨n, p, k.function, k.data⟩ : Ran Cpu F D)]).map Ran.call =
      s.ranCalls ++ [n] := List.map_append
  have hmem : ∀ m, m ∈ (s.ran ++ [(⟨n, p, k.function, k.data⟩ : Ran Cpu F D)]).map Ran.call ↔
      m ∈ s.ranCalls ∨ m = n := by simp [hcalls]
  refine ⟨h.lock_update hin trivial, h.caller_update hin
      ⟨hk, fun _ => (hmem n).mpr (Or.inr rfl)⟩ (fun _ _ _ _ => id)
      (fun m hm => (hmem m).mpr (Or.inl hm)),
    fun c m hm => ?_, fun c m hm hs => absurd hs (hbusy c m hm),
    fun c hc => absurd hc (hpending c), ⟨fun r hr => ?_, ?_⟩, h.counted, h.posted,
    fun m hm => (hmem m).mpr (Or.inl (h.finished m hm)), fun m q l hl =>
      h.progress_caller (fun m hm => (hmem m).mpr (Or.inl hm)) (fun m l hcaller => ?_) hl⟩
  · obtain ⟨hcall, hpost, hran', hfinished⟩ := h.handler c m hm
    refine ⟨hcall, hpost, (hmem m).trans ?_, hfinished⟩
    exact ⟨fun hor => hran'.mp (hor.resolve_right fun heq => hposted (heq ▸ hpost)),
      fun hrun => Or.inl (hran'.mpr hrun)⟩
  · rcases List.mem_append.mp hr with hr | hr
    · exact h.ran.mem r hr
    · rw [List.mem_singleton.mp hr]
      exact ⟨p, k, hk, by rw [hself]⟩
  · rw [hcalls, ← List.concat_eq_append]
    exact h.ran.nodup.concat hran
  · obtain ⟨rfl, rfl⟩ : n = m ∧ k = l := by simpa [hp] using hcaller
    exact Or.inl ((hmem n).mpr (Or.inr rfl))

/-- A caller posts its call. -/
theorem Inv.inc (h : s.Inv) (hp : s.caller p = .posting .inc n k) :
    Inv { s with
      activeCpus := s.activeCpus + 1
      caller := Function.update s.caller p (.posting .clearDone n k)
      posted := s.posted ++ [n] } := by
  have hin : (s.caller p).Inside := hp ▸ trivial
  obtain ⟨hpending, hbusy⟩ := h.quiet hin (by simp [hp])
  obtain ⟨hk, hne, -, hposted, hran⟩ := h.caller_at hp
  have huntouched : Untouched (s.posted ++ [n]) s.ranCalls s.finished s.handler n :=
    ⟨by simp, hran, fun hm => hposted (h.counted.sub hm),
      fun c hc => hposted (h.handler c n hc).posted⟩
  refine ⟨h.lock_update hin trivial,
    h.caller_update hin ⟨hk, hne, trivial, huntouched⟩ (fun _ _ _ _ => id) (fun _ => id),
    fun c m hm => ?_, fun c m hm hs => absurd hs (hbusy c m hm),
    fun c hc => absurd hc (hpending c), h.ran, ⟨?_, ?_, h.counted.finished_nodup, ?_⟩,
    fun m hm => ?_, h.finished, fun m q l hl => h.progress_update hp hl⟩
  · obtain ⟨hcall, hpost, hran', hfinished⟩ := h.handler c m hm
    exact ⟨hcall, List.mem_append_left _ hpost, hran', hfinished⟩
  · rw [← List.concat_eq_append]
    exact h.counted.nodup.concat hposted
  · exact fun m hm => List.mem_append_left _ (h.counted.sub hm)
  · have hactive := h.counted.active
    dsimp only
    rw [List.length_append, List.length_singleton]
    omega
  · rcases List.mem_append.mp hm with hm | hm
    · exact h.posted m hm
    · rw [List.mem_singleton.mp hm]
      exact (List.getElem?_eq_some_iff.mp hk).1

/-- A caller sends the IPI. -/
theorem Inv.icr (h : s.Inv) (hp : s.caller p = .posting .icr n k) :
    Inv { s with
      pending := Function.update s.pending k.cpu true
      caller := Function.update s.caller p (.posting .spin n k)
      mail := n } := by
  have hin : (s.caller p).Inside := hp ▸ trivial
  obtain ⟨hpending, hbusy⟩ := h.quiet hin (by simp [hp])
  obtain ⟨hk, hne, hstored, huntouched, hdone⟩ := h.caller_at hp
  refine ⟨h.lock_update hin trivial,
    h.caller_update hin ⟨hk, hne, hstored, ?_⟩ (fun _ _ _ _ => id) (fun _ => id), h.handler,
    fun c m hm hs => absurd hs (hbusy c m hm), fun c hc => ?_, h.ran, h.counted, h.posted,
    h.finished, fun m q l hl => h.progress_update hp hl⟩
  · exact Or.inl ⟨hdone, Or.inl ⟨Function.update_self .., rfl, huntouched⟩⟩
  · rcases update_cases hc with ⟨rfl, -⟩ | ⟨-, hc⟩
    · exact ⟨hdone, huntouched, p, k, Function.update_self .., rfl⟩
    · exact absurd hc (hpending c)

/-- A caller sees that its call is acknowledged. -/
theorem Inv.spin (h : s.Inv) (hp : s.caller p = .posting .spin n k) (hdone : s.done = true) :
    Inv { s with caller := Function.update s.caller p (.unlocking n k) } := by
  have hin : (s.caller p).Inside := hp ▸ trivial
  obtain ⟨hk, hne, -, hstage⟩ := h.caller_at hp
  have hrun : n ∈ s.ranCalls ∨ k.wait = false ∧ (s.handler k.cpu).call? = some n := by
    rcases hstage with ⟨hnot, -⟩ | ⟨-, hrun⟩
    · exact absurd (hnot.symm.trans hdone) (by decide)
    · exact hrun
  refine ⟨h.lock_update hin trivial,
    h.caller_update hin ⟨hk, fun hor => ?_⟩ (fun _ _ _ _ => id) (fun _ => id), h.handler,
    fun c m hm hs => ?_, fun c hc => ?_, h.ran, h.counted, h.posted, h.finished,
    fun m q l hl => h.progress_caller (fun _ => id) (fun m l hcaller => ?_) hl⟩
  · refine hrun.resolve_right fun hasync => ?_
    rcases hor with hwait | hself
    · exact absurd (hasync.1.symm.trans hwait) (by decide)
    · exact hne hself
  · exact absurd ((h.busy c m hm hs).1.symm.trans hdone) (by decide)
  · exact absurd ((h.pending c hc).1.symm.trans hdone) (by decide)
  · obtain ⟨rfl, rfl⟩ : n = m ∧ k = l := by simpa [hp] using hcaller
    exact hrun.imp_right fun hasync => Or.inr hasync.2

/-- A caller releases the lock. -/
theorem Inv.unlock (h : s.Inv) (hp : s.caller p = .unlocking n k) :
    Inv { s with
      lock := none
      caller := Function.update s.caller p .ordinary } := by
  have hin : (s.caller p).Inside := hp ▸ trivial
  obtain ⟨hpending, hbusy⟩ := h.quiet hin (by simp [hp])
  refine ⟨fun q => ?_, h.caller_update hin trivial (fun _ _ _ _ => id) (fun _ => id), h.handler,
    fun c m hm hs => absurd hs (hbusy c m hm), fun c hc => absurd hc (hpending c), h.ran,
    h.counted, h.posted, h.finished, fun m q l hl =>
      h.progress_caller (fun _ => id) (fun m l hcaller => ?_) hl⟩
  · refine iff_of_false (fun hq => ?_) (by simp)
    dsimp only at hq
    rcases eq_or_ne q p with rfl | hne
    · rw [Function.update_self] at hq
      exact hq
    · rw [Function.update_of_ne hne] at hq
      exact hne (h.eq_of_inside hin hq)
  · simp [hp] at hcaller

end Caller

/-! ## The steps of a handler -/

section Handler

variable {s : X86Smp Cpu F D} {c : Cpu} {n m : ℕ} {h' : HandlerPc F D}

theorem HandlerPc.call?_of_signals {h : HandlerPc F D} (hs : h.signals = true) :
    h.call? ≠ none := by
  cases h with
  | out => exact absurd hs Bool.false_ne_true
  | _ => exact Option.some_ne_none _

/-- A handler that moves on touches no other call. -/
theorem Untouched.handle {posted ran ran' finished finished' : List ℕ}
    {handler : Cpu → HandlerPc F D} (hu : Untouched posted ran finished handler m)
    (hc : (handler c).call? = some n) (hcall : h'.call? = some n ∨ h'.call? = none)
    (hran : ∀ l ∈ ran', l ≠ n → l ∈ ran) (hfinished : ∀ l ∈ finished', l ≠ n → l ∈ finished) :
    Untouched posted ran' finished' (Function.update handler c h') m := by
  have hne : m ≠ n := fun heq => hu.handler c (heq ▸ hc)
  refine ⟨hu.posted, fun hm => hu.ran (hran m hm hne), fun hm => hu.finished (hfinished m hm hne),
    fun d hd => ?_⟩
  rcases eq_or_ne d c with rfl | hdc
  · rw [Function.update_self] at hd
    rcases hcall with hcall | hcall
    · exact hne (Option.some.inj (hd.symm.trans hcall))
    · exact absurd (hcall.symm.trans hd) (by simp)
  · rw [Function.update_of_ne hdc] at hd
    exact hu.handler d hd

/-- A call that was in a handler still is, or was in the handler that moves. -/
theorem call_update {handler : Cpu → HandlerPc F D} {done : Prop}
    (hc : (handler c).call? = some n) (hcall : h'.call? = some n ∨ done) {d : Cpu}
    (hd : (handler d).call? = some m) :
    (Function.update handler c h' d).call? = some m ∨ m = n ∧ done := by
  rcases eq_or_ne d c with rfl | hdc
  · obtain rfl := Option.some.inj (hc.symm.trans hd)
    rw [Function.update_self]
    exact hcall.imp_right fun hdone => ⟨rfl, hdone⟩
  · rw [Function.update_of_ne hdc]
    exact Or.inl hd

/-- A handler that moves loses no call, if it leaves its own one when it has run. -/
theorem Inv.progress_handler (h : s.Inv) (hc : (s.handler c).call? = some n) {ran : List ℕ}
    (hran : s.ranCalls ⊆ ran) (hcall : h'.call? = some n ∨ n ∈ ran) {p : Cpu} {k : Call Cpu F D}
    (hk : s.calls[m]? = some (p, k)) :
    m ∈ ran ∨ (s.caller p = .here m k ∨ ∃ stage, s.caller p = .posting stage m k) ∨
      (Function.update s.handler c h' k.cpu).call? = some m := by
  rcases h.progress m p k hk with hmem | hcaller | hhandler
  · exact Or.inl (hran hmem)
  · exact Or.inr (Or.inl hcaller)
  · rcases call_update hc hcall hhandler with hkept | ⟨rfl, hmem⟩
    · exact Or.inr (Or.inr hkept)
    · exact Or.inl hmem

/-- A handler that moves on keeps what holds at its caller, and at the others. -/
theorem Inv.caller_handle (h : s.Inv) (hc : (s.handler c).call? = some n)
    {ran : List (Ran Cpu F D)} {finished : List ℕ} {active : ℤ}
    (hcall : h'.call? = some n ∨ h'.call? = none ∧ n ∈ ran.map Ran.call)
    (hsignals : h'.signals = (s.handler c).signals)
    (hran : s.ranCalls ⊆ ran.map Ran.call) (hran' : ∀ l ∈ ran.map Ran.call, l ≠ n → l ∈ s.ranCalls)
    (hkeep : ∀ {l}, Untouched s.posted s.ranCalls s.finished s.handler l →
      Untouched s.posted (ran.map Ran.call) finished (Function.update s.handler c h') l)
    (p : Cpu) :
    CallerOk { s with
      activeCpus := active
      handler := Function.update s.handler c h'
      finished := finished
      ran := ran } p (s.caller p) := by
  have hcall' : h'.call? = some n ∨ h'.call? = none := hcall.imp_right And.left
  have hposted := (h.handler c n hc).posted
  have hcaller := h.caller p
  cases hpc : s.caller p with
  | ordinary => exact trivial
  | waited active inited =>
    rw [hpc] at hcaller
    exact fun hinited hactive l k hk => hran (hcaller hinited hactive l k hk)
  | locking =>
    rw [hpc] at hcaller
    exact hcaller
  | entering =>
    rw [hpc] at hcaller
    exact hcaller
  | here l k =>
    rw [hpc] at hcaller
    obtain ⟨hk, hself, hl, hlran⟩ := hcaller
    exact ⟨hk, hself, hl, fun hmem => hlran (hran' l hmem fun heq => hl (heq ▸ hposted))⟩
  | unlocking l k =>
    rw [hpc] at hcaller
    exact ⟨hcaller.1, fun hor => hran (hcaller.2 hor)⟩
  | posting stage l k =>
    rw [hpc] at hcaller
    obtain ⟨hk, hne, hstored, hstage⟩ := hcaller
    refine ⟨hk, hne, hstored, ?_⟩
    cases stage with
    | inc => exact ⟨hstage.1, fun hmem =>
        hstage.2 (hran' l hmem fun heq => hstage.1 (heq ▸ hposted))⟩
    | clearDone => exact hkeep hstage
    | spin =>
      rcases hstage with ⟨hdone, htransit⟩ | ⟨hdone, hrun⟩
      · refine Or.inl ⟨hdone, ?_⟩
        rcases htransit with ⟨hpending, hmail, hu⟩ | ⟨hl, hs⟩
        · exact Or.inl ⟨hpending, hmail, hkeep hu⟩
        · refine Or.inr ?_
          dsimp only
          rcases eq_or_ne k.cpu c with rfl | hkc
          · obtain rfl := Option.some.inj (hc.symm.trans hl)
            rw [Function.update_self, hsignals]
            refine ⟨hcall'.resolve_right ?_, hs⟩
            exact HandlerPc.call?_of_signals (hsignals.trans hs)
          · rw [Function.update_of_ne hkc]
            exact ⟨hl, hs⟩
      · refine Or.inr ⟨hdone, ?_⟩
        rcases hrun with hl | ⟨hwait, hl⟩
        · exact Or.inl (hran hl)
        · rcases call_update hc (hcall.imp_right And.right) hl with hkept | ⟨rfl, hmem⟩
          · exact Or.inr ⟨hwait, hkept⟩
          · exact Or.inl hmem
    | _ => exact ⟨hkeep hstage.1, hstage.2⟩

/-- A handler moves on, without an acknowledgement. -/
theorem Inv.handle (h : s.Inv) (hc : (s.handler c).call? = some n) {ran : List (Ran Cpu F D)}
    {finished : List ℕ} {active : ℤ}
    (hcall : h'.call? = some n ∨ h'.call? = none ∧ n ∈ ran.map Ran.call)
    (hsignals : h'.signals = (s.handler c).signals)
    (hran : s.ranCalls ⊆ ran.map Ran.call) (hran' : ∀ l ∈ ran.map Ran.call, l ≠ n → l ∈ s.ranCalls)
    (hfin : s.finished ⊆ finished) (hfin' : ∀ l ∈ finished, l ≠ n → l ∈ s.finished)
    (hok : h'.call? = some n → HandlerOk s.calls s.posted (ran.map Ran.call) finished c n h')
    (hranOk : RanOk s.calls ran) (hcounted : Counted s.posted finished active s.inited)
    (hfinished : ∀ l ∈ finished, l ∈ ran.map Ran.call) :
    Inv { s with
      activeCpus := active
      handler := Function.update s.handler c h'
      finished := finished
      ran := ran } := by
  have hcall' : h'.call? = some n ∨ h'.call? = none := hcall.imp_right And.left
  have hkeep : ∀ {l}, Untouched s.posted s.ranCalls s.finished s.handler l →
      Untouched s.posted (ran.map Ran.call) finished (Function.update s.handler c h') l :=
    fun hu => hu.handle hc hcall' hran' hfin'
  refine ⟨h.lock, h.caller_handle hc hcall hsignals hran hran' hkeep, fun d l hl => ?_,
    fun d l hl hs => ?_, fun d hd => ?_, hranOk, hcounted, h.posted, hfinished,
    fun l q k hk => h.progress_handler hc hran (hcall.imp_right And.right) hk⟩
  · dsimp only at hl ⊢
    rcases eq_or_ne d c with rfl | hdc
    · rw [Function.update_self] at hl ⊢
      rcases hcall' with hcall | hcall
      · obtain rfl := Option.some.inj (hcall.symm.trans hl)
        exact hok hl
      · exact absurd (hcall.symm.trans hl) (by simp)
    · rw [Function.update_of_ne hdc] at hl ⊢
      have hln : l ≠ n := fun heq => hdc (h.eq_of_call hc (heq ▸ hl))
      obtain ⟨hcall, hpost, hr, hf⟩ := h.handler d l hl
      exact ⟨hcall, hpost, ⟨fun hm => hr.mp (hran' l hm hln), fun hm => hran (hr.mpr hm)⟩,
        ⟨fun hm => hf.mp (hfin' l hm hln), fun hm => hfin (hf.mpr hm)⟩⟩
  · dsimp only at hl hs
    rcases eq_or_ne d c with rfl | hdc
    · rw [Function.update_self] at hl hs
      obtain rfl := Option.some.inj
        (hl.symm.trans (hcall'.resolve_right (HandlerPc.call?_of_signals hs)))
      exact h.busy d l hc (hsignals ▸ hs)
    · rw [Function.update_of_ne hdc] at hl hs
      exact h.busy d l hl hs
  · obtain ⟨hdone, hu, hcaller⟩ := h.pending d hd
    exact ⟨hdone, hkeep hu, hcaller⟩

/-- A handler acknowledges its call. -/
theorem Inv.signal (h : s.Inv) (hc : (s.handler c).call? = some n)
    (hs : (s.handler c).signals = true) (hs' : h'.signals = false)
    (hcall : h'.call? = some n ∧ (∀ q k, s.calls[n]? = some (q, k) → k.wait = false) ∨
      h'.call? = none ∧ n ∈ s.ranCalls)
    (hok : h'.call? = some n → HandlerOk s.calls s.posted s.ranCalls s.finished c n h') :
    Inv { s with
      done := true
      handler := Function.update s.handler c h' } := by
  obtain ⟨p, k, hp, rfl, hk, -, hstored⟩ := h.spinner hc hs
  have hin : (s.caller p).Inside := hp ▸ trivial
  have hcaller := h.caller p
  rw [hp] at hcaller
  have honly : ∀ q l j, s.caller q = .posting .spin l j → l = n ∧ j = k := fun q l j hq => by
    have hqp := h.eq_of_inside hin (q := q) (hq ▸ trivial)
    rw [hqp, hp] at hq
    exact ⟨(CallerPc.posting.inj hq).2.1.symm, (CallerPc.posting.inj hq).2.2.symm⟩
  refine ⟨h.lock, fun q => ?_, fun d l hl => ?_, fun d l hl hsd => ?_, fun d hd => ?_, h.ran,
    h.counted, h.posted, h.finished, fun l q j hj =>
      h.progress_handler hc (fun _ => id) (hcall.imp And.left And.right) hj⟩
  · rcases eq_or_ne q p with rfl | hqp
    · dsimp only
      rw [hp]
      refine ⟨hk, hcaller.2.1, hstored, Or.inr ⟨rfl, ?_⟩⟩
      dsimp only
      rw [Function.update_self]
      rcases hcall with ⟨hcall, hwait⟩ | ⟨-, hmem⟩
      · exact Or.inr ⟨hwait _ k hk, hcall⟩
      · exact Or.inl hmem
    · exact (h.caller q).of_not_inside (fun hq => hqp (h.eq_of_inside hin hq)) (fun _ _ => id)
        fun _ => id
  · dsimp only at hl ⊢
    rcases eq_or_ne d k.cpu with rfl | hdc
    · rw [Function.update_self] at hl ⊢
      rcases hcall with ⟨hcall, -⟩ | ⟨hcall, -⟩
      · obtain rfl := Option.some.inj (hcall.symm.trans hl)
        exact hok hl
      · exact absurd (hcall.symm.trans hl) (by simp)
    · rw [Function.update_of_ne hdc] at hl ⊢
      exact h.handler d l hl
  · dsimp only at hl hsd
    rcases eq_or_ne d k.cpu with rfl | hdc
    · rw [Function.update_self, hs'] at hsd
      exact absurd hsd (by decide)
    · rw [Function.update_of_ne hdc] at hl hsd
      obtain ⟨-, q, j, hq⟩ := h.busy d l hl hsd
      exact absurd (h.eq_of_call hc ((honly q l j hq).1 ▸ hl)) hdc
  · obtain ⟨-, hu, q, j, hq, -⟩ := h.pending d hd
    exact absurd ((honly q _ j hq).1 ▸ hc) (hu.handler k.cpu)

/-- The IPI of a call is delivered. -/
theorem Inv.deliver (h : s.Inv) (hpending : s.pending c = true) (hout : s.handler c = .out) :
    Inv { s with
      pending := Function.update s.pending c false
      handler := Function.update s.handler c (.entry s.mail) } := by
  obtain ⟨hdone, hu, p, k, hp, rfl⟩ := h.pending c hpending
  have hin : (s.caller p).Inside := hp ▸ trivial
  have hcaller := h.caller p
  rw [hp] at hcaller
  obtain ⟨hk, hne, hstored, -⟩ := hcaller
  refine ⟨h.lock, fun q => ?_, fun d l hl => ?_, fun d l hl hs => ?_, fun d hd => ?_, h.ran,
    h.counted, h.posted, h.finished, fun l q j hj => ?_⟩
  · rcases eq_or_ne q p with rfl | hqp
    · dsimp only
      rw [hp]
      refine ⟨hk, hne, hstored, Or.inl ⟨hdone, Or.inr ?_⟩⟩
      dsimp only
      rw [Function.update_self]
      exact ⟨rfl, rfl⟩
    · exact (h.caller q).of_not_inside (fun hq => hqp (h.eq_of_inside hin hq)) (fun _ _ => id)
        fun _ => id
  · dsimp only at hl ⊢
    rcases eq_or_ne d k.cpu with rfl | hdc
    · rw [Function.update_self] at hl ⊢
      obtain rfl := Option.some.inj hl
      exact ⟨⟨p, k, hk, rfl, trivial⟩, hu.posted, iff_of_false hu.ran (by simp [HandlerPc.hasRun]),
        iff_of_false hu.finished (by simp [HandlerPc.hasFinished])⟩
    · rw [Function.update_of_ne hdc] at hl ⊢
      exact h.handler d l hl
  · dsimp only at hl hs
    refine ⟨hdone, ?_⟩
    rcases eq_or_ne d k.cpu with rfl | hdc
    · rw [Function.update_self] at hl
      obtain rfl := Option.some.inj hl
      exact ⟨p, k, hp⟩
    · rw [Function.update_of_ne hdc] at hl hs
      exact (h.busy d l hl hs).2
  · rcases update_cases hd with ⟨-, hd⟩ | ⟨hdc, hd⟩
    · exact absurd hd (by decide)
    · obtain ⟨-, -, q, j, hq, rfl⟩ := h.pending d hd
      have hqp := h.eq_of_inside hin (q := q) (hq ▸ trivial)
      rw [hqp, hp] at hq
      exact absurd (congrArg Call.cpu (CallerPc.posting.inj hq).2.2).symm hdc
  · rcases h.progress l q j hj with hmem | hcaller | hhandler
    · exact Or.inl hmem
    · exact Or.inr (Or.inl hcaller)
    · refine Or.inr (Or.inr ?_)
      dsimp only
      rw [Function.update_of_ne, hhandler]
      rintro heq
      rw [heq, hout] at hhandler
      exact absurd hhandler (by simp [HandlerPc.call?])

/-- A load keeps the call, and what has run. -/
theorem Inv.load (h : s.Inv) (hc : (s.handler c).call? = some n)
    (hsignals : h'.signals = (s.handler c).signals) (hcall : h'.call? = some n)
    (hrun : h'.hasRun = (s.handler c).hasRun) (hfin : h'.hasFinished = (s.handler c).hasFinished)
    (hmatch : ∀ k : Call Cpu F D, (s.handler c).Matches k → k.cpu = c →
      ((s.handler c).signals = true → s.Stored k .spin) → h'.Matches k) :
    Inv { s with handler := Function.update s.handler c h' } := by
  obtain ⟨⟨p, k, hk, hkc, hm⟩, hposted, hran, hfinished⟩ := h.handler c n hc
  refine h.handle hc (Or.inl hcall) hsignals (fun _ => id) (fun _ hl _ => hl) (fun _ => id)
    (fun _ hl _ => hl) (fun _ => ⟨⟨p, k, hk, hkc, hmatch k hm hkc fun hs => ?_⟩, hposted, ?_, ?_⟩)
    h.ran h.counted h.finished
  · obtain ⟨p', k', -, -, hk', -, hstored⟩ := h.spinner hc hs
    obtain ⟨-, rfl⟩ : p = p' ∧ k = k' := by simpa using hk.symm.trans hk'
    exact hstored
  · rwa [hrun]
  · rwa [hfin]

/-- A function returns on its target. -/
theorem Inv.ret (h : s.Inv) {f : F} {d : D} {w : Bool}
    (hc : s.handler c = .calling n (some f) d w) :
    Inv { s with
      handler := Function.update s.handler c (.returned n w)
      ran := s.ran ++ [⟨n, c, f, d⟩] } := by
  have hcall : (s.handler c).call? = some n := by rw [hc]; rfl
  obtain ⟨⟨p, k, hk, hkc, hm⟩, hposted, hran, hfinished⟩ := h.handler c n hcall
  rw [hc] at hm hran hfinished
  obtain ⟨hf, hd, hw⟩ := hm
  have hnew : n ∉ s.ranCalls := fun hmem => Bool.false_ne_true (hran.mp hmem)
  have hcalls : (s.ran ++ [(⟨n, c, f, d⟩ : Ran Cpu F D)]).map Ran.call = s.ranCalls ++ [n] :=
    List.map_append
  refine h.handle hcall (Or.inl rfl) (by rw [hc]; rfl) ?_ ?_ (fun _ => id) (fun _ hl _ => hl)
    (fun _ => ⟨⟨p, k, hk, hkc, hw⟩, hposted, ?_, hfinished⟩) ⟨fun r hr => ?_, ?_⟩ h.counted ?_
  · rw [hcalls]
    exact List.subset_append_left ..
  · intro l hl hln
    rw [hcalls] at hl
    exact (List.mem_append.mp hl).resolve_right fun hl => hln (List.mem_singleton.mp hl)
  · rw [hcalls]
    exact iff_of_true (List.mem_append_right _ (List.mem_singleton_self n)) rfl
  · rcases List.mem_append.mp hr with hr | hr
    · exact h.ran.mem r hr
    · rw [List.mem_singleton.mp hr]
      exact ⟨p, k, hk, by rw [hkc, hd, Option.some.inj hf]⟩
  · rw [hcalls, ← List.concat_eq_append]
    exact h.ran.nodup.concat hnew
  · intro l hl
    rw [hcalls]
    exact List.mem_append_left _ (h.finished l hl)

/-- A call is finished. -/
theorem Inv.dec (h : s.Inv) {w : Bool} (hc : s.handler c = .returned n w) :
    Inv { s with
      activeCpus := s.activeCpus - 1
      handler := Function.update s.handler c (if w then .signal n else .out)
      finished := s.finished ++ [n] } := by
  have hcall : (s.handler c).call? = some n := by rw [hc]; rfl
  obtain ⟨⟨p, k, hk, hkc, hm⟩, hposted, hran, hfinished⟩ := h.handler c n hcall
  rw [hc] at hm hran hfinished
  have hmem : n ∈ s.ranCalls := hran.mpr rfl
  have hnew : n ∉ s.finished := fun hmem => Bool.false_ne_true (hfinished.mp hmem)
  refine h.handle hcall ?_ ?_ (fun _ => id) (fun _ hl _ => hl) (List.subset_append_left ..)
    (fun l hl hln => ?_) (fun hsome => ?_) h.ran ⟨h.counted.nodup, fun l hl => ?_, ?_, ?_⟩
    fun l hl => ?_
  · cases w
    · exact Or.inr ⟨rfl, hmem⟩
    · exact Or.inl rfl
  · rw [hc]
    cases w <;> rfl
  · exact (List.mem_append.mp hl).resolve_right fun hl => hln (List.mem_singleton.mp hl)
  · cases w with
    | false => exact absurd hsome (by simp [HandlerPc.call?])
    | true =>
      exact ⟨⟨p, k, hk, hkc, hm.symm⟩, hposted, iff_of_true hmem rfl,
        iff_of_true (List.mem_append_right _ (List.mem_singleton_self n)) rfl⟩
  · rcases List.mem_append.mp hl with hl | hl
    · exact h.counted.sub hl
    · exact List.mem_singleton.mp hl ▸ hposted
  · rw [← List.concat_eq_append]
    exact h.counted.finished_nodup.concat hnew
  · have hactive := h.counted.active
    rw [List.length_append, List.length_singleton]
    omega
  · rcases List.mem_append.mp hl with hl | hl
    · exact h.finished l hl
    · exact List.mem_singleton.mp hl ▸ hmem

end Handler

/-! ## Runs -/

section Run

variable {s s' : X86Smp Cpu F D}

theorem Inv.todo (h : s.Inv) (todo : Cpu → List (Op Cpu F D)) : Inv { s with todo := todo } :=
  ⟨h.lock, fun p => callerOk_caller.mpr (h.caller p), h.handler, h.busy, h.pending, h.ran,
    h.counted, h.posted, h.finished, h.progress⟩

/-- With the counter at 1 or below, no posted call of a CPU in no call is unfinished. -/
theorem Inv.all_ran (h : s.Inv) (hinited : s.inited = true) {p : Cpu}
    (hp : s.caller p = .ordinary) (hactive : s.activeCpus ≤ 1) {n : ℕ} {k : Call Cpu F D}
    (hk : s.calls[n]? = some (p, k)) : n ∈ s.ranCalls := by
  have hlen : s.posted.length ≤ s.finished.length := by
    have hcounted := h.counted.active
    rw [hinited, Bool.toNat_true] at hcounted
    omega
  have hperm := (h.counted.finished_nodup.subperm h.counted.sub).perm_of_length_le hlen
  rcases h.progress n p k hk with hran | (hhere | ⟨stage, hpost⟩) | hhandler
  · exact hran
  · exact absurd (hp.symm.trans hhere) (by simp)
  · exact absurd (hp.symm.trans hpost) (by simp)
  · exact h.finished n (hperm.mem_iff.mpr (h.handler k.cpu n hhandler).posted)

theorem Inv.step (h : s.Inv) (hstep : s.Step Idle s') : s'.Inv := by
  cases hstep with
  | onCpu => exact h.todo _
  | onCpuAsync => exact h.todo _
  | onCpus => exact h.todo _
  | load hordinary =>
    refine h.of_outside (by rw [hordinary.2]; exact id) id fun hinited hactive n k hk => ?_
    exact h.all_ran hinited hordinary.2 hactive hk
  | pause _ hp => exact h.of_outside (by rw [hp]; exact id) id trivial
  | leave _ hp => exact h.of_outside (by rw [hp]; exact id) id trivial
  | call hordinary => exact h.of_outside (by rw [hordinary.2]; exact id) id rfl
  | lock _ hp hlock => exact h.takeLock hp hlock
  | target _ hp => exact h.target hp
  | here _ hp => exact h.runHere hp
  | inc _ hp => exact h.inc hp
  | @clearDone p n k _ hp =>
    have hok := h.caller_at hp
    exact h.store hp (by simp) ⟨hok.1, hok.2.1, trivial, hok.2.2.2, rfl⟩
  | @function p n k _ hp =>
    have hok := h.caller_at hp
    exact h.store hp (by simp) ⟨hok.1, hok.2.1, rfl, hok.2.2.2⟩
  | @data p n k _ hp =>
    have hok := h.caller_at hp
    exact h.store hp (by simp) ⟨hok.1, hok.2.1, ⟨hok.2.2.1, rfl⟩, hok.2.2.2⟩
  | @wait p n k _ hp =>
    have hok := h.caller_at hp
    exact h.store hp (by simp) ⟨hok.1, hok.2.1, ⟨hok.2.2.1.1, hok.2.2.1.2, rfl⟩, hok.2.2.2⟩
  | icr _ hp => exact h.icr hp
  | spin _ hp hdone => exact h.spin hp hdone
  | unlock _ hp => exact h.unlock hp
  | smpInit hinited =>
    refine ⟨h.lock, fun p => ?_, h.handler, h.busy, h.pending, h.ran, ⟨h.counted.nodup,
      h.counted.sub, h.counted.finished_nodup, ?_⟩, h.posted, h.finished, h.progress⟩
    · have hcaller := h.caller p
      dsimp only
      cases hpc : s.caller p <;> rw [hpc] at hcaller <;> exact hcaller
    · have hactive := h.counted.active
      rw [hinited, Bool.toNat_false] at hactive
      dsimp only
      rw [Bool.toNat_true]
      omega
  | @deliver c pc hpending hout hidle hlost =>
    -- A CPU that is in no call has nothing to lose.
    rw [show s.caller c = .ordinary from hidle] at hlost
    cases hlost
    rw [← show s.caller c = .ordinary from hidle, Function.update_eq_self]
    exact h.deliver hpending hout
  | @loadFunction c n hc =>
    refine h.load (by rw [hc]; rfl) (by rw [hc]; rfl) rfl (by rw [hc]; rfl) (by rw [hc]; rfl) ?_
    intro k _ _ hstored
    exact (hstored (by rw [hc]; rfl)).1
  | @loadData c n f hc =>
    refine h.load (by rw [hc]; rfl) (by rw [hc]; rfl) rfl (by rw [hc]; rfl) (by rw [hc]; rfl) ?_
    intro k hm _ hstored
    rw [hc] at hm
    exact ⟨hm, (hstored (by rw [hc]; rfl)).2.1⟩
  | @loadWait c n f d hc =>
    refine h.load (by rw [hc]; rfl) ?_ ?_ ?_ ?_ ?_
    · split <;> (rw [hc]; rfl)
    · split <;> rfl
    · split <;> (rw [hc]; rfl)
    · split <;> (rw [hc]; rfl)
    · intro k hm _ hstored
      rw [hc] at hm
      have hwait := (hstored (by rw [hc]; rfl)).2.2
      split
      · next htrue => exact ⟨hm.1, hm.2, htrue.symm.trans hwait⟩
      · next hfalse => exact ⟨hm.1, hm.2, by rw [← hwait]; simpa using hfalse⟩
  | @ack c n f d hc =>
    have hcall : (s.handler c).call? = some n := by rw [hc]; rfl
    obtain ⟨⟨p, k, hk, hkc, hm⟩, hposted, hran, hfinished⟩ := h.handler c n hcall
    rw [hc] at hm hran hfinished
    refine h.signal hcall (by rw [hc]; rfl) rfl (Or.inl ⟨rfl, fun q l hl => ?_⟩) fun _ => ?_
    · obtain ⟨-, rfl⟩ : p = q ∧ k = l := by simpa using hk.symm.trans hl
      exact hm.2.2
    · exact ⟨⟨p, k, hk, hkc, hm.1, hm.2.1, hm.2.2.symm⟩, hposted, hran, hfinished⟩
  | ret hc => exact h.ret hc
  | dec hc => exact h.dec hc
  | @signal c n hc =>
    have hcall : (s.handler c).call? = some n := by rw [hc]; rfl
    have hran := (h.handler c n hcall).ran
    rw [hc] at hran
    exact h.signal hcall (by rw [hc]; rfl) rfl (Or.inr ⟨rfl, hran.mpr rfl⟩) nofun

theorem Run.inv {data : D} (h : Run Idle data s) : s.Inv := by
  induction h with
  | init => exact init_inv
  | step _ hstep ih => exact ih.step hstep

end Run

/-- What a caller may rely on, between any two steps. -/
structure Calls (s : X86Smp Cpu F D) : Prop where
  /-- What has run is what was called, on its target and with its data. -/
  ran : ∀ r ∈ s.ran, ∃ p k, s.calls[r.call]? = some (p, k) ∧
    r.cpu = k.cpu ∧ r.function = k.function ∧ r.data = k.data
  /-- No call has run twice. -/
  once : (s.ran.map Ran.call).Nodup
  /-- A call that has not run is with its caller, or with the handler of its target. -/
  notLost : ∀ n p k, s.calls[n]? = some (p, k) → n ∈ s.ranCalls ∨
    (s.caller p = .here n k ∨ ∃ stage, s.caller p = .posting stage n k) ∨
      (s.handler k.cpu).call? = some n
  /-- A caller that spins in vain has its IPI pending, or a handler that will answer. -/
  answered : ∀ p n k, s.caller p = .posting .spin n k → s.done = false → s.InTransit n k
  /-- When a synchronous call, or a call to the caller itself, gives the lock back, it has
  run. -/
  returns : ∀ p n k, s.caller p = .unlocking n k → (k.wait = true ∨ k.cpu = p) → n ∈ s.ranCalls
  /-- The counter counts the calls that are posted and not finished. -/
  active : s.activeCpus = s.inited.toNat + (s.posted.filter (· ∉ s.finished)).length
  /-- When `on_cpus` may return, having loaded the counter after `smp_init`, all that its caller
  called has run. -/
  all : ∀ p active, s.caller p = .waited active true → active ≤ 1 →
    ∀ n k, s.calls[n]? = some (p, k) → n ∈ s.ranCalls

section Calls

variable {s : X86Smp Cpu F D}

/-- Distinct members taken out of distinct ones. -/
theorem length_filter_notMem {l m : List ℕ} (hl : l.Nodup) (hm : m.Nodup) (hsub : m ⊆ l) :
    (l.filter (· ∉ m)).length + m.length = l.length := by
  have hperm : (l.filter (· ∈ m)).Perm m := by
    refine (List.perm_ext_iff_of_nodup (hl.filter _) hm).mpr fun a => ?_
    simpa using fun ha => hsub ha
  rw [← hperm.length_eq, add_comm]
  simpa using List.length_eq_length_filter_add (· ∈ m) |>.symm

theorem Inv.calls (h : s.Inv) : s.Calls where
  ran r hr := by
    obtain ⟨p, k, hk, heq⟩ := h.ran.mem r hr
    exact ⟨p, k, hk, by rw [heq], by rw [heq], by rw [heq]⟩
  once := h.ran.nodup
  notLost := h.progress
  answered p n k hp hdone := by
    have hcaller := h.caller p
    rw [hp] at hcaller
    exact (hcaller.2.2.2.resolve_right fun hor => by simp [hdone] at hor).2
  returns p n k hp hor := by
    have hcaller := h.caller p
    rw [hp] at hcaller
    exact hcaller.2 hor
  active := by
    have hlen := length_filter_notMem h.counted.nodup h.counted.finished_nodup h.counted.sub
    have hactive := h.counted.active
    omega
  all p active hp hactive n k hk := by
    have hcaller := h.caller p
    rw [hp] at hcaller
    exact hcaller rfl hactive n k hk

end Calls

end X86Smp

end AcrnUt
