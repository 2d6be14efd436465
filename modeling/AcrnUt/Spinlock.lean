import AcrnUt.LockSections
import Mathlib.Tactic

/-!
# Spinlocks

`lib/arm/spinlock.c`, `lib/arm64/spinlock.c` and `lib/asm-generic/spinlock.h`, one step for each
instruction that touches the lock, under sequential consistency. On ARM a CPU loads the word
exclusively until it reads 0, and then stores 1 exclusively, which succeeds only while the CPU's
monitor is set. The monitor is set by the exclusive load and cleared by every store of another CPU
to the word, and may be cleared at any time.

A CPU whose MMU is off stores 1 and does not look. With every MMU on, the word is 1 exactly while
one CPU is between its exclusive store and the store of 0 (`ArmSpin.Ok`), so sections under
`spin_lock` may be taken as single steps (`spinLock_run_atomic`). The locks exclude exactly when
every MMU is on or there is one CPU (`spinLock_exclusive_iff`).
-/

set_option linter.unusedSectionVars false

namespace AcrnUt

open Sections

variable {Cpu : Type*} [DecidableEq Cpu]

/-! ## The ARM lock -/

/-- The two ports, which differ in the store of `spin_unlock`. -/
inductive ArmPort
  | arm
  | arm64

/-- The store of `spin_unlock` with the MMU on. On arm64 it is `stlrh`, of half a word. -/
def ArmPort.unlockStore : ArmPort → BitVec 32 → BitVec 32
  | .arm, _ => 0
  | .arm64, v => v &&& 0xffff0000

/-- Where a CPU is : in neither function, before `ldrex`, past it with the value, before `strex`,
past it with `fail`, before the barrier of `spin_lock`, past `spin_lock`, or past the barrier of
`spin_unlock`. -/
inductive SpinPc
  | out
  | ldrex
  | loaded (val : BitVec 32)
  | strex
  | stored (fail : Bool)
  | barrier
  | held
  | unlocking

/-- The CPU is between its exclusive store and the store of 0. -/
def SpinPc.Owner : SpinPc → Prop
  | .stored false => True
  | .barrier => True
  | .held => True
  | .unlocking => True
  | _ => False

/-- The CPU has returned from `spin_lock` and has not stored 0. -/
def SpinPc.Returned : SpinPc → Prop
  | .held => True
  | .unlocking => True
  | _ => False

/-- The CPU is in `spin_lock`. -/
def SpinPc.Locking : SpinPc → Prop
  | .ldrex => True
  | .loaded _ => True
  | .strex => True
  | .stored _ => True
  | .barrier => True
  | _ => False

theorem SpinPc.Returned.owner : ∀ {c : SpinPc}, c.Returned → c.Owner
  | .held, _ => trivial
  | .unlocking, _ => trivial

/-- The lock with the CPUs' exclusive monitors, and where the CPUs are. -/
structure ArmSpin (Cpu : Type*) where
  v : BitVec 32
  monitor : Cpu → Bool
  pc : Cpu → SpinPc

namespace ArmSpin

/-- The lock before it is used. -/
def init : ArmSpin Cpu :=
  ⟨0, fun _ => false, fun _ => .out⟩

/-- A plain store of CPU `p` : it clears the monitors of the others. -/
def store (w : ArmSpin Cpu) (p : Cpu) (x : BitVec 32) : ArmSpin Cpu :=
  { w with v := x, monitor := fun q => if q = p then w.monitor q else false }

/-- CPU `p` goes on. -/
def goto (w : ArmSpin Cpu) (p : Cpu) (c : SpinPc) : ArmSpin Cpu :=
  { w with pc := Function.update w.pc p c }

/-- One step of CPU `p` in `spin_lock` or `spin_unlock`. -/
inductive Step (port : ArmPort) (mmu : Cpu → Bool) (p : Cpu) (w : ArmSpin Cpu) :
    Label → ArmSpin Cpu → Prop
  | enter : w.pc p = .out → mmu p = true → Step port mmu p w .internal (w.goto p .ldrex)
  | enterOff : w.pc p = .out → mmu p = false →
      Step port mmu p w .internal ((w.store p 1).goto p .barrier)
  | ldrex : w.pc p = .ldrex →
      Step port mmu p w .internal
        ({ w with monitor := Function.update w.monitor p true }.goto p (.loaded w.v))
  | bne {val : BitVec 32} : w.pc p = .loaded val → val ≠ 0 →
      Step port mmu p w .internal (w.goto p .ldrex)
  | free {val : BitVec 32} : w.pc p = .loaded val → val = 0 →
      Step port mmu p w .internal (w.goto p .strex)
  | strex : w.pc p = .strex → w.monitor p = true →
      Step port mmu p w .internal
        ({ w with v := 1, monitor := fun _ => false }.goto p (.stored false))
  | strexFail : w.pc p = .strex →
      Step port mmu p w .internal
        ({ w with monitor := Function.update w.monitor p false }.goto p (.stored true))
  | retry : w.pc p = .stored true → Step port mmu p w .internal (w.goto p .ldrex)
  | leave : w.pc p = .stored false → Step port mmu p w .internal (w.goto p .barrier)
  | barrier : w.pc p = .barrier → Step port mmu p w .acquired (w.goto p .held)
  | unlock : w.pc p = .held → Step port mmu p w .internal (w.goto p .unlocking)
  | unlockStore : w.pc p = .unlocking →
      Step port mmu p w .released
        ((w.store p (if mmu p then port.unlockStore w.v else 0)).goto p .out)
  | lose : Step port mmu p w .internal { w with monitor := Function.update w.monitor p false }

end ArmSpin

/-- `spin_lock` and `spin_unlock` on ARM. -/
def spinLock (port : ArmPort) (mmu : Cpu → Bool) : Lock Cpu (ArmSpin Cpu) :=
  ⟨fun p lab w w' => ArmSpin.Step port mmu p w lab w'⟩

namespace ArmSpin

/-- While its monitor is set, a CPU that is past `ldrex` knows the word. -/
def Knows (v : BitVec 32) : SpinPc → Prop
  | .loaded val => v = val
  | .strex => v = 0
  | _ => True

/-- The word says whether a CPU owns the lock, and the monitors watch it. -/
structure Ok (w : ArmSpin Cpu) : Prop where
  word : w.v = 0 ∧ (∀ p, ¬ (w.pc p).Owner) ∨
    w.v = 1 ∧ ∃ p, ∀ q, (w.pc q).Owner ↔ q = p
  watch : ∀ p, w.monitor p = true → Knows w.v (w.pc p)

/-- The CPU has the lock. -/
def Holds (w : ArmSpin Cpu) (p : Cpu) : Prop :=
  (w.pc p).Returned

section Invariant

variable {w : ArmSpin Cpu} {p : Cpu} {c : SpinPc}

@[simp] theorem goto_v : (w.goto p c).v = w.v := rfl

@[simp] theorem goto_monitor : (w.goto p c).monitor = w.monitor := rfl

@[simp] theorem goto_pc : (w.goto p c).pc = Function.update w.pc p c := rfl

theorem ok_init : Ok (init : ArmSpin Cpu) :=
  ⟨Or.inl ⟨rfl, fun _ h => h⟩, fun _ h => nomatch h⟩

/-- A property of where the CPUs are that `p` keeps is kept by all. -/
theorem update_pc_iff (Q : SpinPc → Prop) (h : Q c ↔ Q (w.pc p)) (q : Cpu) :
    Q (Function.update w.pc p c q) ↔ Q (w.pc q) := by
  rcases eq_or_ne q p with rfl | hne
  · simpa using h
  · simp [hne]

/-- The owner stays the owner while `p` goes on within its part of the code. -/
theorem Ok.word_goto (h : w.Ok) (hc : SpinPc.Owner c ↔ SpinPc.Owner (w.pc p)) :
    w.v = 0 ∧ (∀ q, ¬ SpinPc.Owner (Function.update w.pc p c q)) ∨
      w.v = 1 ∧ ∃ o, ∀ q, SpinPc.Owner (Function.update w.pc p c q) ↔ q = o := by
  have hiff := update_pc_iff SpinPc.Owner hc
  rcases h.word with ⟨hv, hno⟩ | ⟨hv, o, ho⟩
  · exact Or.inl ⟨hv, fun q hq => hno q ((hiff q).mp hq)⟩
  · exact Or.inr ⟨hv, o, fun q => (hiff q).trans (ho q)⟩

/-- A step that leaves the word alone keeps the invariant if `p` stays an owner or none, and
knows the word afterwards if its monitor is set. -/
theorem Ok.goto (h : w.Ok) {m : Cpu → Bool} (hm : ∀ q, q ≠ p → m q = true → w.monitor q = true)
    (hc : SpinPc.Owner c ↔ SpinPc.Owner (w.pc p)) (hk : m p = true → Knows w.v c) :
    Ok ({ w with monitor := m }.goto p c) := by
  refine ⟨h.word_goto hc, fun q hq => ?_⟩
  rcases eq_or_ne q p with rfl | hne
  · simpa using hk hq
  · simpa [hne] using h.watch q (hm q hne hq)

/-- If one CPU owns the lock, the others are not between `spin_lock` and the store of 0. -/
theorem Ok.returned_eq (h : w.Ok) {q : Cpu} (hp : SpinPc.Owner (w.pc p))
    (hq : SpinPc.Owner (w.pc q)) : q = p := by
  rcases h.word with ⟨-, hno⟩ | ⟨-, o, ho⟩
  · exact absurd hp (hno p)
  · rw [(ho q).mp hq, (ho p).mp hp]

/-- The store of 0 frees the lock on both ports. -/
theorem Ok.unlockStore_eq (h : w.Ok) (port : ArmPort) (b : Bool) :
    (if b then port.unlockStore w.v else 0) = 0 := by
  have hv : w.v = 0 ∨ w.v = 1 := h.word.imp And.left And.left
  cases b with
  | false => rfl
  | true =>
    cases port with
    | arm => rfl
    | arm64 => rcases hv with hv | hv <;> rw [hv] <;> rfl

end Invariant

/-- A step that changes neither the word nor who owns the lock. -/
theorem Ok.internal_goto {w : ArmSpin Cpu} {p : Cpu} {c : SpinPc} (h : w.Ok) {m : Cpu → Bool}
    (ho : c.Owner ↔ (w.pc p).Owner) (hr : c.Returned ↔ (w.pc p).Returned)
    (hm : ∀ q, q ≠ p → m q = true → w.monitor q = true) (hk : m p = true → Knows w.v c) :
    Ok ({ w with monitor := m }.goto p c) ∧
      ∀ u, Holds ({ w with monitor := m }.goto p c) u ↔ Holds w u :=
  ⟨h.goto hm ho hk, update_pc_iff SpinPc.Returned hr⟩

/-- An exclusive store that succeeds finds the lock free and takes it. -/
theorem Ok.strex {w : ArmSpin Cpu} {p : Cpu} (h : w.Ok) (hpc : w.pc p = .strex)
    (hm : w.monitor p = true) :
    Ok ({ w with v := 1, monitor := fun _ => false }.goto p (.stored false)) := by
  have hv : w.v = 0 := by simpa [hpc, Knows] using h.watch p hm
  have hfree : ∀ q, ¬ (w.pc q).Owner := by
    rcases h.word with ⟨-, hno⟩ | ⟨hv', -⟩
    · exact hno
    · rw [hv] at hv'
      exact absurd hv' (by decide)
  refine ⟨Or.inr ⟨rfl, p, fun q => ?_⟩, fun q hq => nomatch hq⟩
  rcases eq_or_ne q p with rfl | hne
  · simp [SpinPc.Owner]
  · simpa [hne] using hfree q

/-- The store of 0 frees it. -/
theorem Ok.release {w : ArmSpin Cpu} {p : Cpu} (h : w.Ok) (hpc : w.pc p = .unlocking) :
    Ok ((w.store p 0).goto p .out) ∧ ∀ q, ¬ Holds ((w.store p 0).goto p .out) q := by
  have hp : (w.pc p).Owner := by rw [hpc]; trivial
  have hno : ∀ q, ¬ (Function.update w.pc p .out q).Owner := by
    intro q
    rcases eq_or_ne q p with rfl | hne
    · simp [SpinPc.Owner]
    · simpa [hne] using fun hq => hne (h.returned_eq hp hq)
  refine ⟨⟨Or.inl ⟨rfl, hno⟩, fun q hq => ?_⟩, fun q hq => hno q hq.owner⟩
  rcases eq_or_ne q p with rfl | hne
  · simp [Knows]
  · simp [store, hne] at hq

/-- With every MMU on, the lock excludes. -/
def excludes (port : ArmPort) {mmu : Cpu → Bool} (hmmu : ∀ p, mmu p = true) :
    Excludes (spinLock port mmu) (init : ArmSpin Cpu) where
  Ok := Ok
  Holds := Holds
  start := ⟨ok_init, fun _ h => h⟩
  internal {p w w'} h hs := by
    cases hs with
    | enter hpc _ =>
      exact h.internal_goto (by simp [hpc, SpinPc.Owner]) (by simp [hpc, SpinPc.Returned])
        (fun _ _ hq => hq) fun _ => trivial
    | enterOff _ hoff => rw [hmmu p] at hoff; exact nomatch hoff
    | ldrex hpc =>
      refine h.internal_goto (by simp [hpc, SpinPc.Owner]) (by simp [hpc, SpinPc.Returned])
        (fun q hne hq => ?_) fun _ => rfl
      simpa [hne] using hq
    | bne hpc _ =>
      exact h.internal_goto (by simp [hpc, SpinPc.Owner]) (by simp [hpc, SpinPc.Returned])
        (fun _ _ hq => hq) fun _ => trivial
    | free hpc hval =>
      refine h.internal_goto (by simp [hpc, SpinPc.Owner]) (by simp [hpc, SpinPc.Returned])
        (fun _ _ hq => hq) fun hm => ?_
      have hv := h.watch p hm
      rwa [hpc, Knows, hval] at hv
    | strex hpc hm =>
      exact ⟨h.strex hpc hm, update_pc_iff SpinPc.Returned (by simp [hpc, SpinPc.Returned])⟩
    | strexFail hpc =>
      refine h.internal_goto (by simp [hpc, SpinPc.Owner]) (by simp [hpc, SpinPc.Returned])
        (fun q hne hq => ?_) fun _ => trivial
      simpa [hne] using hq
    | retry hpc =>
      exact h.internal_goto (by simp [hpc, SpinPc.Owner]) (by simp [hpc, SpinPc.Returned])
        (fun _ _ hq => hq) fun _ => trivial
    | leave hpc =>
      exact h.internal_goto (by simp [hpc, SpinPc.Owner]) (by simp [hpc, SpinPc.Returned])
        (fun _ _ hq => hq) fun _ => trivial
    | unlock hpc =>
      exact h.internal_goto (by simp [hpc, SpinPc.Owner]) (by simp [hpc, SpinPc.Returned])
        (fun _ _ hq => hq) fun _ => trivial
    | lose =>
      refine ⟨⟨h.word, fun q hq => ?_⟩, fun _ => Iff.rfl⟩
      rcases eq_or_ne q p with rfl | hne
      · simp at hq
      · exact h.watch q (by simpa [hne] using hq)
  acquired {p w w'} h hs := by
    cases hs with
    | barrier hpc =>
      have hp : (w.pc p).Owner := by rw [hpc]; trivial
      have hok : Ok (w.goto p .held) :=
        h.goto (fun _ _ hq => hq) (by simp [hpc, SpinPc.Owner]) fun _ => trivial
      have hnone : ∀ q, ¬ Holds w q := by
        intro q hq
        obtain rfl := h.returned_eq hp hq.owner
        rw [Holds, hpc] at hq
        exact hq
      refine ⟨hok, hnone, fun q => ?_⟩
      rcases eq_or_ne q p with rfl | hne
      · simp [Holds, SpinPc.Returned]
      · simpa [Holds, hne] using hnone q
  released {p w w'} h _ hs := by
    cases hs with
    | unlockStore hpc =>
      rw [h.unlockStore_eq]
      exact h.release hpc

/-! ### Progress -/

/-- CPU `p` makes steps inside `spin_lock` or `spin_unlock`. -/
def Alone (port : ArmPort) (mmu : Cpu → Bool) (p : Cpu) : ArmSpin Cpu → ArmSpin Cpu → Prop :=
  Relation.ReflTransGen fun w w' => Step port mmu p w .internal w'

section Alone

variable {port : ArmPort} {mmu : Cpu → Bool} {w : ArmSpin Cpu} {p : Cpu}

/-- At the barrier, with nothing else changed. -/
def Arrives (port : ArmPort) (mmu : Cpu → Bool) (p : Cpu) (w : ArmSpin Cpu) : Prop :=
  ∃ w', Alone port mmu p w w' ∧ w'.pc p = .barrier ∧ ∀ q, q ≠ p → w'.pc q = w.pc q

/-- A step on the way. -/
theorem Arrives.head {w' : ArmSpin Cpu} (hs : Step port mmu p w .internal w')
    (hpc : ∀ q, q ≠ p → w'.pc q = w.pc q) (h : Arrives port mmu p w') : Arrives port mmu p w := by
  obtain ⟨w'', hrun, hb, hother⟩ := h
  exact ⟨w'', .head hs hrun, hb, fun q hq => (hother q hq).trans (hpc q hq)⟩

theorem goto_other {c : SpinPc} : ∀ q, q ≠ p → (w.goto p c).pc q = w.pc q :=
  fun _ hq => Function.update_of_ne hq _ _

theorem arrives_of_stored (hpc : w.pc p = .stored false) : Arrives port mmu p w :=
  ⟨w.goto p .barrier, .single (.leave hpc), by simp, goto_other⟩

/-- A free lock that no other CPU touches is taken in one pass of the loop. -/
theorem arrives_of_ldrex (hv : w.v = 0) (hpc : w.pc p = .ldrex) : Arrives port mmu p w := by
  refine .head (.ldrex hpc) goto_other ?_
  refine .head (.free (Function.update_self ..) hv) goto_other ?_
  refine .head (.strex (Function.update_self ..) (Function.update_self ..)) goto_other ?_
  exact arrives_of_stored (Function.update_self ..)

/-- An attempt that the monitor fails is made again. -/
theorem arrives_of_strex (hv : w.v = 0) (hpc : w.pc p = .strex) : Arrives port mmu p w := by
  refine .head (.strexFail hpc) goto_other ?_
  refine .head (.retry (Function.update_self ..)) goto_other ?_
  exact arrives_of_ldrex hv (Function.update_self ..)

/-- Wherever a CPU is in `spin_lock`, it takes a free lock if it runs alone. -/
theorem arrives_of_free (hv : w.v = 0) (hpc : (w.pc p).Locking ∨ w.pc p = .out) :
    Arrives port mmu p w := by
  cases hc : w.pc p with
  | out =>
    cases hm : mmu p with
    | true => exact .head (.enter hc hm) goto_other (arrives_of_ldrex hv (Function.update_self ..))
    | false =>
      exact ⟨_, .single (.enterOff hc hm), Function.update_self .., goto_other⟩
  | ldrex => exact arrives_of_ldrex hv hc
  | loaded val =>
    by_cases hval : val = 0
    · exact .head (.free hc hval) goto_other (arrives_of_strex hv (Function.update_self ..))
    · exact .head (.bne hc hval) goto_other (arrives_of_ldrex hv (Function.update_self ..))
  | strex => exact arrives_of_strex hv hc
  | stored fail =>
    cases fail with
    | false => exact arrives_of_stored hc
    | true => exact .head (.retry hc) goto_other (arrives_of_ldrex hv (Function.update_self ..))
  | barrier => exact ⟨w, .refl, hc, fun _ _ => rfl⟩
  | held => simp [hc, SpinPc.Locking] at hpc
  | unlocking => simp [hc, SpinPc.Locking] at hpc

end Alone

/-- The CPUs before any has used the lock. -/
def start {S L : Type*} (shared : S) (thread : Cpu → L) : Sections Cpu S L (ArmSpin Cpu) :=
  ⟨init, shared, thread⟩

/-- A CPU that can get to the barrier can go on into its section. -/
theorem Arrives.run {S L : Type*} {P : Program Cpu S L} {port : ArmPort} {mmu : Cpu → Bool}
    {s : Sections Cpu S L (ArmSpin Cpu)} {p : Cpu} {l : L} (h : Arrives port mmu p s.lock)
    (hn : P.next p (s.thread p) = .acquire l) :
    ∃ s', RunAlone P (spinLock port mmu) p s s' ∧ s'.shared = s.shared ∧
      s'.thread = Function.update s.thread p l ∧ s'.lock.pc p = .held ∧
        ∀ q, q ≠ p → s'.lock.pc q = s.lock.pc q := by
  obtain ⟨w, hrun, hb, hother⟩ := h
  have hrun' : RunAlone P (spinLock port mmu) p s { s with lock := w } := .acquiring hn hrun
  refine ⟨{ s with lock := w.goto p .held, thread := Function.update s.thread p l },
    hrun'.tail (.acquired hn (.barrier hb)), rfl, rfl, Function.update_self .., fun q hq => ?_⟩
  exact (goto_other q hq).trans (hother q hq)

/-- A CPU is in `spin_lock` only where its program calls it. -/
def Called {S L : Type*} (P : Program Cpu S L) (s : Sections Cpu S L (ArmSpin Cpu)) : Prop :=
  ∀ p, (s.lock.pc p).Locking → ∃ l, P.next p (s.thread p) = .acquire l

section Called

variable {S L : Type*} {P : Program Cpu S L} {port : ArmPort} {mmu : Cpu → Bool}
  {s s' : Sections Cpu S L (ArmSpin Cpu)} {shared : S} {thread : Cpu → L}

/-- A step in the lock's code moves no other CPU. -/
theorem Step.pc_of_ne {w w' : ArmSpin Cpu} {p q : Cpu} {lab : Label}
    (h : Step port mmu p w lab w') (hne : q ≠ p) : w'.pc q = w.pc q := by
  cases h <;> simp [store, hne]

/-- It stays in `spin_lock` or outside, up to the return. -/
theorem Step.locking_of_internal {w w' : ArmSpin Cpu} {p : Cpu}
    (h : Step port mmu p w .internal w') (hl : (w'.pc p).Locking) :
    (w.pc p).Locking ∨ w.pc p = .out := by
  cases h <;> simp_all [SpinPc.Locking, store]

theorem Step.locking_of_last {w w' : ArmSpin Cpu} {p : Cpu} {lab : Label}
    (h : Step port mmu p w lab w') (hlab : lab ≠ .internal) : ¬ (w'.pc p).Locking := by
  cases h <;> simp_all [SpinPc.Locking, store]

/-- The CPUs that are inside a section are those that have returned from `spin_lock`. -/
theorem returned_iff (hmmu : ∀ p, mmu p = true) (hquiet : ∀ p, ¬ P.Inside p (thread p))
    (h : Run P (spinLock port mmu) (start shared thread) s) :
    Ok s.lock ∧ ∀ p, (s.lock.pc p).Returned ↔ P.Inside p (s.thread p) := by
  have hq : Quiet P (start shared thread) := hquiet
  obtain ⟨a, -, hsim⟩ := run_atomic (excludes port hmmu) hq h
  exact ⟨hsim.ok, hsim.holds⟩

/-- One step keeps it. -/
theorem Called.step (hret : ∀ p, P.Inside p (s.thread p) → (s.lock.pc p).Returned) {t : Cpu}
    (hs : Sections.Step P (spinLock port mmu) t s s') (hc : Called P s) : Called P s' := by
  intro q hq
  cases hs with
  | own hn =>
    rcases eq_or_ne q t with rfl | hne
    · obtain ⟨l', hl'⟩ := hc q hq
      rw [hn] at hl'
      exact nomatch hl'
    · simpa [hne] using hc q hq
  | @acquiring l w hn hk =>
    rcases eq_or_ne q t with rfl | hne
    · exact ⟨l, hn⟩
    · rw [hk.pc_of_ne hne] at hq
      exact hc q hq
  | acquired hn hk =>
    rcases eq_or_ne q t with rfl | hne
    · exact absurd hq (hk.locking_of_last nofun)
    · rw [hk.pc_of_ne hne] at hq
      simpa [hne] using hc q hq
  | access hn =>
    rcases eq_or_ne q t with rfl | hne
    · obtain ⟨l', hl'⟩ := hc q hq
      rw [hn] at hl'
      exact nomatch hl'
    · simpa [hne] using hc q hq
  | releasing hn hk =>
    rcases eq_or_ne q t with rfl | hne
    · have hq' := hret q (P.release hn).1
      rcases hk.locking_of_internal hq with hl | hout
      · obtain ⟨l', hl'⟩ := hc q hl
        rw [hn] at hl'
        exact nomatch hl'
      · rw [hout] at hq'
        exact hq'.elim
    · rw [hk.pc_of_ne hne] at hq
      exact hc q hq
  | released hn hk =>
    rcases eq_or_ne q t with rfl | hne
    · exact absurd hq (hk.locking_of_last nofun)
    · rw [hk.pc_of_ne hne] at hq
      simpa [hne] using hc q hq

theorem called_of_run (hmmu : ∀ p, mmu p = true) (hquiet : ∀ p, ¬ P.Inside p (thread p))
    (h : Run P (spinLock port mmu) (start shared thread) s) : Called P s := by
  induction h with
  | refl => exact fun p hp => hp.elim
  | tail hrun hstep ih =>
    obtain ⟨t, hstep⟩ := hstep
    exact ih.step (fun p hp => ((returned_iff hmmu hquiet hrun).2 p).mpr hp) hstep

end Called

end ArmSpin

/-! ## The test-and-set lock -/

/-- The word of the lock, and the CPUs that have taken it and not given it back. -/
structure TasLock (Cpu : Type*) where
  v : BitVec 32
  held : Cpu → Bool

namespace TasLock

/-- The lock before it is used. -/
def init : TasLock Cpu :=
  ⟨0, fun _ => false⟩

/-- One step of CPU `p` : a `__sync_lock_test_and_set` that returns another value than 0, or 0,
and `__sync_lock_release`. -/
inductive Step (p : Cpu) (w : TasLock Cpu) : Label → TasLock Cpu → Prop
  | busy : w.v ≠ 0 → Step p w .internal { w with v := 1 }
  | taken : w.v = 0 → Step p w .acquired ⟨1, Function.update w.held p true⟩
  | release : Step p w .released ⟨0, Function.update w.held p false⟩

end TasLock

/-- `spin_lock` and `spin_unlock` of `lib/asm-generic/spinlock.h`. -/
def genericSpinLock : Lock Cpu (TasLock Cpu) :=
  ⟨fun p lab w w' => TasLock.Step p w lab w'⟩

/-- The word is 0 if no CPU has the lock, and 1 if one has it. -/
def TasLock.Ok (w : TasLock Cpu) : Prop :=
  w.v = 0 ∧ (∀ p, w.held p = false) ∨ w.v = 1 ∧ ∃ p, ∀ q, w.held q = true ↔ q = p

/-- The lock excludes. -/
def TasLock.excludes : Excludes genericSpinLock (TasLock.init : TasLock Cpu) where
  Ok := TasLock.Ok
  Holds w p := w.held p = true
  start := ⟨Or.inl ⟨rfl, fun _ => rfl⟩, fun _ => Bool.false_ne_true⟩
  internal {p w w'} h hs := by
    cases hs with
    | busy hv =>
      refine ⟨?_, fun _ => Iff.rfl⟩
      rcases h with ⟨hv', -⟩ | ⟨-, ho⟩
      · exact absurd hv' hv
      · exact Or.inr ⟨rfl, ho⟩
  acquired {p w w'} h hs := by
    cases hs with
    | taken hv =>
      have hno : ∀ q, w.held q = false := by
        rcases h with ⟨-, hno⟩ | ⟨hv', -⟩
        · exact hno
        · rw [hv] at hv'
          exact absurd hv' (by decide)
      have hheld : ∀ q, Function.update w.held p true q = true ↔ q = p := by
        intro q
        rcases eq_or_ne q p with rfl | hne
        · simp
        · simp [hne, hno q]
      exact ⟨Or.inr ⟨rfl, p, hheld⟩, fun q => by simp [hno q], hheld⟩
  released {p w w'} h hp hs := by
    cases hs with
    | release =>
      have hno : ∀ q, Function.update w.held p false q = false := by
        intro q
        rcases eq_or_ne q p with rfl | hne
        · simp
        · rw [Function.update_of_ne hne]
          rcases h with ⟨-, hno⟩ | ⟨-, o, ho⟩
          · exact hno q
          · rw [Bool.eq_false_iff]
            exact fun hq => hne (((ho q).mp hq).trans ((ho p).mp hp).symm)
      exact ⟨Or.inl ⟨rfl, hno⟩, fun q => by simp [hno q]⟩

/-! ## What the lock gives -/

section SpinLock

variable {S L : Type*} {P : Program Cpu S L} {port : ArmPort} {mmu : Cpu → Bool}
  {s : Sections Cpu S L (ArmSpin Cpu)} {shared : S} {thread : Cpu → L}

/-- With every MMU on, any interleaving of CPUs that guard what they share with `spin_lock` is a
run of whole sections. A CPU outside its sections is where it is in that run. The one that is
inside one has, from the last shared state of that run, made some of its section's steps. While
there is none, the shared state is that of the run. -/
theorem spinLock_run_atomic (hmmu : ∀ p, mmu p = true) (hquiet : ∀ p, ¬ P.Inside p (thread p))
    (h : Run P (spinLock port mmu) (ArmSpin.start shared thread) s) :
    ∃ a, AtomicRun P (shared, thread) a ∧
      (∀ p q, P.Inside p (s.thread p) → P.Inside q (s.thread q) → p = q) ∧
      (∀ p, ¬ P.Inside p (s.thread p) → a.2 p = s.thread p) ∧
      (∀ p, P.Inside p (s.thread p) → ∃ l, P.next p (a.2 p) = .acquire l ∧
        Relation.ReflTransGen (Within P p) (a.1, l) (s.shared, s.thread p)) ∧
      (Quiet P s → a.1 = s.shared) := by
  have hq : Quiet P (ArmSpin.start shared thread) := hquiet
  obtain ⟨a, hrun, hsim⟩ := run_atomic (ArmSpin.excludes port hmmu) hq h
  exact ⟨a, hrun, hsim.alone, hsim.outside, hsim.inside, hsim.quiet⟩

/-- Whenever a CPU waits for the lock and none is inside a section, one of those that wait can go
on into its section by steps of its own, and these leave the other CPUs where they are. -/
theorem spinLock_progress (hmmu : ∀ p, mmu p = true) (hquiet : ∀ p, ¬ P.Inside p (thread p))
    (h : Run P (spinLock port mmu) (ArmSpin.start shared thread) s) (hs : Quiet P s) {p : Cpu}
    {l : L} (hp : P.next p (s.thread p) = .acquire l) :
    ∃ q l' s', P.next q (s.thread q) = .acquire l' ∧ RunAlone P (spinLock port mmu) q s s' ∧
      s'.shared = s.shared ∧ s'.thread = Function.update s.thread q l' ∧
        ∀ r, r ≠ q → s'.lock.pc r = s.lock.pc r := by
  obtain ⟨hok, hret⟩ := ArmSpin.returned_iff hmmu hquiet h
  have hcalled := ArmSpin.called_of_run hmmu hquiet h
  have hnone : ∀ q, ¬ (s.lock.pc q).Returned := fun q hq => hs q ((hret q).mp hq)
  -- The CPU that goes on is the owner, or `p` if there is none.
  have hgo : ∃ q l', P.next q (s.thread q) = .acquire l' ∧
      ArmSpin.Arrives port mmu q s.lock := by
    rcases hok.word with ⟨hv, hno⟩ | ⟨-, o, ho⟩
    · refine ⟨p, l, hp, ArmSpin.arrives_of_free hv ?_⟩
      have hnp := hnone p
      cases hc : s.lock.pc p with
      | out => exact Or.inr rfl
      | held => rw [hc] at hnp; exact absurd trivial hnp
      | unlocking => rw [hc] at hnp; exact absurd trivial hnp
      | _ => exact Or.inl trivial
    · have hown := (ho o).mpr rfl
      have hno := hnone o
      cases hc : s.lock.pc o with
      | stored fail =>
        obtain ⟨l', hl'⟩ := hcalled o (by rw [hc]; trivial)
        cases fail with
        | false => exact ⟨o, l', hl', ArmSpin.arrives_of_stored hc⟩
        | true => rw [hc] at hown; exact hown.elim
      | barrier =>
        obtain ⟨l', hl'⟩ := hcalled o (by rw [hc]; trivial)
        exact ⟨o, l', hl', s.lock, .refl, hc, fun _ _ => rfl⟩
      | held => rw [hc] at hno; exact absurd trivial hno
      | unlocking => rw [hc] at hno; exact absurd trivial hno
      | _ => rw [hc] at hown; exact hown.elim
  obtain ⟨q, l', hq, harr⟩ := hgo
  obtain ⟨s', hrun, hsh, hth, -, hpc⟩ := harr.run hq
  exact ⟨q, l', s', hq, hrun, hsh, hth, hpc⟩

/-- CPUs that take the lock and give it back, over and over. -/
def lockLoop : Program Cpu Unit Bool where
  next _ l := if l then .release false else .acquire true
  Inside _ l := l = true
  own {t l l'} h := by cases l <;> exact nomatch h
  acquire {t l l'} h := by cases l <;> cases h; simp
  access {t l f} h := by cases l <;> exact nomatch h
  release {t l l'} h := by cases l <;> cases h; simp

/-- Where a CPU is that increments a counter under the lock : outside, before the load, before the
store, or before the release. -/
inductive CountPc
  | out
  | load
  | store (reg : ℕ)
  | leave

/-- CPUs that increment a counter under the lock, over and over. -/
def countLoop : Program Cpu ℕ CountPc where
  next _ l :=
    match l with
    | .out => .acquire .load
    | .load => .access fun n => (n, .store n)
    | .store reg => .access fun _ => (reg + 1, .leave)
    | .leave => .release .out
  Inside _ l := l ≠ .out
  own {t l l'} h := by cases l <;> exact nomatch h
  acquire {t l l'} h := by cases l <;> cases h; simp
  access {t l f} h := by cases l <;> cases h <;> simp
  release {t l l'} h := by cases l <;> cases h; simp

/-- A CPU before the release gives the lock back. -/
theorem countLoop_leave (mmu : Cpu → Bool) {s : Sections Cpu ℕ CountPc (ArmSpin Cpu)} {p : Cpu}
    (hl : s.thread p = .leave) (hpc : s.lock.pc p = .held) :
    ∃ s', Run countLoop (spinLock .arm mmu) s s' ∧ s'.shared = s.shared ∧
      s'.thread = Function.update s.thread p .out ∧ s'.lock.v = 0 ∧
        ∀ q, q ≠ p → s'.lock.pc q = s.lock.pc q := by
  have hn : countLoop.next p (s.thread p) = .release .out := by
    rw [hl]
    rfl
  have h₁ : RunAlone countLoop (spinLock .arm mmu) p s
      { s with lock := s.lock.goto p .unlocking } :=
    .single (.releasing hn (.unlock hpc))
  refine ⟨_, RunAlone.run (h₁.tail (.released hn (.unlockStore (Function.update_self ..)))), rfl,
    rfl, ?_, fun q hq => ?_⟩
  · cases mmu p <;> simp [ArmSpin.store, ArmPort.unlockStore]
  · simp [ArmSpin.store, hq]

/-- A CPU that finds the lock free takes it, and loads the counter. -/
theorem countLoop_load (port : ArmPort) (mmu : Cpu → Bool)
    {s : Sections Cpu ℕ CountPc (ArmSpin Cpu)} {p : Cpu} (hl : s.thread p = .out)
    (hv : s.lock.v = 0) (hpc : s.lock.pc p = .out) :
    ∃ s', Run countLoop (spinLock port mmu) s s' ∧ s'.shared = s.shared ∧
      s'.thread = Function.update s.thread p (.store s.shared) ∧ s'.lock.pc p = .held ∧
        ∀ q, q ≠ p → s'.lock.pc q = s.lock.pc q := by
  have harr : ArmSpin.Arrives port mmu p s.lock := ArmSpin.arrives_of_free hv (Or.inr hpc)
  have hn : countLoop.next p (s.thread p) = .acquire .load := by
    rw [hl]
    rfl
  obtain ⟨s', hrun, hsh, hth, hheld, hother⟩ := harr.run hn
  have hn' : countLoop.next p (s'.thread p) = .access fun n => (n, .store n) := by
    rw [hth, Function.update_self]
    rfl
  refine ⟨_, RunAlone.run (hrun.tail (.access hn')), hsh, ?_, hheld, hother⟩
  simp only [hth, hsh, Function.update_idem]

/-- Two CPUs that count : one has been through its section, and the other has loaded the 1 that the
first has stored. -/
theorem spinLock_run_atomic_two : ∃ s a,
    Run countLoop (spinLock .arm fun _ => true)
      (ArmSpin.start 0 fun _ => .out : Sections Bool ℕ CountPc (ArmSpin Bool)) s ∧
    s.shared = 1 ∧ s.thread true = .store 1 ∧ AtomicRun countLoop (0, fun _ => .out) a ∧
      a.2 false = .out ∧ ∃ l, countLoop.next true (a.2 true) = .acquire l ∧
        Relation.ReflTransGen (Within countLoop true) (a.1, l) (s.shared, s.thread true) := by
  let s₀ : Sections Bool ℕ CountPc (ArmSpin Bool) := ArmSpin.start 0 fun _ => .out
  obtain ⟨s₁, hrun₁, hsh₁, hth₁, hheld₁, hpc₁⟩ := countLoop_load .arm (fun _ => true)
    (s := s₀) (p := false) rfl rfl rfl
  have hn : countLoop.next false (s₁.thread false) = .access fun _ => (0 + 1, .leave) := by
    rw [hth₁, Function.update_self]
    rfl
  have hrun₂ := (Sections.Step.access (k := spinLock .arm fun _ => true) hn).run
  obtain ⟨s₃, hrun₃, hsh₃, hth₃, hv₃, hpc₃⟩ := countLoop_leave (fun _ => true)
    (s := { s₁ with shared := 0 + 1, thread := Function.update s₁.thread false .leave })
    (p := false) (Function.update_self false CountPc.leave s₁.thread) hheld₁
  have hout : s₃.lock.pc true = .out := (hpc₃ true nofun).trans (hpc₁ true nofun)
  have hth : s₃.thread = fun _ => .out := by
    rw [hth₃, hth₁]
    funext b
    cases b <;> rfl
  obtain ⟨s₄, hrun₄, hsh₄, hth₄, -, -⟩ := countLoop_load .arm (fun _ => true) (s := s₃)
    (p := true) (by rw [hth]) hv₃ hout
  have hrun := hrun₁.trans (hrun₂.trans (hrun₃.trans hrun₄))
  obtain ⟨a, ha, -, houtside, hinside, -⟩ :=
    spinLock_run_atomic (fun _ => rfl) (fun _ => not_not.mpr rfl) hrun
  have htrue : s₄.thread true = .store 1 := by
    rw [hth₄, hsh₃]
    rfl
  have hfalse : s₄.thread false = .out := by
    rw [hth₄, hth]
    rfl
  refine ⟨s₄, a, hrun, hsh₄.trans hsh₃, htrue, ha, ?_, hinside true ?_⟩
  · rw [houtside false fun h => h hfalse, hfalse]
  · rw [htrue]
    exact nofun

/-- One of two CPUs that wait goes on, and the other stays where it is. -/
theorem spinLock_progress_two : ∃ q : Bool, ∃ s,
    RunAlone lockLoop (spinLock .arm fun _ => true) q (ArmSpin.start () fun _ => false) s ∧
      s.thread = Function.update (fun _ => false) q true ∧ s.lock.pc (!q) = .out := by
  have h₀ : Run lockLoop (spinLock .arm fun _ => true) (ArmSpin.start () fun _ : Bool => false)
      (ArmSpin.start () fun _ => false) := .refl
  have hnext : lockLoop.next true false = .acquire true := rfl
  obtain ⟨q, l, s, hq, hrun, -, hth, hpc⟩ := spinLock_progress (fun _ => rfl)
    (fun _ => Bool.false_ne_true) h₀ (fun _ => Bool.false_ne_true) hnext
  cases hq
  exact ⟨q, s, hrun, hth, hpc _ (Bool.not_ne_self q)⟩

/-- CPUs that take the lock exclude each other exactly if every MMU is on or there is one CPU. -/
theorem spinLock_exclusive_iff :
    (∀ s, Run lockLoop (spinLock port mmu) (ArmSpin.start () fun _ => false) s →
      ∀ p q, s.thread p = true → s.thread q = true → p = q) ↔
    (∀ p, mmu p = true) ∨ Subsingleton Cpu := by
  refine ⟨fun h => ?_, ?_⟩
  · by_contra hnot
    rw [not_or, not_forall, not_subsingleton_iff_nontrivial] at hnot
    obtain ⟨⟨p, hp⟩, hcpus⟩ := hnot
    obtain ⟨q, hq⟩ := exists_ne p
    -- `q` takes the lock, and `p` stores its 1 over that of `q`.
    let s₀ : Sections Cpu Unit Bool (ArmSpin Cpu) := ArmSpin.start () fun _ => false
    have harr₀ : ArmSpin.Arrives port mmu q s₀.lock := ArmSpin.arrives_of_free rfl (Or.inr rfl)
    have hnext₀ : lockLoop.next q (s₀.thread q) = .acquire true := rfl
    obtain ⟨s₁, hrun₁, -, hth₁, -, hpc₁⟩ := harr₀.run hnext₀
    have hout : s₁.lock.pc p = .out := hpc₁ p hq.symm
    have harr : ArmSpin.Arrives port mmu p s₁.lock :=
      ⟨_, .single (.enterOff hout (Bool.eq_false_iff.mpr hp)), Function.update_self ..,
        ArmSpin.goto_other⟩
    have hnext : lockLoop.next p (s₁.thread p) = .acquire true := by
      rw [hth₁, Function.update_of_ne hq.symm]
      rfl
    obtain ⟨s₂, hrun₂, -, hth₂, -⟩ := harr.run hnext
    refine hq (h s₂ (hrun₁.run.trans hrun₂.run) q p ?_ ?_)
    · simp [hth₂, hth₁, hq]
    · simp [hth₂]
  · rintro (hmmu | hone) s hrun p q hp hq
    · exact exclusive (ArmSpin.excludes port hmmu)
        (fun _ => Bool.false_ne_true) hrun hp hq
    · exact Subsingleton.elim p q

end SpinLock

end AcrnUt
