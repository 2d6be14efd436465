import Mathlib.Data.Set.Insert
import Mathlib.Tactic

/-!
# VM entries

The entry loop of `x86/vmx.c`. An entry comes out in one of three ways (`EntryOutcome`), which
the processor decides : `vmlaunch` or `vmresume` fails at once and falls through, or control
comes back at `vmx_return`, with a failed entry or with a VM exit. A test is its callbacks, over
a memory `τ` of its own.

Every entry that a run makes is recorded (`Entry`), with what the code did about it. The
assembly stores the mark of an early failure in the word of the flags, not in `early`, so an
entry is handled as its outcome asks exactly if it is no early failure
(`Entry.faithful_iff`).
-/

set_option linter.unusedSectionVars false

namespace AcrnUt

/-! ## The source -/

/-- `VMX_TEST_VMEXIT`. -/
def vmxTestVmexit : BitVec 32 :=
  1

/-- `VMX_TEST_EXIT`. -/
def vmxTestExit : BitVec 32 :=
  2

/-- `VMX_TEST_RESUME`. -/
def vmxTestResume : BitVec 32 :=
  3

/-- `VMX_TEST_VMABORT`. -/
def vmxTestVmabort : BitVec 32 :=
  4

/-- `VMX_TEST_VMSKIP`. -/
def vmxTestVmskip : BitVec 32 :=
  5

/-- `VMX_ENTRY_FAILURE`. -/
def vmxEntryFailure : BitVec 64 :=
  1#64 <<< 31

/-- `VMX_VMCALL`. -/
def vmxVmcall : BitVec 64 :=
  18

/-- `HYPERCALL_BIT`. -/
def hypercallBit : BitVec 64 :=
  1#64 <<< 12

/-- `HYPERCALL_MASK`. -/
def hypercallMask : BitVec 64 :=
  0xFFF

/-- `struct vmentry_failure`. -/
structure VmentryFailure where
  vmlaunch : Bool
  instr : String
  early : Bool
  flags : BitVec 64

/-- What a VM entry comes to. Bit 1 of the flags is always set. The exit reason of a failed
entry has bit 31 set, that of an exit has not. A guest that ran leaves its flags and
`hypercall_field`. -/
inductive EntryOutcome
  | early (rflags : BitVec 64) (reserved : rflags.getLsbD 1 = true)
  | late (reason : BitVec 32) (failed : reason.getLsbD 31 = true)
  | exit (reason : BitVec 32) (exited : reason.getLsbD 31 = false)
      (guestRflags hypercallField : BitVec 64)

/-- The variables of the loop, two fields of the VMCS, and the memory of the test. -/
structure Vmx (τ : Type*) where
  exitReason : BitVec 32
  guestRflags : BitVec 64
  regsRflags : BitVec 64
  hypercallField : BitVec 64
  launched : Bool
  guestFinished : Bool
  inGuest : Bool
  v2GuestMain : Bool
  exits : ℕ
  memory : τ

variable {τ : Type*}

/-- The callbacks of `struct vmx_test`. `exit_handler` reads the exit reason, and may change
`regs.rflags`. -/
structure VmxTest (τ : Type*) where
  exitHandler : BitVec 32 → BitVec 64 → τ → BitVec 32 × BitVec 64 × τ
  entryFailureHandler : Option (VmentryFailure → τ → BitVec 32 × τ)

/-- `vmcs_read(EXI_REASON)`. -/
def Vmx.exiReason (s : Vmx τ) : BitVec 64 :=
  s.exitReason.setWidth 64

/-- The assembly of `vmx_enter_guest`. An early failure falls through to the two stores to
`failure_flags`, of eight and of four bytes; otherwise control comes back at `vmx_return`. -/
def vmEntry (o : EntryOutcome) (failure : VmentryFailure) (s : Vmx τ) : VmentryFailure × Vmx τ :=
  match o with
  | .early rflags _ =>
    let failure := { failure with flags := rflags }
    let failure := { failure with flags := (failure.flags &&& 0xFFFFFFFF00000000) ||| 1 }
    (failure, s)
  | .late reason _ => (failure, { s with exitReason := reason })
  | .exit reason _ guestRflags hypercallField =>
    (failure, { s with
      exitReason := reason, guestRflags := guestRflags, hypercallField := hypercallField })

/-- `vmx_enter_guest`. -/
def vmxEnterGuest (o : EntryOutcome) (failure : VmentryFailure) (s : Vmx τ) :
    Bool × VmentryFailure × Vmx τ :=
  let failure := { failure with early := false }
  let s := { s with inGuest := true }
  let (failure, s) := vmEntry o failure s
  let s := { s with inGuest := false }
  let failure := { failure with
    vmlaunch := !s.launched
    instr := if s.launched then "vmresume" else "vmlaunch" }
  (!failure.early && s.exiReason &&& vmxEntryFailure == 0, failure, s)

/-- `is_hypercall`. -/
def isHypercall (s : Vmx τ) : Bool :=
  s.exiReason &&& 0xFF = vmxVmcall ∧ s.hypercallField &&& hypercallBit ≠ 0

/-- `handle_hypercall`. -/
def handleHypercall (s : Vmx τ) : BitVec 32 × Vmx τ :=
  let hypercallNo := s.hypercallField &&& hypercallMask
  let s := { s with hypercallField := 0 }
  if hypercallNo = 1 then (vmxTestVmexit, s)
  else if hypercallNo = 2 then (vmxTestVmabort, s)
  else if hypercallNo = 3 then (vmxTestVmskip, s)
  else (vmxTestExit, s)

/-- `exit_handler`. -/
def exitHandler (test : VmxTest τ) (s : Vmx τ) : BitVec 32 × Vmx τ :=
  let s := { s with exits := s.exits + 1, regsRflags := s.guestRflags }
  let (ret, s) :=
    if isHypercall s then handleHypercall s
    else
      let (ret, rflags, memory) := test.exitHandler s.exitReason s.regsRflags s.memory
      (ret, { s with regsRflags := rflags, memory := memory })
  (ret, { s with guestRflags := s.regsRflags })

/-- `entry_failure_handler`. -/
def entryFailureHandler (test : VmxTest τ) (failure : VmentryFailure) (s : Vmx τ) :
    BitVec 32 × Vmx τ :=
  match test.entryFailureHandler with
  | some handler =>
    let (ret, memory) := handler failure s.memory
    (ret, { s with memory := memory })
  | none => (vmxTestExit, s)

/-- What is called after an entry : the handling of an exit, that of a failure, or neither. -/
inductive Handler
  | exit
  | failure
  | none
deriving DecidableEq

/-- A VM entry of a run, from the state `before` it to the state after it was handled. -/
structure Entry (τ : Type*) where
  outcome : EntryOutcome
  before : Vmx τ
  entered : Bool
  failure : VmentryFailure
  handler : Handler
  after : Vmx τ

/-- One turn of the loop of `vmx_run`, and what its handler returned. -/
def vmxRun.turn (test : VmxTest τ) (o : EntryOutcome) (failure : VmentryFailure) (s : Vmx τ) :
    Entry τ × BitVec 32 :=
  let (entered, failure, s') := vmxEnterGuest o failure s
  if entered then
    let s' := { s' with launched := true }
    let (ret, s') := exitHandler test s'
    (⟨o, s, entered, failure, .exit, s'⟩, ret)
  else
    let (ret, s') := entryFailureHandler test failure s'
    (⟨o, s, entered, failure, .failure, s'⟩, ret)

/-- `vmx_run`, for the outcomes of its entries and what is on the stack before each : the
entries it makes, and the state when it returns 0. It aborts on any return value but
`VMX_TEST_RESUME` and `VMX_TEST_VMEXIT`. -/
def vmxRun (test : VmxTest τ) :
    List (EntryOutcome × VmentryFailure) → Vmx τ → List (Entry τ) × Option (Vmx τ)
  | [], _ => ([], none)
  | (o, failure) :: inputs, s =>
    let (entry, ret) := vmxRun.turn test o failure s
    if ret = vmxTestResume then
      let (entries, s') := vmxRun test inputs entry.after
      (entry :: entries, s')
    else if ret = vmxTestVmexit then ([entry], some { entry.after with guestFinished := true })
    else ([entry], none)

/-- `enter_guest`, past its assertions : the entry it makes, and the state if it returns. It
aborts, or jumps to the end of the test, otherwise. -/
def enterGuest.entry (o : EntryOutcome) (failure : VmentryFailure) (s : Vmx τ) :
    Entry τ × Option (Vmx τ) :=
  let (entered, failure, s') := vmxEnterGuest o failure s
  if ¬entered then (⟨o, s, entered, failure, .failure, s'⟩, none)
  else
    let s' := { s' with launched := true }
    if isHypercall s' then
      let (ret, s') := handleHypercall s'
      let entry : Entry τ := ⟨o, s, entered, failure, .exit, s'⟩
      if ret = vmxTestVmexit then (entry, some { s' with guestFinished := true })
      else (entry, none)
    else (⟨o, s, entered, failure, .none, s'⟩, some s')

/-- `enter_guest`. -/
def enterGuest (o : EntryOutcome) (failure : VmentryFailure) (s : Vmx τ) :
    Option (Entry τ × Option (Vmx τ)) :=
  if ¬s.v2GuestMain then none
  else if s.guestFinished then none
  else some (enterGuest.entry o failure s)

/-- A test of the second interface, as far as it goes : between the calls of `enter_guest` it
changes its memory and the flags of the guest. -/
def v2Run : List ((BitVec 64 × τ → BitVec 64 × τ) × EntryOutcome × VmentryFailure) → Vmx τ →
    List (Entry τ)
  | [], _ => []
  | (host, o, failure) :: inputs, s =>
    let (rflags, memory) := host (s.guestRflags, s.memory)
    match enterGuest o failure { s with guestRflags := rflags, memory := memory } with
    | none => []
    | some (entry, none) => [entry]
    | some (entry, some s) => entry :: v2Run inputs s

/-! ## One entry -/

/-- The guest ran, and a VM exit came back. -/
def EntryOutcome.isExit : EntryOutcome → Bool
  | exit .. => true
  | _ => false

/-- The instruction failed at once. -/
def EntryOutcome.isEarly : EntryOutcome → Bool
  | early .. => true
  | _ => false

namespace Entry

variable {e : Entry τ} {o : EntryOutcome} {failure : VmentryFailure} {s s' : Vmx τ}

/-- The entry is handled as its outcome asks : the code takes it for an exit exactly if it was
one, marks the VMCS as launched only then, calls the handler of its kind, and keeps the
flags of an early failure. -/
structure Faithful (e : Entry τ) : Prop where
  entered : e.entered = e.outcome.isExit
  launched : e.after.launched = true → e.before.launched = true ∨ e.outcome.isExit = true
  exit : e.handler = .exit → e.outcome.isExit = true
  failure : e.outcome.isExit = false → e.handler = .failure
  flags : ∀ rflags h, e.outcome = .early rflags h → e.failure.flags = rflags

/-- What the code does once `vmx_enter_guest` has said whether the guest was entered. -/
structure Made (e : Entry τ) : Prop where
  result : ∃ failure,
    (e.entered, e.failure) =
      ((vmxEnterGuest e.outcome failure e.before).1, (vmxEnterGuest e.outcome failure e.before).2.1)
  launched : e.after.launched = (e.before.launched || e.entered)
  failure : e.handler = .failure ↔ e.entered = false

theorem reason_failed {reason : BitVec 32} :
    (reason.setWidth 64 &&& vmxEntryFailure == 0) = !reason.getLsbD 31 := by
  have hbits : reason.setWidth 64 &&& vmxEntryFailure =
      if reason.getLsbD 31 then vmxEntryFailure else 0 := by
    refine BitVec.eq_of_getLsbD_eq fun i hi => ?_
    have hmask : vmxEntryFailure.getLsbD i = decide (i = 31) := by
      rw [vmxEntryFailure, BitVec.getLsbD_shiftLeft, BitVec.getLsbD_one, Bool.eq_iff_iff]
      simp only [hi, decide_true, Bool.true_and, Bool.and_eq_true, Bool.not_eq_true',
        decide_eq_true_eq, decide_eq_false_iff_not]
      omega
    rw [BitVec.getLsbD_and, BitVec.getLsbD_setWidth, hmask]
    by_cases h31 : i = 31
    · subst h31
      cases h : reason.getLsbD 31
      · simp
      · simp [hmask]
    · cases reason.getLsbD 31 <;> simp [h31, hmask]
  rw [hbits]
  cases reason.getLsbD 31 <;> rfl

/-- The result of `vmx_enter_guest` is right unless the instruction failed at once. -/
theorem vmxEnterGuest_fst (h : o.isEarly = false) : (vmxEnterGuest o failure s).1 = o.isExit := by
  cases o with
  | early _ _ => cases h
  | late reason failed =>
    simp only [vmxEnterGuest, vmEntry, Vmx.exiReason, reason_failed, failed]
    rfl
  | exit reason exited guestRflags hypercallField =>
    simp only [vmxEnterGuest, vmEntry, Vmx.exiReason, reason_failed, exited]
    rfl

/-- The mark of an early failure overwrites bit 1 of its flags. -/
theorem vmxEnterGuest_flags {rflags : BitVec 64} {reserved : rflags.getLsbD 1 = true} :
    (vmxEnterGuest (.early rflags reserved) failure s).2.1.flags ≠ rflags := by
  intro h
  have hbit := congrArg (BitVec.getLsbD · 1) h
  simp only [vmxEnterGuest, vmEntry, BitVec.getLsbD_or, BitVec.getLsbD_and, reserved] at hbit
  simp at hbit

/-- An entry is handled as its outcome asks exactly if it is no early failure. -/
theorem Made.faithful_iff (h : e.Made) : e.Faithful ↔ e.outcome.isEarly = false := by
  obtain ⟨failure, hresult⟩ := h.result
  obtain ⟨hentered, hfailure⟩ := Prod.mk.inj hresult
  constructor
  · intro hf
    cases ho : e.outcome with
    | early rflags reserved =>
      have hflags := hf.flags rflags reserved ho
      rw [hfailure, ho] at hflags
      exact absurd hflags vmxEnterGuest_flags
    | late _ _ => rfl
    | exit _ _ _ _ => rfl
  · intro hearly
    have hexit := hentered.trans (vmxEnterGuest_fst hearly)
    refine ⟨hexit, fun hl => ?_, fun hh => ?_, fun hn => ?_, fun rflags reserved ho => ?_⟩
    · rwa [h.launched, hexit, Bool.or_eq_true] at hl
    · rw [← hexit, ← Bool.not_eq_false]
      intro hne
      rw [h.failure.mpr hne] at hh
      cases hh
    · exact h.failure.mpr (hexit.trans hn)
    · rw [ho] at hearly
      cases hearly

end Entry

/-! ## Runs -/

section Runs

variable {test : VmxTest τ} {o : EntryOutcome} {failure : VmentryFailure} {s : Vmx τ} {e : Entry τ}

/-- An entry, failed or not, leaves the launch state to its caller. -/
theorem vmxEnterGuest_eq : ∃ entered failure' s',
    vmxEnterGuest o failure s = (entered, failure', s') ∧ s'.launched = s.launched := by
  cases o <;> exact ⟨_, _, _, rfl, rfl⟩

theorem exitHandler_launched : (exitHandler test s).2.launched = s.launched := by
  simp only [exitHandler, handleHypercall]
  split_ifs <;> rfl

theorem entryFailureHandler_launched :
    (entryFailureHandler test failure s).2.launched = s.launched := by
  unfold entryFailureHandler
  split <;> rfl

theorem handleHypercall_launched : (handleHypercall s).2.launched = s.launched := by
  simp only [handleHypercall]
  split_ifs <;> rfl

theorem vmxRun.turn_made : (vmxRun.turn test o failure s).1.Made := by
  unfold vmxRun.turn
  obtain ⟨entered, failure', s', hrun, hl⟩ := @vmxEnterGuest_eq τ o failure s
  simp only [hrun]
  cases entered with
  | false =>
    rw [if_neg Bool.false_ne_true]
    exact ⟨⟨failure, by rw [hrun]⟩, by simp [entryFailureHandler_launched, ← hl], by simp⟩
  | true =>
    rw [if_pos rfl]
    exact ⟨⟨failure, by rw [hrun]⟩, by simp [exitHandler_launched], by simp⟩

theorem enterGuest.entry_made : (enterGuest.entry o failure s).1.Made := by
  unfold enterGuest.entry
  obtain ⟨entered, failure', s', hrun, hl⟩ := @vmxEnterGuest_eq τ o failure s
  simp only [hrun]
  cases entered with
  | false =>
    rw [if_pos Bool.false_ne_true]
    exact ⟨⟨failure, by rw [hrun]⟩, by simp [← hl], by simp⟩
  | true =>
    rw [if_neg (not_not.mpr rfl)]
    split_ifs
    · exact ⟨⟨failure, by rw [hrun]⟩, by simp [handleHypercall_launched], by simp⟩
    · exact ⟨⟨failure, by rw [hrun]⟩, by simp [handleHypercall_launched], by simp⟩
    · exact ⟨⟨failure, by rw [hrun]⟩, by simp, by simp⟩

theorem vmxRun_made : ∀ {inputs : List (EntryOutcome × VmentryFailure)} {s : Vmx τ},
    ∀ e ∈ (vmxRun test inputs s).1, e.Made
  | [], _, _, he => absurd he List.not_mem_nil
  | (o, failure) :: inputs, s, e, he => by
    simp only [vmxRun] at he
    split_ifs at he
    · rcases List.mem_cons.mp he with rfl | he
      · exact vmxRun.turn_made
      · exact vmxRun_made e he
    · rw [List.mem_singleton.mp he]
      exact vmxRun.turn_made
    · rw [List.mem_singleton.mp he]
      exact vmxRun.turn_made

theorem v2Run_made : ∀ {inputs : List ((BitVec 64 × τ → BitVec 64 × τ) × EntryOutcome ×
    VmentryFailure)} {s : Vmx τ}, ∀ e ∈ v2Run inputs s, e.Made
  | [], _, _, he => absurd he List.not_mem_nil
  | (host, o, failure) :: inputs, s, e, he => by
    simp only [v2Run, enterGuest] at he
    split at he
    · exact absurd he List.not_mem_nil
    · rename_i heq
      split_ifs at heq
      rw [List.mem_singleton.mp he, ← (Prod.mk.inj (Option.some.inj heq)).1]
      exact enterGuest.entry_made
    · rename_i heq
      split_ifs at heq
      rcases List.mem_cons.mp he with rfl | he
      · rw [← (Prod.mk.inj (Option.some.inj heq)).1]
        exact enterGuest.entry_made
      · exact v2Run_made e he

/-- In every run of `vmx_run`, and in every run of a test over `enter_guest`, all entries are
handled as their outcomes ask exactly if none of them fails early. -/
theorem entries_faithful_iff (test : VmxTest τ) (inputs : List (EntryOutcome × VmentryFailure))
    (calls : List ((BitVec 64 × τ → BitVec 64 × τ) × EntryOutcome × VmentryFailure)) (s : Vmx τ) :
    ((∀ e ∈ (vmxRun test inputs s).1, e.Faithful) ↔
      ∀ e ∈ (vmxRun test inputs s).1, e.outcome.isEarly = false) ∧
    ((∀ e ∈ v2Run calls s, e.Faithful) ↔ ∀ e ∈ v2Run calls s, e.outcome.isEarly = false) :=
  ⟨forall₂_congr fun e he => (vmxRun_made e he).faithful_iff,
    forall₂_congr fun e he => (v2Run_made e he).faithful_iff⟩

end Runs

/-- A VMCS that was cleared, with a stale exit reason of zero. -/
def clearedVmcs : Vmx Unit where
  exitReason := 0
  guestRflags := 2
  regsRflags := 2
  hypercallField := 0
  launched := false
  guestFinished := false
  inGuest := false
  v2GuestMain := false
  exits := 0
  memory := ()

/-- `vmlaunch` fails with `ZF` on a cleared VMCS. It is taken for an exit : the VMCS is marked
as launched, `exit_handler` runs, and the flags read 1. -/
theorem vmlaunch_failure_taken_for_exit :
    ∃ e ∈ (vmxRun ⟨fun _ rflags _ => (vmxTestExit, rflags, ()), none⟩
        [(.early 0x42 (by decide), ⟨false, "", false, 0⟩)] clearedVmcs).1,
      e.outcome.isExit = false ∧ e.entered = true ∧ e.after.launched = true ∧
        e.handler = .exit ∧ e.failure.flags = 1 ∧ ¬e.Faithful :=
  ⟨_, List.mem_singleton_self _, rfl, rfl, rfl, rfl, by decide,
    fun h => absurd h.entered (by decide)⟩

end AcrnUt
