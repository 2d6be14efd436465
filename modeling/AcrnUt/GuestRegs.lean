import AcrnUt.Exchange
import Mathlib.Data.BitVec
import Mathlib.Tactic

/-!
# The guest's registers

The tests keep the guest's general registers in the global `regs` while the host runs, and
exchange them with the processor's by the swaps of `SAVE_GPR` before and after the guest
(`x86/vmx.h`, `x86/svm.c`). The swaps write the offsets by hand : `rbx`, `rcx`, `rdx` at `0x8`,
`0x10`, `0x18`, while `struct regs` declares `rcx`, `rdx`, `rbx` in this order. So the guest gets
these three rotated, and leaves them rotated (`saveGpr_landsIn`). `test_run` further moves `rax`
and `rflags` to `0x1f8` and `0x170` of the VMCB : these are the offsets in `struct
vmcb_save_area`, which starts at `0x400` only, so the moves go to reserved bytes of the control
area and the processor does not look at them.

The host gets its registers back in any case; the rest holds exactly for values that do not show
the rotation and the lost moves (`gprExchange_iff`).
-/

set_option linter.unusedSectionVars false

namespace AcrnUt

/-! ## `struct regs` -/

/-- The general registers, but for the stack pointer. -/
inductive Gpr
  | rax | rbx | rcx | rdx | rbp | rsi | rdi
  | r8 | r9 | r10 | r11 | r12 | r13 | r14 | r15
  deriving DecidableEq, Repr

/-- The fields of `struct regs`. -/
inductive RegsField
  | rax | rcx | rdx | rbx | cr2 | rbp | rsi | rdi
  | r8 | r9 | r10 | r11 | r12 | r13 | r14 | r15 | rflags
  deriving DecidableEq, Repr

/-- `struct regs`, the same in `x86/vmx.h` and `x86/svm.c` : fields of type `u64`. -/
def structRegs : List (RegsField × ℕ) :=
  [(.rax, 8), (.rcx, 8), (.rdx, 8), (.rbx, 8), (.cr2, 8), (.rbp, 8), (.rsi, 8), (.rdi, 8),
    (.r8, 8), (.r9, 8), (.r10, 8), (.r11, 8), (.r12, 8), (.r13, 8), (.r14, 8), (.r15, 8),
    (.rflags, 8)]

/-- The offset of a field in `regs`. -/
def RegsField.offset (f : RegsField) : ℕ :=
  packedOffset structRegs f

/-- The field that bears a register's name. -/
def Gpr.field : Gpr → RegsField
  | .rax => .rax | .rbx => .rbx | .rcx => .rcx | .rdx => .rdx
  | .rbp => .rbp | .rsi => .rsi | .rdi => .rdi
  | .r8 => .r8 | .r9 => .r9 | .r10 => .r10 | .r11 => .r11
  | .r12 => .r12 | .r13 => .r13 | .r14 => .r14 | .r15 => .r15

/-! ## `SAVE_GPR` -/

/-- `SAVE_GPR_C` of `x86/svm.c` : no `rax`, which is handled apart. -/
def svmSaveGpr : List (Gpr × ℕ) :=
  [(.rbx, 0x8), (.rcx, 0x10), (.rdx, 0x18), (.rbp, 0x28), (.rsi, 0x30), (.rdi, 0x38),
    (.r8, 0x40), (.r9, 0x48), (.r10, 0x50), (.r11, 0x58), (.r12, 0x60), (.r13, 0x68),
    (.r14, 0x70), (.r15, 0x78)]

/-- `SAVE_GPR` and `SAVE_GPR_C` of `x86/vmx.h`. -/
def vmxSaveGpr : List (Gpr × ℕ) :=
  [(.rax, 0), (.rbx, 0x8), (.rcx, 0x10), (.rdx, 0x18), (.rbp, 0x28), (.rsi, 0x30), (.rdi, 0x38),
    (.r8, 0x40), (.r9, 0x48), (.r10, 0x50), (.r11, 0x58), (.r12, 0x60), (.r13, 0x68),
    (.r14, 0x70), (.r15, 0x78)]

/-- The swaps of `x86/vmx.h` name no register and no word twice. -/
def vmxChain : XchgChain Gpr ℕ :=
  ⟨vmxSaveGpr, by decide, by decide⟩

/-- Nor do those of `x86/svm.c`. -/
def svmChain : XchgChain Gpr ℕ :=
  ⟨svmSaveGpr, by decide, by decide⟩

/-- The field whose word a register is swapped with. -/
def Gpr.landsIn : Gpr → RegsField
  | .rbx => .rcx
  | .rcx => .rdx
  | .rdx => .rbx
  | g => g.field

/-- Each swap, by the field it reaches. -/
theorem saveGpr_landsIn (g : Gpr) : (g, g.landsIn.offset) ∈ vmxSaveGpr := by
  cases g <;> decide

/-- The two copies agree on every register but `rax`. -/
theorem svmSaveGpr_landsIn {g : Gpr} (h : g ≠ .rax) : (g, g.landsIn.offset) ∈ svmSaveGpr := by
  cases g <;> first | exact absurd rfl h | decide

/-- Three values that look the same after a rotation. -/
structure Unrotated (rbx rcx rdx : BitVec 64) : Prop where
  rbx_rcx : rbx = rcx
  rcx_rdx : rcx = rdx

instance (rbx rcx rdx : BitVec 64) : Decidable (Unrotated rbx rcx rdx) :=
  decidable_of_iff (rbx = rcx ∧ rcx = rdx) ⟨fun h => ⟨h.1, h.2⟩, fun h => ⟨h.1, h.2⟩⟩

/-- Registers loaded from `mem` by the swaps (`rax` perhaps from elsewhere) have the values of
their fields exactly if the rotation does not show. -/
theorem starts_iff {v : Gpr → BitVec 64} {mem : RegsField → BitVec 64}
    (h : ∀ g, g ≠ .rax → v g = mem g.landsIn) :
    (∀ g : Gpr, v g = mem g.field) ↔
      Unrotated (mem .rbx) (mem .rcx) (mem .rdx) ∧ v .rax = mem .rax := by
  have hbx : v .rbx = mem .rcx := h .rbx (by simp)
  have hcx : v .rcx = mem .rdx := h .rcx (by simp)
  have hdx : v .rdx = mem .rbx := h .rdx (by simp)
  constructor
  · intro hv
    exact ⟨⟨(hv .rbx).symm.trans hbx, (hv .rcx).symm.trans hcx⟩, hv .rax⟩
  · rintro ⟨⟨h₁, h₂⟩, hax⟩ g
    have hg := h g
    cases g
    case rax => exact hax
    case rbx => exact hbx.trans h₁.symm
    case rcx => exact hcx.trans h₂.symm
    case rdx => exact hdx.trans (h₁.trans h₂)
    all_goals exact hg (by simp)

/-- The same for registers stored by the swaps. -/
theorem leaves_iff {v : Gpr → BitVec 64} {mem : RegsField → BitVec 64}
    (h : ∀ g, g ≠ .rax → mem g.landsIn = v g) :
    (∀ g : Gpr, mem g.field = v g) ↔
      Unrotated (v .rbx) (v .rcx) (v .rdx) ∧ mem .rax = v .rax := by
  have hbx : mem .rcx = v .rbx := h .rbx (by simp)
  have hcx : mem .rdx = v .rcx := h .rcx (by simp)
  have hdx : mem .rbx = v .rdx := h .rdx (by simp)
  constructor
  · intro hv
    exact ⟨⟨hbx.symm.trans (hv .rcx), hcx.symm.trans (hv .rdx)⟩, hv .rax⟩
  · rintro ⟨⟨h₁, h₂⟩, hax⟩ g
    have hg := h g
    cases g
    case rax => exact hax
    case rbx => exact hdx.trans (h₁.trans h₂).symm
    case rcx => exact hbx.trans h₁
    case rdx => exact hcx.trans h₂
    all_goals exact hg (by simp)

/-! ## Around the guest -/

/-- What the exchange around a run of the guest is for : `start` is what the guest starts with,
`exit` what it leaves, `before` and `after` are the host's registers. -/
structure GprExchange (regs regs' : ℕ → BitVec 64) (start exit before after : Gpr → BitVec 64) :
    Prop where
  starts : ∀ g, start g = regs g.field.offset
  leaves : ∀ g, regs' g.field.offset = exit g
  host : ∀ g, after g = before g

/-- A host with registers `before` and the words of `regs`. -/
abbrev HostState : Type :=
  RegMem Gpr ℕ (BitVec 64)

/-- `LOAD_GPR`, a run of the guest that ends with the registers `exit`, and `SAVE_GPR`. -/
def vmxRunGuest (exit : Gpr → BitVec 64) (s : HostState) : HostState :=
  vmxChain.run { vmxChain.run s with gpr := exit }

/-- The exchange around `vmlaunch` and `vmresume`, of the host's registers `before`. -/
def VmxExchange (regs : ℕ → BitVec 64) (before exit : Gpr → BitVec 64) : Prop :=
  let s : HostState := ⟨before, regs⟩
  GprExchange regs (vmxRunGuest exit s).mem (vmxChain.run s).gpr exit before
    (vmxRunGuest exit s).gpr

/-- The `vmx` exchange, for all values. -/
theorem vmxExchange_iff (regs : ℕ → BitVec 64) (before exit : Gpr → BitVec 64) :
    VmxExchange regs before exit ↔
      Unrotated (regs RegsField.rbx.offset) (regs RegsField.rcx.offset)
          (regs RegsField.rdx.offset) ∧
        Unrotated (exit .rbx) (exit .rcx) (exit .rdx) := by
  set s : HostState := ⟨before, regs⟩ with hs
  have hload : ∀ g : Gpr, (vmxChain.run s).gpr g = regs g.landsIn.offset := fun g =>
    XchgChain.gpr_run (saveGpr_landsIn g)
  have haround : ∀ g : Gpr, (vmxRunGuest exit s).mem g.landsIn.offset = exit g ∧
      (vmxRunGuest exit s).gpr g = before g := fun g =>
    XchgChain.around (saveGpr_landsIn g)
  have hstarts := @starts_iff _ (fun f => regs f.offset) fun g _ => hload g
  have hleaves := @leaves_iff _ (fun f => (vmxRunGuest exit s).mem f.offset)
    fun g _ => (haround g).1
  constructor
  · rintro ⟨hst, hlv, -⟩
    exact ⟨(hstarts.1 hst).1, (hleaves.1 hlv).1⟩
  · rintro ⟨hst, hlv⟩
    exact ⟨hstarts.2 ⟨hst, hload .rax⟩, hleaves.2 ⟨hlv, (haround .rax).1⟩, fun g => (haround g).2⟩

/-! ## The VMCB -/

/-- The fields of `struct vmcb_control_area`. -/
inductive ControlField
  | interceptCrRead | interceptCrWrite | interceptDrRead | interceptDrWrite | interceptExceptions
  | intercept | reserved1 | pauseFilterCount | iopmBasePa | msrpmBasePa | tscOffset | asid | tlbCtl
  | reserved2 | intCtl | intVector | intState | reserved3 | exitCode | exitCodeHi | exitInfo1
  | exitInfo2 | exitIntInfo | exitIntInfoErr | nestedCtl | reserved4 | eventInj | eventInjErr
  | nestedCr3 | lbrCtl | reserved5 | nextRip | reserved6
  deriving DecidableEq, Repr

/-- The fields of `struct vmcb_save_area`. -/
inductive SaveField
  | es | cs | ss | ds | fs | gs | gdtr | ldtr | idtr | tr | reserved1 | cpl | reserved2 | efer
  | reserved3 | cr4 | cr3 | cr0 | dr7 | dr6 | rflags | rip | reserved4 | rsp | reserved5 | rax
  | star | lstar | cstar | sfmask | kernelGsBase | sysenterCs | sysenterEsp | sysenterEip | cr2
  | reserved6 | gPat | dbgctl | brFrom | brTo | lastExcpFrom | lastExcpTo
  deriving DecidableEq, Repr

/-- `struct vmcb_control_area`, packed. -/
def vmcbControlArea : List (ControlField × ℕ) :=
  [(.interceptCrRead, 2), (.interceptCrWrite, 2), (.interceptDrRead, 2), (.interceptDrWrite, 2),
    (.interceptExceptions, 4), (.intercept, 8), (.reserved1, 42), (.pauseFilterCount, 2),
    (.iopmBasePa, 8), (.msrpmBasePa, 8), (.tscOffset, 8), (.asid, 4), (.tlbCtl, 1), (.reserved2, 3),
    (.intCtl, 4), (.intVector, 4), (.intState, 4), (.reserved3, 4), (.exitCode, 4),
    (.exitCodeHi, 4), (.exitInfo1, 8), (.exitInfo2, 8), (.exitIntInfo, 4), (.exitIntInfoErr, 4),
    (.nestedCtl, 8), (.reserved4, 16), (.eventInj, 4), (.eventInjErr, 4), (.nestedCr3, 8),
    (.lbrCtl, 8), (.reserved5, 8), (.nextRip, 8), (.reserved6, 816)]

/-- `struct vmcb_save_area`, packed; a segment takes 16 bytes. -/
def vmcbSaveArea : List (SaveField × ℕ) :=
  [(.es, 16), (.cs, 16), (.ss, 16), (.ds, 16), (.fs, 16), (.gs, 16), (.gdtr, 16), (.ldtr, 16),
    (.idtr, 16), (.tr, 16), (.reserved1, 43), (.cpl, 1), (.reserved2, 4), (.efer, 8),
    (.reserved3, 112), (.cr4, 8), (.cr3, 8), (.cr0, 8), (.dr7, 8), (.dr6, 8), (.rflags, 8),
    (.rip, 8), (.reserved4, 88), (.rsp, 8), (.reserved5, 24), (.rax, 8), (.star, 8), (.lstar, 8),
    (.cstar, 8), (.sfmask, 8), (.kernelGsBase, 8), (.sysenterCs, 8), (.sysenterEsp, 8),
    (.sysenterEip, 8), (.cr2, 8), (.reserved6, 32), (.gPat, 8), (.dbgctl, 8), (.brFrom, 8),
    (.brTo, 8), (.lastExcpFrom, 8), (.lastExcpTo, 8)]

/-- The offset of a field of the control area in `struct vmcb`. -/
def ControlField.offset (f : ControlField) : ℕ :=
  packedOffset vmcbControlArea f

/-- The offset of a field of the save area in `struct vmcb`, behind the whole control area. -/
def SaveField.offset (f : SaveField) : ℕ :=
  (vmcbControlArea.map Prod.snd).sum + packedOffset vmcbSaveArea f

/-- The bytes of the control area that have no meaning behind its last field. -/
def Reserved (o : ℕ) : Prop :=
  ControlField.reserved6.offset ≤ o ∧ o < ControlField.reserved6.offset + 816

instance (o : ℕ) : Decidable (Reserved o) :=
  inferInstanceAs (Decidable (_ ∧ _))

/-! ## Around `vmrun` -/

/-- The host of `test_run` : its registers and `regs`, and the words of the VMCB that `rax` points
to, by their offsets. -/
structure SvmState where
  host : HostState
  vmcb : ℕ → BitVec 64

/-- What a run of the guest leaves : its registers and flags, and what the processor writes to the
rest of the VMCB. -/
structure SvmExit where
  gpr : Gpr → BitVec 64
  rflags : BitVec 64
  vmcb : ℕ → BitVec 64

/-- `mov regs+from, %r15; mov %r15, to(%0)`. -/
def movToVmcb (s : SvmState) (src dst : ℕ) : SvmState where
  host := { s.host with gpr := Function.update s.host.gpr .r15 (s.host.mem src) }
  vmcb := Function.update s.vmcb dst (s.host.mem src)

/-- `mov from(%0), %r15; mov %r15, regs+to`. -/
def movFromVmcb (s : SvmState) (src dst : ℕ) : SvmState where
  host := ⟨Function.update s.host.gpr .r15 (s.vmcb src),
    Function.update s.host.mem dst (s.vmcb src)⟩
  vmcb := s.vmcb

/-- The swaps of `LOAD_GPR_C` and `SAVE_GPR_C`. -/
def svmSwap (s : SvmState) : SvmState :=
  { s with host := svmChain.run s.host }

/-- `vmrun` : `rax` is the host's again at the end, the guest's is in the save area, as its flags
are. The reserved bytes are left alone. -/
def vmrun (exit : SvmExit) (s : SvmState) : SvmState where
  host := { s.host with gpr := Function.update exit.gpr .rax (s.host.gpr .rax) }
  vmcb := fun o =>
    if o = SaveField.rax.offset then exit.gpr .rax
    else if o = SaveField.rflags.offset then exit.rflags
    else if Reserved o then s.vmcb o
    else exit.vmcb o

/-- The guest's registers when `vmrun` enters it. -/
def vmrunGpr (s : SvmState) : Gpr → BitVec 64 :=
  Function.update s.host.gpr .rax (s.vmcb SaveField.rax.offset)

/-- The moves of `test_run` before `LOAD_GPR_C`. -/
def svmMovesIn (s : SvmState) : SvmState :=
  movToVmcb (movToVmcb s 0x80 0x170) 0 0x1f8

/-- The moves of `test_run` behind `SAVE_GPR_C`. -/
def svmMovesOut (s : SvmState) : SvmState :=
  movFromVmcb (movFromVmcb s 0x170 0x80) 0x1f8 0

/-- The state right behind `SAVE_GPR_C`. -/
def svmRunGuest (exit : SvmExit) (s : SvmState) : SvmState :=
  svmSwap (vmrun exit (svmSwap (svmMovesIn s)))

/-- What is to hold around `vmrun`, the flags included. The host's registers are compared across
the two chains of swaps : `r15` is a scratch register outside them. -/
structure SvmExchange (s : SvmState) (exit : SvmExit) : Prop where
  gpr : GprExchange s.host.mem (svmMovesOut (svmRunGuest exit s)).host.mem
    (vmrunGpr (svmSwap (svmMovesIn s))) exit.gpr (svmMovesIn s).host.gpr
    (svmRunGuest exit s).host.gpr
  starts_rflags : (svmSwap (svmMovesIn s)).vmcb SaveField.rflags.offset =
    s.host.mem RegsField.rflags.offset
  leaves_rflags : (svmMovesOut (svmRunGuest exit s)).host.mem RegsField.rflags.offset = exit.rflags

/-- The offsets of `test_run` lie in the reserved bytes of the control area, the save area's words
elsewhere. -/
theorem moves_reserved : Reserved 0x170 ∧ Reserved 0x1f8 ∧
    ¬Reserved SaveField.rax.offset ∧ ¬Reserved SaveField.rflags.offset := by
  decide

/-- What `vmrun` enters the guest with is what the save area held before the moves. -/
theorem vmcb_movesIn {s : SvmState} {o : ℕ} (h : ¬Reserved o) :
    (svmMovesIn s).vmcb o = s.vmcb o := by
  have h170 : o ≠ 0x170 := fun heq => h (heq ▸ moves_reserved.1)
  have h1f8 : o ≠ 0x1f8 := fun heq => h (heq ▸ moves_reserved.2.1)
  exact (Function.update_of_ne h1f8 _ _).trans (Function.update_of_ne h170 _ _)

/-- The moves before the guest do not write `regs`. -/
theorem mem_movesIn (s : SvmState) : (svmMovesIn s).host.mem = s.host.mem := rfl

/-- A word of `regs` that is neither `rax` nor `rflags`, behind the moves out. -/
theorem mem_movesOut {s : SvmState} {o : ℕ} (hrax : o ≠ 0) (hflags : o ≠ 0x80) :
    (svmMovesOut s).host.mem o = s.host.mem o :=
  (Function.update_of_ne hrax _ _).trans (Function.update_of_ne hflags _ _)

/-- The moves back find what the moves before the guest wrote : the fields keep their values. -/
theorem mem_movesOut_moved (s : SvmState) (exit : SvmExit) :
    (svmMovesOut (svmRunGuest exit s)).host.mem RegsField.rax.offset =
        s.host.mem RegsField.rax.offset ∧
      (svmMovesOut (svmRunGuest exit s)).host.mem RegsField.rflags.offset =
        s.host.mem RegsField.rflags.offset := by
  constructor <;> rfl

/-- A register that the swaps of `x86/svm.c` name, around the guest. -/
theorem svmRunGuest_around {s : SvmState} {exit : SvmExit} {g : Gpr} (h : g ≠ .rax) :
    (svmRunGuest exit s).host.mem g.landsIn.offset = exit.gpr g ∧
      (svmRunGuest exit s).host.gpr g = (svmMovesIn s).host.gpr g := by
  obtain ⟨hmem, hgpr⟩ : (svmRunGuest exit s).host.mem g.landsIn.offset =
        (vmrun exit (svmSwap (svmMovesIn s))).host.gpr g ∧
      (svmRunGuest exit s).host.gpr g = (svmMovesIn s).host.gpr g :=
    svmChain.around (svmSaveGpr_landsIn h)
  exact ⟨hmem.trans (Function.update_of_ne h _ _), hgpr⟩

/-- `rax` goes through `vmrun` alone. -/
theorem svmRunGuest_rax (s : SvmState) (exit : SvmExit) :
    (svmRunGuest exit s).host.gpr .rax = (svmMovesIn s).host.gpr .rax :=
  rfl

/-- The whole of `test_run`'s code changes no register but `r15`, which it declares. -/
theorem testRun_gpr {s : SvmState} {exit : SvmExit} {g : Gpr} (h : g ≠ .r15) :
    (svmMovesOut (svmRunGuest exit s)).host.gpr g = s.host.gpr g := by
  have hout : (svmMovesOut (svmRunGuest exit s)).host.gpr g = (svmRunGuest exit s).host.gpr g :=
    (Function.update_of_ne h _ _).trans (Function.update_of_ne h _ _)
  have hin : (svmMovesIn s).host.gpr g = s.host.gpr g :=
    (Function.update_of_ne h _ _).trans (Function.update_of_ne h _ _)
  by_cases hg : g = .rax
  · rw [hg] at hout hin ⊢
    exact hout.trans ((svmRunGuest_rax s exit).trans hin)
  · exact hout.trans ((svmRunGuest_around hg).2.trans hin)

/-- The conditions under which the exchange of `x86/svm.c` works : the rotation does not show, the
save area already held the two fields, and the guest leaves them as they were. -/
structure SvmHidden (s : SvmState) (exit : SvmExit) : Prop where
  regs : Unrotated (s.host.mem RegsField.rbx.offset) (s.host.mem RegsField.rcx.offset)
    (s.host.mem RegsField.rdx.offset)
  exit_regs : Unrotated (exit.gpr .rbx) (exit.gpr .rcx) (exit.gpr .rdx)
  saved_rax : s.vmcb SaveField.rax.offset = s.host.mem RegsField.rax.offset
  saved_rflags : s.vmcb SaveField.rflags.offset = s.host.mem RegsField.rflags.offset
  exit_rax : exit.gpr .rax = s.host.mem RegsField.rax.offset
  exit_rflags : exit.rflags = s.host.mem RegsField.rflags.offset

/-- The `svm` exchange, for all values. -/
theorem svmExchange_iff (s : SvmState) (exit : SvmExit) :
    SvmExchange s exit ↔ SvmHidden s exit := by
  have hload : ∀ g : Gpr, g ≠ .rax →
      vmrunGpr (svmSwap (svmMovesIn s)) g = s.host.mem g.landsIn.offset := fun g hg => by
    refine (Function.update_of_ne hg _ _).trans ?_
    exact (XchgChain.gpr_run (c := svmChain) (svmSaveGpr_landsIn hg)).trans (by rw [mem_movesIn])
  have hrax : vmrunGpr (svmSwap (svmMovesIn s)) .rax = s.vmcb SaveField.rax.offset :=
    vmcb_movesIn moves_reserved.2.2.1
  have hrflags : (svmSwap (svmMovesIn s)).vmcb SaveField.rflags.offset =
      s.vmcb SaveField.rflags.offset :=
    vmcb_movesIn moves_reserved.2.2.2
  have hkeep := mem_movesOut_moved s exit
  have haround : ∀ g : Gpr, g ≠ .rax →
      (svmMovesOut (svmRunGuest exit s)).host.mem g.landsIn.offset = exit.gpr g := fun g hg => by
    refine (mem_movesOut ?_ ?_).trans (svmRunGuest_around hg).1 <;> cases g <;>
      first | exact absurd rfl hg | decide
  have hstarts := @starts_iff _ (fun f => s.host.mem f.offset) hload
  have hleaves := @leaves_iff _ (fun f => (svmMovesOut (svmRunGuest exit s)).host.mem f.offset)
    haround
  constructor
  · rintro ⟨⟨hst, hlv, -⟩, hfl, hflx⟩
    obtain ⟨hr, ha⟩ := hstarts.1 hst
    obtain ⟨hr', ha'⟩ := hleaves.1 hlv
    exact ⟨hr, hr', hrax.symm.trans ha, hrflags.symm.trans hfl, ha'.symm.trans hkeep.1,
      hflx.symm.trans hkeep.2⟩
  · rintro ⟨hr, hr', ha, hfl, ha', hfl'⟩
    refine ⟨⟨hstarts.2 ⟨hr, hrax.trans ha⟩, hleaves.2 ⟨hr', hkeep.1.trans ha'.symm⟩, ?_⟩,
      hrflags.trans hfl, hkeep.2.trans hfl'.symm⟩
    intro g
    by_cases hg : g = .rax
    · rw [hg]
      exact svmRunGuest_rax s exit
    · exact (svmRunGuest_around hg).2

/-- The exchange around VM entry, in both copies : for all values of the host's registers, of
`regs`, of the VMCB and of what the guest leaves, it does what it is for exactly if the three
rotated values are the same on the way in and on the way out, and under `svm` the two moved values
are in the save area anyway and come back as they went. -/
theorem gprExchange_iff (regs : ℕ → BitVec 64) (before exit : Gpr → BitVec 64) (s : SvmState)
    (svmExit : SvmExit) :
    (VmxExchange regs before exit ↔
      Unrotated (regs RegsField.rbx.offset) (regs RegsField.rcx.offset)
          (regs RegsField.rdx.offset) ∧
        Unrotated (exit .rbx) (exit .rcx) (exit .rdx)) ∧
      (SvmExchange s svmExit ↔ SvmHidden s svmExit) :=
  ⟨vmxExchange_iff regs before exit, svmExchange_iff s svmExit⟩

/-- With `1` in `regs.rbx` and zeros everywhere else the guest starts with `1` in `rdx`. -/
theorem gprExchange_rotates : ¬∀ (regs : ℕ → BitVec 64) (before exit : Gpr → BitVec 64)
    (s : SvmState) (svmExit : SvmExit), VmxExchange regs before exit ∧ SvmExchange s svmExit := by
  intro h
  have hbx := (h (fun o => if o = RegsField.rbx.offset then 1 else 0) (fun _ => 0) (fun _ => 0)
    ⟨⟨fun _ => 0, fun _ => 0⟩, fun _ => 0⟩ ⟨fun _ => 0, 0, fun _ => 0⟩).1.starts .rbx
  revert hbx
  decide

end AcrnUt
