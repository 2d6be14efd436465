import Mathlib.Data.List.Pairwise
import Mathlib.Logic.Function.Basic
import Mathlib.Tactic

/-!
# The current VMCS

The fields of the current VMCS as `vmcs_read` and `vmcs_write` of `x86/vmx.h` reach them. The
bits of an encoding say how wide its field is and what the field is for, and an odd encoding
names the upper half of a field of 64 bits. So a VMCS is a cell for each encoding, and the full
encoding of a field of 64 bits reaches two of them (`Encoding.cells`).

A test runs on a machine (`VmxMachine`) and may end without coming back (`VmcsTest`). `Steps` is its
frame rule : it follows in which fields the machine may still differ from a given VMCS. A write
adds a field to them (`steps_write`), and writing the value of the given VMCS takes it away
again (`steps_settle`). The launch of the VMCS changes exit information alone.
-/

set_option linter.unusedSectionVars false

namespace AcrnUt

/-! ## Encodings -/

/-- A number of `enum Encoding`. -/
structure Encoding where
  code : BitVec 32
  deriving DecidableEq

/-- What a field is for, bits 11:10 of its encoding. -/
inductive VmcsArea where
  | control
  | exitInfo
  | guestState
  | hostState
  deriving DecidableEq

namespace Encoding

/-- The area of the field. VM-entry fields are control fields. -/
def area (e : Encoding) : VmcsArea :=
  match e.code.extractLsb' 10 2 with
  | 0 => .control
  | 1 => .exitInfo
  | 2 => .guestState
  | _ => .hostState

/-- The width of the field, bits 14:13 : the last of the four is the natural width. -/
def width (e : Encoding) : ℕ :=
  match e.code.extractLsb' 13 2 with
  | 0 => 16
  | 2 => 32
  | _ => 64

/-- A full access to 64 bits. -/
def wide (e : Encoding) : Bool :=
  !e.code.getLsbD 0 && e.width == 64

/-- The encoding of the upper half. -/
def high (e : Encoding) : Encoding :=
  ⟨e.code ||| 1⟩

/-- A cell holds one half of a field of 64 bits, or all of a smaller one. -/
def cellWidth (e : Encoding) : ℕ :=
  min e.width 32

/-- The cells that the encoding reaches. -/
def cells (e : Encoding) : List Encoding :=
  if e.wide then [e, e.high] else [e]

/-- What a field keeps of a value. -/
def fit (e : Encoding) (x : BitVec 64) : BitVec 64 :=
  if e.wide then x else (x.setWidth e.cellWidth).setWidth 64

/-- A control, guest-state or VM-entry field. -/
def kept (e : Encoding) : Bool :=
  e.area = .control || e.area = .guestState

/-- `VPID`. -/
def vpid : Encoding := ⟨0x0000⟩

/-- `PINV`, the posted-interrupt notification vector. -/
def pinv : Encoding := ⟨0x0002⟩

/-- `APIC_VIRT_ADDR`. -/
def apicVirtAddr : Encoding := ⟨0x2012⟩

/-- `APIC_ACCS_ADDR`. -/
def apicAccsAddr : Encoding := ⟨0x2014⟩

/-- `POSTED_INTR_DESC_ADDR`. -/
def postedIntrDescAddr : Encoding := ⟨0x2016⟩

/-- `PIN_CONTROLS`. -/
def pinControls : Encoding := ⟨0x4000⟩

/-- `CPU_EXEC_CTRL0`. -/
def cpuExecCtrl0 : Encoding := ⟨0x4002⟩

/-- `EXI_CONTROLS`. -/
def exiControls : Encoding := ⟨0x400c⟩

/-- `ENT_INTR_INFO`. -/
def entIntrInfo : Encoding := ⟨0x4016⟩

/-- `ENT_INTR_ERROR`. -/
def entIntrError : Encoding := ⟨0x4018⟩

/-- `ENT_INST_LEN`. -/
def entInstLen : Encoding := ⟨0x401a⟩

/-- `TPR_THRESHOLD`. -/
def tprThreshold : Encoding := ⟨0x401c⟩

/-- `CPU_EXEC_CTRL1`. -/
def cpuExecCtrl1 : Encoding := ⟨0x401e⟩

/-- `VMX_INST_ERROR`. -/
def vmxInstError : Encoding := ⟨0x4400⟩

/-- `EXI_REASON`. -/
def exiReason : Encoding := ⟨0x4402⟩

/-- `GUEST_CR0`. -/
def guestCr0 : Encoding := ⟨0x6800⟩

/-- `HOST_RSP`. -/
def hostRsp : Encoding := ⟨0x6c14⟩

/-- `HOST_RIP`. -/
def hostRip : Encoding := ⟨0x6c16⟩

instance (e f : Encoding) : Decidable (e.cells.Disjoint f.cells) :=
  decidable_of_iff (∀ c ∈ e.cells, c ∉ f.cells)
    ⟨fun h c hc => h c hc, fun h _ hc hf => h hc hf⟩

theorem high_ne {e : Encoding} (h : e.wide = true) : e.high ≠ e := by
  intro he
  have hbit : e.high.code.getLsbD 0 = e.code.getLsbD 0 := by rw [he]
  simp [high] at hbit
  simp [wide, ← hbit] at h

theorem width_high (e : Encoding) : e.high.width = e.width := by
  have h : e.high.code.extractLsb' 13 2 = e.code.extractLsb' 13 2 := by
    ext i hi
    simp [high, BitVec.getLsbD_one]
  simp only [width, h]

theorem area_high (e : Encoding) : e.high.area = e.area := by
  have h : e.high.code.extractLsb' 10 2 = e.code.extractLsb' 10 2 := by
    ext i hi
    simp [high, BitVec.getLsbD_one]
  simp only [area, h]

theorem cellWidth_le (e : Encoding) : e.cellWidth ≤ 32 :=
  min_le_right _ _

/-- Both halves of a field of 64 bits are cells of 32. -/
theorem cellWidth_wide {e : Encoding} (h : e.wide = true) :
    e.cellWidth = 32 ∧ e.high.cellWidth = 32 := by
  have hw : e.width = 64 := by simpa using (Bool.and_eq_true_iff.mp h).2
  simp [cellWidth, width_high, hw]

/-- The cells of a field belong to the area of the field. -/
theorem kept_of_mem_cells {e c : Encoding} (hc : c ∈ e.cells) : c.kept = e.kept := by
  unfold cells at hc
  split at hc <;> simp only [List.mem_cons, List.not_mem_nil, or_false] at hc
  · rcases hc with rfl | rfl
    · rfl
    · simp [kept, area_high]
  · rw [hc]

/-- A field of 32 bits or fewer keeps no more of a value than a `u32` does. -/
theorem fit_u32 {e : Encoding} (he : e.wide = false) (x : BitVec 64) :
    e.fit ((x.setWidth 32).setWidth 64) = e.fit x := by
  have h := e.cellWidth_le
  simp only [fit, he, Bool.false_eq_true, if_false]
  congr 1
  ext i hi
  have : i < 32 := by omega
  simp [this]

end Encoding

/-! ## The fields -/

/-- The current VMCS, a cell for each encoding. -/
abbrev Vmcs : Type :=
  (e : Encoding) → BitVec e.cellWidth

namespace Vmcs

/-- What `vmread` of a field gives. -/
def read (v : Vmcs) (e : Encoding) : BitVec 64 :=
  if e.wide then (v e.high).setWidth 32 ++ (v e).setWidth 32 else (v e).setWidth 64

/-- The VMCS after `vmwrite` of a field. -/
def write (v : Vmcs) (e : Encoding) (x : BitVec 64) : Vmcs :=
  if e.wide then
    Function.update (Function.update v e (x.setWidth _)) e.high ((x >>> 32).setWidth _)
  else Function.update v e (x.setWidth _)

/-- The VMCS with the exit information of another one. -/
def setExitInfo (v w : Vmcs) : Vmcs :=
  fun e => if e.area = .exitInfo then w e else v e

theorem setWidth_inj {k n : ℕ} (hk : k ≤ n) {x y : BitVec k} (h : x.setWidth n = y.setWidth n) :
    x = y := by
  have := congrArg (BitVec.setWidth k) h
  rwa [BitVec.setWidth_setWidth_of_le _ hk, BitVec.setWidth_setWidth_of_le _ hk,
    BitVec.setWidth_eq, BitVec.setWidth_eq] at this

theorem append_inj {m n : ℕ} {x x' : BitVec m} {y y' : BitVec n} (h : x ++ y = x' ++ y') :
    x = x' ∧ y = y' := by
  have hy := congrArg (BitVec.setWidth n) h
  rw [BitVec.setWidth_append_eq_right, BitVec.setWidth_append_eq_right] at hy
  subst hy
  exact ⟨(BitVec.append_left_inj y).mp h, rfl⟩

theorem write_of_notMem (v : Vmcs) {e c : Encoding} (x : BitVec 64) (hc : c ∉ e.cells) :
    v.write e x c = v c := by
  unfold Encoding.cells at hc
  unfold write
  split at hc <;> simp only [List.mem_cons, List.not_mem_nil, or_false, not_or] at hc
  · rename_i hw
    rw [if_pos hw, Function.update_of_ne hc.2, Function.update_of_ne hc.1]
  · rename_i hw
    rw [if_neg hw, Function.update_of_ne hc]

theorem read_write (v : Vmcs) (e : Encoding) (x : BitVec 64) :
    (v.write e x).read e = e.fit x := by
  unfold read write Encoding.fit
  split
  · rename_i hw
    obtain ⟨h, hh⟩ := Encoding.cellWidth_wide hw
    rw [Function.update_self, Function.update_of_ne (Encoding.high_ne hw).symm,
      Function.update_self, BitVec.setWidth_setWidth_of_le _ hh.ge,
      BitVec.setWidth_setWidth_of_le _ h.ge]
    ext i hi
    rw [BitVec.getElem_append]
    split
    · simp [BitVec.getLsbD_eq_getElem hi]
    · simp [show 32 + (i - 32) = i by omega, BitVec.getLsbD_eq_getElem hi]
  · rw [Function.update_self]

/-- A field keeps all of what it reads as. -/
theorem fit_read (v : Vmcs) (e : Encoding) : e.fit (v.read e) = v.read e := by
  have h := e.cellWidth_le
  unfold read Encoding.fit
  split
  · rfl
  · rw [@BitVec.setWidth_setWidth_of_le _ e.cellWidth 64 _ (by omega), BitVec.setWidth_eq]

/-- A field reads alike when its cells are alike. -/
theorem read_congr {v w : Vmcs} {e : Encoding} (h : ∀ c ∈ e.cells, w c = v c) :
    w.read e = v.read e := by
  unfold Encoding.cells at h
  unfold read
  split
  · rename_i hw
    rw [if_pos hw] at h
    rw [h e (by simp), h e.high (by simp)]
  · rename_i hw
    rw [if_neg hw] at h
    rw [h e (by simp)]

/-- Nothing of a field is lost in reading it. -/
theorem eq_of_read {v w : Vmcs} {e c : Encoding} (h : w.read e = v.read e) (hc : c ∈ e.cells) :
    w c = v c := by
  unfold Encoding.cells at hc
  unfold read at h
  split at hc <;> simp only [List.mem_cons, List.not_mem_nil, or_false] at hc
  · rename_i hw
    obtain ⟨hwidth, hhigh⟩ := Encoding.cellWidth_wide hw
    rw [if_pos hw, if_pos hw] at h
    obtain ⟨h₁, h₂⟩ := append_inj h
    rcases hc with rfl | rfl
    · exact setWidth_inj hwidth.le h₂
    · exact setWidth_inj hhigh.le h₁
  · rename_i hw
    rw [if_neg hw, if_neg hw] at h
    subst hc
    have := c.cellWidth_le
    exact setWidth_inj (by omega) h

end Vmcs

/-! ## The machine -/

/-- The `set` and `clr` words of a capability MSR of the VMX controls. -/
structure VmxCtrlMsr where
  val : BitVec 64

/-- The bits that may be one. -/
def VmxCtrlMsr.clr (m : VmxCtrlMsr) : BitVec 32 :=
  m.val.extractLsb' 32 32

/-- What the tests run on. A field that can be written can be read. -/
structure Platform where
  reads : Encoding → Bool
  writes : Encoding → Bool
  reads_of_writes : ∀ e, writes e = true → reads e = true
  /-- What a local holds that no `vmread` has filled -/
  stale : Vmcs → Encoding → BitVec 64
  /-- Whether `vmlaunch` gets as far as the guest state, and the exit information after it -/
  launch : Vmcs → (BitVec 64 → BitVec 8) → Bool × Vmcs
  ctrlPinRev : VmxCtrlMsr
  ctrlCpuRev0 : VmxCtrlMsr
  ctrlCpuRev1 : VmxCtrlMsr
  ctrlExitRev : VmxCtrlMsr
  /-- `fwcfg_get_u64(FW_CFG_RAM_SIZE)` -/
  ramSize : BitVec 64
  /-- `cpuid_maxphyaddr()` -/
  maxphyaddr : ℕ
  /-- The physical address of the page that `alloc_page` hands out -/
  page : BitVec 64
  /-- The address of the label `success`, and `rsp` there -/
  success : BitVec 64
  rsp : BitVec 64

/-- A call of `report_xfail`. -/
structure Report where
  xfail : Bool
  pass : Bool
  deriving DecidableEq

/-- The VMCS, the bytes of memory by physical address, and the reports, newest first. -/
structure VmxMachine where
  vmcs : Vmcs
  mem : BitVec 64 → BitVec 8
  reports : List Report

/-- A test, which may end without coming back to its caller. -/
abbrev VmcsTest := StateT VmxMachine Option

variable (p : Platform)

/-- What `vmcs_read` gives. -/
def Platform.value (v : Vmcs) (e : Encoding) : BitVec 64 :=
  if p.reads e then v.read e else p.stale v e

/-- The VMCS with a value in a field, where the field is there to be written. -/
def Platform.put (v : Vmcs) (e : Encoding) (x : BitVec 64) : Vmcs :=
  if p.writes e then v.write e x else v

/-- `vmcs_read`. -/
def vmcsRead (e : Encoding) : VmcsTest (BitVec 64) :=
  fun m => some (p.value m.vmcs e, m)

/-- `vmcs_read` into a `u32`. -/
def vmcsReadU32 (e : Encoding) : VmcsTest (BitVec 32) :=
  fun m => some ((p.value m.vmcs e).setWidth 32, m)

/-- `vmcs_write`. A `vmwrite` that fails leaves its error, 12, in the VMCS. -/
def vmcsWrite (e : Encoding) (x : BitVec 64) : VmcsTest Unit :=
  fun m => some ((), { m with
    vmcs := if p.writes e then m.vmcs.write e x else m.vmcs.write .vmxInstError 12 })

/-- `vmlaunch` : the exit information alone changes. -/
def vmlaunch : VmcsTest Bool :=
  fun m => some ((p.launch m.vmcs m.mem).1,
    { m with vmcs := m.vmcs.setExitInfo (p.launch m.vmcs m.mem).2 })

/-- `report_xfail`. -/
def reportXfail (xfail pass : Bool) : VmcsTest Unit :=
  fun m => some ((), { m with reports := ⟨xfail, pass⟩ :: m.reports })

/-- `__abort_test` and `test_skip`, which jump out of the test. -/
def abortTest : VmcsTest Unit :=
  fun _ => none

/-- A store of a byte to memory. -/
def poke (a : BitVec 64) (x : BitVec 8) : VmcsTest Unit :=
  fun m => some ((), { m with mem := Function.update m.mem a x })

/-- `TEST_ASSERT`. -/
def testAssert (cond : Bool) : VmcsTest Unit :=
  if cond then reportXfail false true else abortTest

/-- `vmlaunch_succeeds`. -/
def vmlaunchSucceeds : VmcsTest Bool := do
  vmcsWrite p ⟨~~~0⟩ 0
  vmcsWrite p .hostRip p.success
  vmcsWrite p .hostRsp p.rsp
  let success ← vmlaunch p
  if success then
    let reason ← vmcsRead p .exiReason
    -- `VMX_FAIL_STATE | VMX_ENTRY_FAILURE`
    testAssert (reason == 33 ||| 1 <<< 31)
  return success

/-- `test_vmx_controls`. -/
def testVmxControls (controlsValid xfail : Bool) : VmcsTest Unit := do
  let success ← vmlaunchSucceeds p
  reportXfail xfail (success == controlsValid)
  if !success then
    let vmxInstErr ← vmcsRead p .vmxInstError
    -- `VMXERR_ENTRY_INVALID_CONTROL_FIELD`
    reportXfail false (vmxInstErr.setWidth 32 == 7#32)

/-! ## Where a machine differs from a VMCS -/

/-- Off the fields of a list, the control, guest-state and VM-entry fields are those of `v`. -/
def Agree (v : Vmcs) (l : List Encoding) (w : Vmcs) : Prop :=
  ∀ c : Encoding, c.kept = true → (∀ e ∈ l, p.writes e = true → c ∉ e.cells) → w c = v c

/-- From a VMCS that agrees with `v` off `l`, the test leaves one that agrees off `l'`. -/
def Steps {α : Type} (v : Vmcs) (l : List Encoding) (t : VmcsTest α) (l' : List Encoding) : Prop :=
  ∀ m a m', Agree p v l m.vmcs → t m = some (a, m') → Agree p v l' m'.vmcs

variable {p}
variable {α β : Type} {u v w : Vmcs} {k l l' : List Encoding} {e : Encoding} {x : BitVec 64}

theorem Agree.refl (v : Vmcs) (l : List Encoding) : Agree p v l v :=
  fun _ _ _ => rfl

theorem Agree.mono (h : Agree p v l w) (hl : l ⊆ l') : Agree p v l' w :=
  fun c hc hn => h c hc fun e he => hn e (hl he)

theorem Agree.trans (huv : Agree p u l v) (hvw : Agree p v l w) : Agree p u l w :=
  fun c hc hn => (hvw c hc hn).trans (huv c hc hn)

theorem Agree.read_eq (h : Agree p v l w) (he : e.kept = true)
    (hl : ∀ f ∈ l, e.cells.Disjoint f.cells) : w.read e = v.read e := by
  refine Vmcs.read_congr fun c hc => ?_
  refine h c (by rwa [Encoding.kept_of_mem_cells hc]) fun f hf _ => ?_
  exact hl f hf hc

theorem VmcsTest.bind_apply {t : VmcsTest α} {f : α → VmcsTest β} {m m₁ : VmxMachine} {a : α}
    (h : t m = some (a, m₁)) : (t >>= f) m = f a m₁ := by
  simp only [Bind.bind, StateT.bind, h, Option.bind_some]

/-- A run of two parts passes a machine between them. -/
theorem VmcsTest.bind_eq_some {t : VmcsTest α} {f : α → VmcsTest β} {m m' : VmxMachine} {b : β}
    (h : (t >>= f) m = some (b, m')) :
    ∃ a m₁, t m = some (a, m₁) ∧ f a m₁ = some (b, m') := by
  simp only [StateT.bind, Bind.bind, Option.bind_eq_some_iff] at h
  obtain ⟨⟨a, m₁⟩, ht, hf⟩ := h
  exact ⟨a, m₁, ht, hf⟩

theorem Steps.bind {t : VmcsTest α} {f : α → VmcsTest β} (ht : Steps p v k t l)
    (hf : ∀ a, Steps p v l (f a) l') : Steps p v k (t >>= f) l' := by
  intro m b m' hm hrun
  obtain ⟨a, m₁, ht₁, hf₁⟩ := VmcsTest.bind_eq_some hrun
  exact hf a m₁ b m' (ht m a m₁ hm ht₁) hf₁

theorem Steps.mono {t : VmcsTest α} (ht : Steps p v l t k) (hk : k ⊆ l') : Steps p v l t l' :=
  fun m a m' hm hrun => (ht m a m' hm hrun).mono hk

theorem Steps.weaken {t : VmcsTest α} (l' : List Encoding) (hl : l ⊆ l')
    (ht : Steps p v l' t k) : Steps p v l t k :=
  fun m a m' hm hrun => ht m a m' (hm.mono hl) hrun

/-- A test that leaves the fields as it found them keeps what is known of them. -/
theorem Steps.of_agree {t : VmcsTest α}
    (ht : ∀ m a m', t m = some (a, m') → Agree p m.vmcs [] m'.vmcs) : Steps p v l t l :=
  fun m a m' hm hrun => hm.trans ((ht m a m' hrun).mono (List.nil_subset _))

/-! ## The rules -/

/-- A write to a field that cannot be written, or off the cells of the field, changes nothing
but an error. -/
theorem vmcsWrite_apply_of_notMem {m m' : VmxMachine} {a : Unit} {c : Encoding}
    (hrun : vmcsWrite p e x m = some (a, m')) (hc : c.kept = true)
    (hn : p.writes e = true → c ∉ e.cells) : m'.vmcs c = m.vmcs c := by
  obtain rfl := (Prod.ext_iff.mp (Option.some.inj hrun)).2.symm
  dsimp only
  split
  · rename_i hw
    exact Vmcs.write_of_notMem _ _ (hn hw)
  · refine Vmcs.write_of_notMem _ _ fun hmem => ?_
    rw [Encoding.kept_of_mem_cells hmem] at hc
    exact Bool.false_ne_true hc

theorem steps_read : Steps p v l (vmcsRead p e) l := by
  intro m a m' hm hrun
  obtain rfl := (Prod.ext_iff.mp (Option.some.inj hrun)).2
  exact hm

theorem steps_readU32 : Steps p v l (vmcsReadU32 p e) l := by
  intro m a m' hm hrun
  obtain rfl := (Prod.ext_iff.mp (Option.some.inj hrun)).2
  exact hm

/-- A `u32` read of a field that is as in `v` gives what the field has there. -/
theorem Steps.readU32_bind {f : BitVec 32 → VmcsTest β} (he : e.kept = true)
    (hwide : e.wide = false) (hl : ∀ g ∈ l, e.cells.Disjoint g.cells)
    (hf : ∀ y, (p.writes e = true → v.read e = e.fit (y.setWidth 64)) → Steps p v l (f y) l') :
    Steps p v l (vmcsReadU32 p e >>= f) l' := by
  intro m b m' hm hrun
  refine hf _ (fun hw => ?_) m b m' hm hrun
  rw [Encoding.fit_u32 hwide, Platform.value, if_pos (p.reads_of_writes e hw), Vmcs.fit_read,
    hm.read_eq he hl]

/-- After a write to a field of the list the VMCS agrees off the list as before. -/
theorem steps_write (he : e ∈ l) : Steps p v l (vmcsWrite p e x) l := by
  intro m a m' hm hrun c hc hn
  rw [vmcsWrite_apply_of_notMem hrun hc (hn e he)]
  exact hm c hc hn

/-- A field of the host state is of no account. -/
theorem steps_write_host (he : e.kept = false) : Steps p v l (vmcsWrite p e x) l := by
  intro m a m' hm hrun c hc hn
  rw [vmcsWrite_apply_of_notMem hrun hc fun _ hmem => ?_]
  · exact hm c hc hn
  · rw [Encoding.kept_of_mem_cells hmem, he] at hc
    exact Bool.false_ne_true hc

/-- Writing the value that the field has in `v` takes the field off the list. -/
theorem steps_settle (l' : List Encoding) (hx : p.writes e = true → v.read e = e.fit x)
    (hl : ∀ f ∈ l, f = e ∨ f ∈ l') : Steps p v l (vmcsWrite p e x) l' := by
  intro m a m' hm hrun c hc hn
  by_cases hmem : p.writes e = true ∧ c ∈ e.cells
  · obtain ⟨hw, hmem⟩ := hmem
    obtain rfl := (Prod.ext_iff.mp (Option.some.inj hrun)).2
    refine Vmcs.eq_of_read ?_ hmem
    simp only [hw, if_true]
    rw [Vmcs.read_write, hx hw]
  · rw [vmcsWrite_apply_of_notMem hrun hc fun hw h => hmem ⟨hw, h⟩]
    refine hm c hc fun f hf hw h => ?_
    rcases hl f hf with rfl | hf'
    · exact hmem ⟨hw, h⟩
    · exact hn f hf' hw h

theorem steps_pure {a : α} : Steps p v l (pure a) l := by
  intro m b m' hm hrun
  obtain rfl := (Prod.ext_iff.mp (Option.some.inj hrun)).2
  exact hm

theorem steps_reportXfail {xfail pass : Bool} : Steps p v l (reportXfail xfail pass) l := by
  intro m a m' hm hrun
  obtain rfl := (Prod.ext_iff.mp (Option.some.inj hrun)).2
  exact hm

theorem steps_poke {a : BitVec 64} {y : BitVec 8} : Steps p v l (poke a y) l := by
  intro m b m' hm hrun
  obtain rfl := (Prod.ext_iff.mp (Option.some.inj hrun)).2
  exact hm

theorem steps_abortTest : Steps p v l abortTest l' :=
  fun _ _ _ _ hrun => nomatch hrun

theorem steps_vmlaunch : Steps p v l (vmlaunch p) l := by
  intro m a m' hm hrun c hc hn
  obtain rfl := (Prod.ext_iff.mp (Option.some.inj hrun)).2
  have harea : c.area ≠ .exitInfo := by
    intro h
    simp [Encoding.kept, h] at hc
  simp only [Vmcs.setExitInfo, if_neg harea]
  exact hm c hc hn

theorem Steps.ite {t t' : VmcsTest α} {b : Prop} [Decidable b] (ht : b → Steps p v l t l')
    (hf : ¬b → Steps p v l t' l') : Steps p v l (if b then t else t') l' := by
  split
  · exact ht ‹_›
  · exact hf ‹_›

/-- What one turn of a loop keeps, all of them keep. -/
theorem Steps.forM {is : List α} {f : α → VmcsTest PUnit} (hf : ∀ i ∈ is, Steps p v l (f i) l) :
    Steps p v l (is.forM f) l := by
  induction is with
  | nil => exact steps_pure
  | cons i is ih =>
    exact .bind (hf i (by simp)) fun _ => ih fun j hj => hf j (by simp [hj])

/-- The last turn of a loop may know more. -/
theorem Steps.forM_concat {f : α → VmcsTest PUnit} (l' : List Encoding) (is : List α) (i : α)
    (hf : ∀ i ∈ is, Steps p v l (f i) l) (hi : Steps p v l (f i) l') :
    Steps p v l ((is ++ [i]).forM f) l' := by
  induction is with
  | nil => exact .bind hi fun _ => steps_pure
  | cons j is ih => exact .bind (hf j (by simp)) fun _ => ih fun k hk => hf k (by simp [hk])

theorem steps_testAssert {b : Bool} : Steps p v l (testAssert b) l :=
  .ite (fun _ => steps_reportXfail) fun _ => steps_abortTest

/-- A launch leaves the control, guest-state and VM-entry fields alone. -/
theorem steps_testVmxControls {valid xfail : Bool} :
    Steps p v l (testVmxControls p valid xfail) l := by
  have hlaunch : Steps p v l (vmlaunchSucceeds p) l := by
    refine .bind (steps_write_host rfl) fun _ => ?_
    refine .bind (steps_write_host rfl) fun _ => ?_
    refine .bind (steps_write_host rfl) fun _ => ?_
    refine .bind steps_vmlaunch fun success => .ite (fun _ => ?_) fun _ => steps_pure
    exact .bind steps_read fun _ => .bind steps_testAssert fun _ => steps_pure
  refine .bind hlaunch fun success => .bind steps_reportXfail fun _ => ?_
  refine .ite (fun _ => ?_) fun _ => steps_pure
  exact .bind steps_read fun _ => steps_reportXfail

/-- A setting is written and tried. -/
theorem Steps.write_try {valid xfail : Bool} {t : VmcsTest α} (he : e ∈ l)
    (ht : Steps p v l t l') :
    Steps p v l (vmcsWrite p e x >>= fun _ => testVmxControls p valid xfail >>= fun _ => t) l' :=
  .bind (steps_write he) fun _ => .bind steps_testVmxControls fun _ => ht

/-! ## What is left behind -/

/-- The VMCS with values in some fields, where they are there to be written. -/
def Platform.puts (p : Platform) (v : Vmcs) (fs : List (Encoding × BitVec 64)) : Vmcs :=
  fs.foldl (fun v f => p.put v f.1 f.2) v

/-- Every control, guest-state and VM-entry field reads as on entry. -/
def Restored (v w : Vmcs) : Prop :=
  ∀ e : Encoding, e.kept = true → w.read e = v.read e

/-- No cell belongs to two of the fields, and all are control, guest-state or VM-entry fields. -/
structure Apart (fs : List (Encoding × BitVec 64)) : Prop where
  kept : ∀ f ∈ fs, f.1.kept = true
  disjoint : fs.Pairwise fun f g => f.1.cells.Disjoint g.1.cells

theorem apart_nil : Apart [] :=
  ⟨by simp, by simp⟩

theorem Apart.cons {e : Encoding} {fs : List (Encoding × BitVec 64)} (h : Apart fs) (x : BitVec 64)
    (he : e.kept = true) (hd : ∀ f ∈ fs, e.cells.Disjoint f.1.cells) : Apart ((e, x) :: fs) :=
  ⟨List.forall_mem_cons.mpr ⟨he, h.kept⟩, List.pairwise_cons.mpr ⟨hd, h.disjoint⟩⟩

theorem Platform.put_apply_of_notMem {c : Encoding} (hc : p.writes e = true → c ∉ e.cells) :
    p.put v e x c = v c := by
  unfold Platform.put
  split
  · exact Vmcs.write_of_notMem _ _ (hc ‹_›)
  · rfl

theorem Platform.put_eq_self (h : p.writes e = true → v.read e = e.fit x) : p.put v e x = v := by
  unfold Platform.put
  split
  · rename_i hw
    funext c
    by_cases hc : c ∈ e.cells
    · exact Vmcs.eq_of_read (by rw [Vmcs.read_write, h hw]) hc
    · exact Vmcs.write_of_notMem _ _ hc
  · rfl

theorem Platform.read_put_self (hw : p.writes e = true) : (p.put v e x).read e = e.fit x := by
  rw [Platform.put, if_pos hw, Vmcs.read_write]

theorem Platform.puts_apply_of_notMem {fs : List (Encoding × BitVec 64)} {c : Encoding}
    (hc : ∀ f ∈ fs, p.writes f.1 = true → c ∉ f.1.cells) : p.puts v fs c = v c := by
  induction fs generalizing v with
  | nil => rfl
  | cons f fs ih =>
    rw [Platform.puts, List.foldl_cons, ← Platform.puts, ih fun g hg => hc g (by simp [hg])]
    exact Platform.put_apply_of_notMem (hc f (by simp))

theorem Platform.read_puts_of_disjoint {fs : List (Encoding × BitVec 64)}
    (h : ∀ f ∈ fs, e.cells.Disjoint f.1.cells) : (p.puts v fs).read e = v.read e :=
  Vmcs.read_congr fun _ hc => puts_apply_of_notMem fun f hf _ hmem => h f hf hc hmem

/-- Off the fields that are put, the VMCS is as it was. -/
theorem agree_puts (fs : List (Encoding × BitVec 64)) :
    Agree p (p.puts v fs) (fs.map Prod.fst) v :=
  fun _ _ hn => (Platform.puts_apply_of_notMem fun f hf =>
    hn f.1 (List.mem_map_of_mem hf)).symm

/-- A field that is put keeps its value. -/
theorem Platform.read_puts_of_mem {fs : List (Encoding × BitVec 64)} (h : Apart fs)
    (hf : (e, x) ∈ fs) (hw : p.writes e = true) : (p.puts v fs).read e = e.fit x := by
  induction fs generalizing v with
  | nil => simp at hf
  | cons g fs ih =>
    obtain ⟨hd, hp⟩ := List.pairwise_cons.mp h.disjoint
    rw [Platform.puts, List.foldl_cons, ← Platform.puts]
    rcases List.mem_cons.mp hf with rfl | hf
    · rw [Platform.read_puts_of_disjoint hd, Platform.read_put_self hw]
    · exact ih ⟨fun g hg => h.kept g (by simp [hg]), hp⟩ hf

theorem Platform.put_apply_of_mem {c : Encoding} (hw : p.writes e = true) (hc : c ∈ e.cells) :
    p.put v e x c = p.put w e x c :=
  Vmcs.eq_of_read (by rw [Platform.read_put_self hw, Platform.read_put_self hw]) hc

theorem Agree.put (h : Agree p v [] w) : Agree p (p.put v e x) [] (p.put w e x) := by
  intro c hc hn
  by_cases hmem : p.writes e = true ∧ c ∈ e.cells
  · exact Platform.put_apply_of_mem hmem.1 hmem.2
  · have hoff : p.writes e = true → c ∉ e.cells := fun hw hce => hmem ⟨hw, hce⟩
    rw [Platform.put_apply_of_notMem hoff, Platform.put_apply_of_notMem hoff]
    exact h c hc hn

theorem Agree.puts (h : Agree p v [] w) (fs : List (Encoding × BitVec 64)) :
    Agree p (p.puts v fs) [] (p.puts w fs) := by
  induction fs generalizing v w with
  | nil => exact h
  | cons f fs ih => exact ih h.put

/-- What a `u32` read on entry is what the field has, if it is none of those that are put. -/
theorem read_puts_eq_u32 {fs : List (Encoding × BitVec 64)} (he : e.wide = false)
    (hd : ∀ f ∈ fs, e.cells.Disjoint f.1.cells) (hw : p.writes e = true) :
    (p.puts v fs).read e = e.fit (((p.value v e).setWidth 32).setWidth 64) := by
  rw [Encoding.fit_u32 he, Platform.read_puts_of_disjoint hd, Platform.value,
    if_pos (p.reads_of_writes e hw), Vmcs.fit_read]

/-- Likewise what a `u64` read on entry. -/
theorem read_puts_eq {fs : List (Encoding × BitVec 64)}
    (hd : ∀ f ∈ fs, e.cells.Disjoint f.1.cells) (hw : p.writes e = true) :
    (p.puts v fs).read e = e.fit (p.value v e) := by
  rw [Platform.read_puts_of_disjoint hd, Platform.value, if_pos (p.reads_of_writes e hw),
    Vmcs.fit_read]

/-- Writing back a `u32` read on entry takes the field off the list. -/
theorem steps_restore {fs : List (Encoding × BitVec 64)} (l' : List Encoding)
    (he : e.wide = false) (hd : ∀ f ∈ fs, e.cells.Disjoint f.1.cells)
    (hl : ∀ f ∈ l, f = e ∨ f ∈ l') :
    Steps p (p.puts v fs) l (vmcsWrite p e (((p.value v e).setWidth 32).setWidth 64)) l' :=
  steps_settle l' (read_puts_eq_u32 he hd) hl

/-- Writing the value that is put takes the field off the list. -/
theorem steps_leave {fs : List (Encoding × BitVec 64)} (l' : List Encoding) (h : Apart fs)
    (hf : (e, x) ∈ fs) (hl : ∀ f ∈ l, f = e ∨ f ∈ l') :
    Steps p (p.puts v fs) l (vmcsWrite p e x) l' :=
  steps_settle l' (Platform.read_puts_of_mem h hf) hl

/-- A run from `m` whose steps settle all but the fields put there. -/
theorem Steps.agree {m m' : VmxMachine} {a : α} {t : VmcsTest α} (fs : List (Encoding × BitVec 64))
    (ht : Steps p (p.puts m.vmcs fs) (fs.map Prod.fst) t []) (hrun : t m = some (a, m')) :
    Agree p (p.puts m.vmcs fs) [] m'.vmcs :=
  ht m a m' (agree_puts fs) hrun

/-- Values that are put leave the fields as they were exactly if they are the values there. -/
theorem restored_puts_iff {fs : List (Encoding × BitVec 64)} (h : Apart fs) :
    Restored v (p.puts v fs) ↔ ∀ f ∈ fs, p.writes f.1 = true → v.read f.1 = f.1.fit f.2 := by
  induction fs generalizing v with
  | nil => simp [Restored, Platform.puts]
  | cons f fs ih =>
    obtain ⟨hd, hp⟩ := List.pairwise_cons.mp h.disjoint
    have ih := @ih v ⟨fun g hg => h.kept g (by simp [hg]), hp⟩
    have hcons : p.puts v (f :: fs) = p.puts (p.put v f.1 f.2) fs := rfl
    constructor
    · intro hr
      have hf : p.writes f.1 = true → v.read f.1 = f.1.fit f.2 := by
        intro hw
        rw [← hr f.1 (h.kept f (by simp)), Platform.read_puts_of_mem h List.mem_cons_self hw]
      rw [hcons, Platform.put_eq_self hf] at hr
      exact List.forall_mem_cons.mpr ⟨hf, ih.mp hr⟩
    · intro hv
      obtain ⟨hf, hfs⟩ := List.forall_mem_cons.mp hv
      rw [hcons, Platform.put_eq_self hf]
      exact ih.mpr hfs

/-- Fields that agree are restored together. -/
theorem Agree.restored_iff (h : Agree p v [] w) : Restored u w ↔ Restored u v := by
  have hread (e : Encoding) (he : e.kept = true) : w.read e = v.read e :=
    h.read_eq he (by simp)
  exact forall₂_congr fun e he => by rw [hread e he]

end AcrnUt
