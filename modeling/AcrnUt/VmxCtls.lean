import AcrnUt.Vmcs

/-!
# Sub-tests of the VMX controls

The checks of the VM-execution and VM-entry controls in `x86/vmx_tests.c`. Each sub-test
saves some controls, writes settings that a launch accepts or refuses, and puts back what it
saved. The texts of the reports are left out.

For each of them one theorem gives the VMCS that it leaves : that of the entry, with values in
the few fields that it does not put back.
-/

set_option linter.unusedSectionVars false

namespace AcrnUt

/-! ## The bits -/

/-- `CPU_TPR_SHADOW`. -/
def cpuTprShadow : BitVec 32 := 1 <<< 21

/-- `CPU_SECONDARY`. -/
def cpuSecondary : BitVec 32 := 1 <<< 31

/-- `CPU_VIRT_APIC_ACCESSES`. -/
def cpuVirtApicAccesses : BitVec 32 := 1 <<< 0

/-- `CPU_VIRT_X2APIC`. -/
def cpuVirtX2apic : BitVec 32 := 1 <<< 4

/-- `CPU_VPID`. -/
def cpuVpid : BitVec 32 := 1 <<< 5

/-- `CPU_URG`. -/
def cpuUrg : BitVec 32 := 1 <<< 7

/-- `CPU_APIC_REG_VIRT`. -/
def cpuApicRegVirt : BitVec 32 := 1 <<< 8

/-- `CPU_VINTD`. -/
def cpuVintd : BitVec 32 := 1 <<< 9

/-- `PIN_EXTINT`. -/
def pinExtint : BitVec 32 := 1 <<< 0

/-- `PIN_POST_INTR`. -/
def pinPostIntr : BitVec 32 := 1 <<< 7

/-- `EXI_INTA`. -/
def exiInta : BitVec 32 := 1 <<< 15

/-- `INTR_INFO_VALID_MASK`. -/
def intrInfoValidMask : BitVec 32 := 0x80000000

/-- `INTR_INFO_DELIVER_CODE_MASK`. -/
def intrInfoDeliverCodeMask : BitVec 32 := 0x800

/-- `INTR_TYPE_EXT_INTR`. -/
def intrTypeExtIntr : BitVec 32 := 0 <<< 8

/-- `INTR_TYPE_RESERVED`. -/
def intrTypeReserved : BitVec 32 := 1 <<< 8

/-- `INTR_TYPE_NMI_INTR`. -/
def intrTypeNmiIntr : BitVec 32 := 2 <<< 8

/-- `INTR_TYPE_HARD_EXCEPTION`. -/
def intrTypeHardException : BitVec 32 := 3 <<< 8

/-- `INTR_TYPE_SOFT_INTR`. -/
def intrTypeSoftIntr : BitVec 32 := 4 <<< 8

/-- `INTR_TYPE_PRIV_SW_EXCEPTION`. -/
def intrTypePrivSwException : BitVec 32 := 5 <<< 8

/-- `INTR_TYPE_SOFT_EXCEPTION`. -/
def intrTypeSoftException : BitVec 32 := 6 <<< 8

/-- `INTR_TYPE_OTHER_EVENT`. -/
def intrTypeOtherEvent : BitVec 32 := 7 <<< 8

/-- `DE_VECTOR`. -/
def deVector : BitVec 32 := 0

/-- `DB_VECTOR`. -/
def dbVector : BitVec 32 := 1

/-- `NMI_VECTOR`. -/
def nmiVector : BitVec 32 := 2

/-- `GP_VECTOR`. -/
def gpVector : BitVec 32 := 13

/-- `X86_CR0_PE`. -/
def x86Cr0Pe : BitVec 64 := 0x00000001

/-- `X86_CR0_PG`. -/
def x86Cr0Pg : BitVec 64 := 0x80000000

variable (p : Platform)

/-! ## References to a page -/

/-- The end of the physical addresses, `1ul << cpuid_maxphyaddr()`. -/
def Platform.physEnd : BitVec 64 :=
  1 <<< p.maxphyaddr

/-- `test_vmcs_page_addr`. -/
def testVmcsPageAddr (encoding : Encoding) (ignored xfailBeyondMappedRam : Bool)
    (addr : BitVec 64) : VmcsTest Unit := do
  let xfail := xfailBeyondMappedRam && (p.ramSize - 4096).ult addr && addr.ult p.physEnd
  vmcsWrite p encoding addr
  testVmxControls p (ignored || (addr &&& 4095 == 0 && addr.ult p.physEnd)) xfail

/-- `test_vmcs_page_values`. -/
def testVmcsPageValues (encoding : Encoding) (ignored xfailBeyondMappedRam : Bool) :
    VmcsTest Unit := do
  let origVal ← vmcsRead p encoding
  (List.range 64).forM fun i =>
    testVmcsPageAddr p encoding ignored xfailBeyondMappedRam (1 <<< i)
  testVmcsPageAddr p encoding ignored xfailBeyondMappedRam 4095
  testVmcsPageAddr p encoding ignored xfailBeyondMappedRam 4096
  testVmcsPageAddr p encoding ignored xfailBeyondMappedRam (p.physEnd - 4096)
  testVmcsPageAddr p encoding ignored xfailBeyondMappedRam (-1)
  vmcsWrite p encoding origVal

/-- The writes of `test_vmcs_page_reference` that turn its control on or off : the primary
controls alone, or also the secondary ones. -/
def writeControls (controlPrimary : Bool) (primary secondary : BitVec 32) : VmcsTest Unit :=
  if controlPrimary then vmcsWrite p .cpuExecCtrl0 (primary.setWidth 64)
  else do
    vmcsWrite p .cpuExecCtrl0 (primary.setWidth 64)
    vmcsWrite p .cpuExecCtrl1 (secondary.setWidth 64)

/-- `test_vmcs_page_reference`. -/
def testVmcsPageReference (controlBit : BitVec 32) (field : Encoding)
    (xfailBeyondMappedRam controlPrimary : Bool) : VmcsTest Unit := do
  let primary ← vmcsReadU32 p .cpuExecCtrl0
  let secondary ← vmcsReadU32 p .cpuExecCtrl1
  let clr := if controlPrimary then p.ctrlCpuRev0.clr else p.ctrlCpuRev1.clr
  if clr &&& controlBit = 0 then pure ()
  else do
    let pageAddr ← vmcsRead p field
    let bit := if controlPrimary then controlBit else cpuSecondary
    writeControls p controlPrimary (primary ||| bit) (secondary ||| controlBit)
    testVmcsPageValues p field false xfailBeyondMappedRam
    writeControls p controlPrimary (primary &&& ~~~bit) (secondary &&& ~~~controlBit)
    testVmcsPageValues p field true false
    vmcsWrite p field pageAddr
    vmcsWrite p .cpuExecCtrl0 (primary.setWidth 64)

/-- `test_apic_access_addr`. -/
def testApicAccessAddr : VmcsTest Unit := do
  vmcsWrite p .apicAccsAddr p.page
  testVmcsPageReference p cpuVirtApicAccesses .apicAccsAddr false false

/-! ## APIC virtualization -/

/-- `set_bit_pattern`. -/
def setBitPattern (mask : BitVec 8) (secondary : BitVec 32) : Bool × BitVec 32 :=
  [(0, cpuVirtX2apic), (1, cpuApicRegVirt), (2, cpuVintd)].foldl
    (fun r b =>
      if mask.getLsbD b.1 ∧ p.ctrlCpuRev1.clr &&& b.2 ≠ 0 then (true, r.2 ||| b.2) else r)
    (false, secondary)

/-- The three controls that need the TPR shadow. -/
def apicBits : BitVec 32 :=
  cpuVirtX2apic ||| cpuApicRegVirt ||| cpuVintd

/-- One turn of the inner loop of `test_apic_virtual_ctls` : whether the launch is to succeed,
and the secondary controls. -/
def apicTurn (primary : BitVec 32) (j : BitVec 8) (secondary : BitVec 32) : Bool × BitVec 32 :=
  let cleared := secondary &&& ~~~apicBits
  if primary &&& cpuTprShadow ≠ 0 then (true, cleared)
  else (!(setBitPattern p j cleared).1, (setBitPattern p j cleared).2)

/-- The inner loop. -/
def apicTurns (primary : BitVec 32) : List (BitVec 8) → BitVec 32 → VmcsTest (BitVec 32)
  | [], secondary => pure secondary
  | j :: js, secondary => do
    let turn := apicTurn p primary j secondary
    vmcsWrite p .cpuExecCtrl1 (turn.2.setWidth 64)
    testVmxControls p turn.1 false
    apicTurns primary js turn.2

/-- `test_apic_virtual_ctls`. -/
def testApicVirtualCtls : VmcsTest Unit := do
  let savedPrimary ← vmcsReadU32 p .cpuExecCtrl0
  let savedSecondary ← vmcsReadU32 p .cpuExecCtrl1
  if p.ctrlCpuRev0.clr &&& (cpuSecondary ||| cpuTprShadow) ≠ cpuSecondary ||| cpuTprShadow then
    pure ()
  else do
    let primary := (savedPrimary ||| cpuSecondary) &&& ~~~cpuTprShadow
    vmcsWrite p .cpuExecCtrl0 (primary.setWidth 64)
    let secondary ← apicTurns p primary [1, 2, 3, 4, 5, 6, 7] savedSecondary
    let primary := primary ||| cpuTprShadow
    vmcsWrite p .cpuExecCtrl0 (primary.setWidth 64)
    let _ ← apicTurns p primary [1, 2, 3, 4, 5, 6, 7] secondary
    -- the second test
    let apicVirtCtls := cpuVirtX2apic ||| cpuVirtApicAccesses
    if p.ctrlCpuRev1.clr &&& apicVirtCtls ≠ apicVirtCtls then pure ()
    else do
      vmcsWrite p .cpuExecCtrl0 ((savedPrimary ||| cpuSecondary).setWidth 64)
      let secondary := savedSecondary &&& ~~~cpuVirtApicAccesses
      vmcsWrite p .cpuExecCtrl1 ((secondary &&& ~~~cpuVirtX2apic).setWidth 64)
      testVmxControls p true false
      vmcsWrite p .cpuExecCtrl1 ((secondary ||| cpuVirtApicAccesses).setWidth 64)
      testVmxControls p true false
      vmcsWrite p .cpuExecCtrl1 ((secondary ||| cpuVirtX2apic).setWidth 64)
      testVmxControls p false false
      vmcsWrite p .cpuExecCtrl1 ((secondary &&& ~~~cpuVirtApicAccesses).setWidth 64)
      testVmxControls p true false
      vmcsWrite p .cpuExecCtrl0 (savedPrimary.setWidth 64)
      vmcsWrite p .cpuExecCtrl1 (savedSecondary.setWidth 64)

/-! ## Interrupts -/

/-- `test_virtual_intr_ctls`. -/
def testVirtualIntrCtls : VmcsTest Unit := do
  let savedPrimary ← vmcsReadU32 p .cpuExecCtrl0
  let savedSecondary ← vmcsReadU32 p .cpuExecCtrl1
  let savedPin ← vmcsReadU32 p .pinControls
  if ¬(p.ctrlCpuRev1.clr &&& cpuVintd ≠ 0 ∧ p.ctrlPinRev.clr &&& pinExtint ≠ 0) then pure ()
  else do
    vmcsWrite p .cpuExecCtrl0 ((savedPrimary ||| cpuSecondary ||| cpuTprShadow).setWidth 64)
    vmcsWrite p .cpuExecCtrl1 ((savedSecondary &&& ~~~cpuVintd).setWidth 64)
    vmcsWrite p .pinControls ((savedPin &&& ~~~pinExtint).setWidth 64)
    testVmxControls p true false
    vmcsWrite p .cpuExecCtrl1 ((savedSecondary ||| cpuVintd).setWidth 64)
    testVmxControls p false false
    vmcsWrite p .pinControls ((savedPin ||| pinExtint).setWidth 64)
    testVmxControls p true false
    vmcsWrite p .pinControls ((savedPin &&& ~~~pinExtint).setWidth 64)
    testVmxControls p false false
    vmcsWrite p .cpuExecCtrl0 (savedPrimary.setWidth 64)
    vmcsWrite p .cpuExecCtrl1 (savedSecondary.setWidth 64)
    vmcsWrite p .pinControls (savedPin.setWidth 64)

/-- `test_pi_desc_addr`. -/
def testPiDescAddr (addr : BitVec 64) (ctrl : Bool) : VmcsTest Unit := do
  vmcsWrite p .postedIntrDescAddr addr
  testVmxControls p ctrl false

/-- `test_posted_intr`. -/
def testPostedIntr : VmcsTest Unit := do
  let savedPrimary ← vmcsReadU32 p .cpuExecCtrl0
  let savedSecondary ← vmcsReadU32 p .cpuExecCtrl1
  let savedPin ← vmcsReadU32 p .pinControls
  let exitCtlSaved ← vmcsReadU32 p .exiControls
  if ¬(p.ctrlPinRev.clr &&& pinPostIntr ≠ 0 ∧ p.ctrlCpuRev1.clr &&& cpuVintd ≠ 0 ∧
      p.ctrlExitRev.clr &&& exiInta ≠ 0) then pure ()
  else do
    vmcsWrite p .cpuExecCtrl0 ((savedPrimary ||| cpuSecondary ||| cpuTprShadow).setWidth 64)
    vmcsWrite p .pinControls ((savedPin ||| pinPostIntr).setWidth 64)
    let secondary := savedSecondary &&& ~~~cpuVintd
    vmcsWrite p .cpuExecCtrl1 (secondary.setWidth 64)
    testVmxControls p false false
    let secondary := secondary ||| cpuVintd
    vmcsWrite p .cpuExecCtrl1 (secondary.setWidth 64)
    testVmxControls p false false
    let exitCtl := exitCtlSaved &&& ~~~exiInta
    vmcsWrite p .exiControls (exitCtl.setWidth 64)
    testVmxControls p false false
    let exitCtl := exitCtl ||| exiInta
    vmcsWrite p .exiControls (exitCtl.setWidth 64)
    testVmxControls p true false
    let secondary := secondary &&& ~~~cpuVintd
    vmcsWrite p .cpuExecCtrl1 (secondary.setWidth 64)
    testVmxControls p false false
    let secondary := secondary ||| cpuVintd
    vmcsWrite p .cpuExecCtrl1 (secondary.setWidth 64)
    testVmxControls p true false
    -- the notification vector
    (List.range' 0 8).forM fun i => do
      vmcsWrite p .pinv ((1#16 <<< i).setWidth 64)
      testVmxControls p true false
    (List.range' 8 8).forM fun i => do
      vmcsWrite p .pinv ((1#16 <<< i).setWidth 64)
      testVmxControls p false false
    -- `vec` holds the last one of the loop
    let vec := 1#16 <<< 15 &&& ~~~(0xff#16 <<< 8)
    vmcsWrite p .pinv (vec.setWidth 64)
    testVmxControls p true false
    -- the descriptor address
    (List.range 6).forM fun i => testPiDescAddr p (1 <<< i) false
    testPiDescAddr p 0xf0 false
    testPiDescAddr p 0xff false
    testPiDescAddr p 0x0f false
    testPiDescAddr p 0x8000 true
    testPiDescAddr p 0x00 true
    testPiDescAddr p 0xc000 true
    testVmcsPageValues p .postedIntrDescAddr false false
    vmcsWrite p .cpuExecCtrl0 (savedPrimary.setWidth 64)
    vmcsWrite p .cpuExecCtrl1 (savedSecondary.setWidth 64)
    vmcsWrite p .pinControls (savedPin.setWidth 64)

/-- `test_vpid`. -/
def testVpid : VmcsTest Unit := do
  let savedPrimary ← vmcsReadU32 p .cpuExecCtrl0
  let savedSecondary ← vmcsReadU32 p .cpuExecCtrl1
  if ¬(p.ctrlCpuRev0.clr &&& cpuSecondary ≠ 0 ∧ p.ctrlCpuRev1.clr &&& cpuVpid ≠ 0) then
    -- `test_skip`
    abortTest
  else do
    vmcsWrite p .cpuExecCtrl0 ((savedPrimary ||| cpuSecondary).setWidth 64)
    vmcsWrite p .cpuExecCtrl1 ((savedSecondary &&& ~~~cpuVpid).setWidth 64)
    vmcsWrite p .vpid 0
    testVmxControls p true false
    vmcsWrite p .cpuExecCtrl1 ((savedSecondary ||| cpuVpid).setWidth 64)
    testVmxControls p false false
    (List.range 16).forM fun i => do
      vmcsWrite p .vpid ((1#16 <<< i).setWidth 64)
      testVmxControls p true false
    vmcsWrite p .cpuExecCtrl0 (savedPrimary.setWidth 64)
    vmcsWrite p .cpuExecCtrl1 (savedSecondary.setWidth 64)

/-! ## The TPR threshold -/

/-- `set_vtpr`, a store at `APIC_TASKPRI` of the virtual-APIC page. -/
def setVtpr (vtpr : BitVec 32) : VmcsTest Unit := do
  let page ← vmcsRead p .apicVirtAddr
  (List.range 4).forM fun i =>
    poke (page + 0x80 + BitVec.ofNat 64 i) (vtpr.extractLsb' (8 * i) 8)

/-- `try_tpr_threshold_and_vtpr`. -/
def tryTprThresholdAndVtpr (threshold vtpr : BitVec 32) : VmcsTest Unit := do
  let primary ← vmcsReadU32 p .cpuExecCtrl0
  let secondary ← vmcsReadU32 p .cpuExecCtrl1
  let valid :=
    if primary &&& cpuTprShadow ≠ 0 ∧ (primary &&& cpuSecondary = 0 ∨
        secondary &&& (cpuVintd ||| cpuVirtApicAccesses) = 0) then
      !((vtpr >>> 4 &&& 0xf).ult (threshold &&& 0xf))
    else true
  setVtpr p vtpr
  testVmxControls p valid false

/-- `test_vtpr_values`. -/
def testVtprValues (threshold : BitVec 32) : VmcsTest Unit := do
  tryTprThresholdAndVtpr p threshold ((threshold - 1) <<< 4)
  tryTprThresholdAndVtpr p threshold (threshold <<< 4)
  tryTprThresholdAndVtpr p threshold ((threshold + 1) <<< 4)

/-- `try_tpr_threshold`. -/
def tryTprThreshold (threshold : BitVec 32) : VmcsTest Unit := do
  let primary ← vmcsReadU32 p .cpuExecCtrl0
  let secondary ← vmcsReadU32 p .cpuExecCtrl1
  let valid :=
    if primary &&& cpuTprShadow ≠ 0 ∧
        ¬(primary &&& cpuSecondary ≠ 0 ∧ secondary &&& cpuVintd ≠ 0) then
      threshold >>> 4 == 0
    else true
  setVtpr p (-1)
  vmcsWrite p .tprThreshold (threshold.setWidth 64)
  testVmxControls p valid false
  if valid then testVtprValues p threshold else pure ()

/-- `test_tpr_threshold_values`. -/
def testTprThresholdValues : VmcsTest Unit := do
  (List.range 0x10).forM fun i => tryTprThreshold p (BitVec.ofNat 32 i)
  (List.range' 4 28).forM fun i => tryTprThreshold p (1 <<< i)
  tryTprThreshold p (-1)
  tryTprThreshold p 0x7fffffff

/-- The step `vmcs_write(enc, vmcs_read(enc) | bits)`. -/
def vmcsSetBits (e : Encoding) (bits : BitVec 64) : VmcsTest Unit := do
  let x ← vmcsRead p e
  vmcsWrite p e (x ||| bits)

/-- The step `vmcs_write(enc, vmcs_read(enc) & ~bits)`. -/
def vmcsClearBits (e : Encoding) (bits : BitVec 64) : VmcsTest Unit := do
  let x ← vmcsRead p e
  vmcsWrite p e (x &&& ~~~bits)

/-- A part of `test_tpr_threshold` : with these secondary controls written, the values are tested
while the primary controls ignore them, and then again. -/
def testTprThresholdSecondary (secondary : BitVec 32) (clearFirst : Bool) : VmcsTest Unit := do
  (if clearFirst then vmcsClearBits p .cpuExecCtrl0 (cpuSecondary.setWidth 64) else pure ())
  vmcsWrite p .cpuExecCtrl1 (secondary.setWidth 64)
  testTprThresholdValues p
  vmcsSetBits p .cpuExecCtrl0 (cpuSecondary.setWidth 64)
  testTprThresholdValues p

/-- `test_tpr_threshold`. -/
def testTprThreshold : VmcsTest Unit := do
  let primary ← vmcsReadU32 p .cpuExecCtrl0
  if p.ctrlCpuRev0.clr &&& cpuTprShadow = 0 then pure ()
  else do
    (List.range 4096).forM fun i => poke (p.page + BitVec.ofNat 64 i) 0xff
    vmcsWrite p .apicVirtAddr p.page
    vmcsWrite p .cpuExecCtrl0 ((primary &&& ~~~(cpuTprShadow ||| cpuSecondary)).setWidth 64)
    testTprThresholdValues p
    vmcsSetBits p .cpuExecCtrl0 (cpuTprShadow.setWidth 64)
    testTprThresholdValues p
    if ¬(p.ctrlCpuRev0.clr &&& cpuSecondary ≠ 0 ∧
        p.ctrlCpuRev1.clr &&& (cpuVintd ||| cpuVirtApicAccesses) ≠ 0) then
      vmcsWrite p .cpuExecCtrl0 (primary.setWidth 64)
    else do
      let secondary ← vmcsReadU32 p .cpuExecCtrl1
      (if p.ctrlCpuRev1.clr &&& cpuVintd ≠ 0 then
        testTprThresholdSecondary p cpuVintd false else pure ())
      (if p.ctrlCpuRev1.clr &&& cpuVirtApicAccesses ≠ 0 then
        testTprThresholdSecondary p cpuVirtApicAccesses true else pure ())
      (if p.ctrlCpuRev1.clr &&& (cpuVintd ||| cpuVirtApicAccesses) =
          cpuVintd ||| cpuVirtApicAccesses then
        testTprThresholdSecondary p (cpuVintd ||| cpuVirtApicAccesses) true else pure ())
      vmcsWrite p .cpuExecCtrl1 (secondary.setWidth 64)
      vmcsWrite p .cpuExecCtrl0 (primary.setWidth 64)

/-! ## Event injection -/

/-- `enable_unrestricted_guest`, whose result is not looked at. -/
def enableUnrestrictedGuest : VmcsTest Unit := do
  if p.ctrlCpuRev0.clr &&& cpuSecondary = 0 then pure ()
  else if p.ctrlCpuRev1.clr &&& cpuUrg = 0 then pure ()
  else do
    vmcsSetBits p .cpuExecCtrl0 (cpuSecondary.setWidth 64)
    vmcsSetBits p .cpuExecCtrl1 (cpuUrg.setWidth 64)

/-- `disable_unrestricted_guest`. -/
def disableUnrestrictedGuest : VmcsTest Unit :=
  vmcsClearBits p .cpuExecCtrl1 (cpuUrg.setWidth 64)

/-- A launch with this in `ENT_INTR_INFO`. -/
def tryEntIntrInfo (info : BitVec 32) (valid : Bool) : VmcsTest Unit := do
  vmcsWrite p .entIntrInfo (info.setWidth 64)
  testVmxControls p valid false

/-- The vectors whose exception comes with an error code. -/
def errorCodeVectors : List ℕ := [8, 10, 11, 12, 13, 14, 17]

/-- `test_invalid_event_injection`. -/
def testInvalidEventInjection : VmcsTest Unit := do
  let entIntrInfoSave ← vmcsReadU32 p .entIntrInfo
  let entIntrErrorSave ← vmcsReadU32 p .entIntrError
  let entInstLenSave ← vmcsReadU32 p .entInstLen
  let primarySave ← vmcsReadU32 p .cpuExecCtrl0
  let secondarySave ← vmcsReadU32 p .cpuExecCtrl1
  let guestCr0Save ← vmcsRead p .guestCr0
  let base := intrInfoValidMask
  vmcsWrite p .entIntrError 0
  vmcsWrite p .entInstLen 1
  tryEntIntrInfo p (base ||| intrTypeReserved ||| deVector) false
  tryEntIntrInfo p (base ||| intrTypeExtIntr ||| deVector) true
  tryEntIntrInfo p (base ||| intrTypeOtherEvent ||| dbVector) false
  tryEntIntrInfo p (base ||| intrTypeNmiIntr ||| deVector) false
  tryEntIntrInfo p (base ||| intrTypeNmiIntr ||| nmiVector) true
  tryEntIntrInfo p (base ||| intrTypeHardException ||| 0x20) false
  -- an error code is delivered exactly without unrestricted guest or in protected mode
  disableUnrestrictedGuest p
  vmcsWrite p .guestCr0 (guestCr0Save &&& ~~~x86Cr0Pe &&& ~~~x86Cr0Pg)
  tryEntIntrInfo p (base ||| intrTypeHardException ||| gpVector) false
  disableUnrestrictedGuest p
  vmcsWrite p .guestCr0 (guestCr0Save &&& ~~~x86Cr0Pe &&& ~~~x86Cr0Pg)
  tryEntIntrInfo p
    (base ||| intrInfoDeliverCodeMask ||| intrTypeHardException ||| gpVector) true
  enableUnrestrictedGuest p
  vmcsWrite p .guestCr0 (guestCr0Save &&& ~~~x86Cr0Pe &&& ~~~x86Cr0Pg)
  tryEntIntrInfo p
    (base ||| intrInfoDeliverCodeMask ||| intrTypeHardException ||| gpVector) false
  vmcsWrite p .guestCr0 (guestCr0Save ||| x86Cr0Pe)
  tryEntIntrInfo p (base ||| intrTypeHardException ||| gpVector) false
  -- of the interruption types, only a hardware exception has one
  (List.range 8).forM fun cnt => do
    let exceptionTypeMask := BitVec.ofNat 32 cnt <<< 8
    let deliver :=
      if exceptionTypeMask ≠ intrTypeHardException then intrInfoDeliverCodeMask else 0
    tryEntIntrInfo p (base ||| deliver ||| exceptionTypeMask ||| gpVector) false
  -- and of the exceptions, some
  (List.range 32).forM fun cnt => do
    let hasErrorCode := decide (cnt ∈ errorCodeVectors)
    tryEntIntrInfo p (base ||| (if hasErrorCode then 0 else intrInfoDeliverCodeMask) |||
      intrTypeHardException ||| BitVec.ofNat 32 cnt) false
    tryEntIntrInfo p (base ||| (if hasErrorCode then intrInfoDeliverCodeMask else 0) |||
      intrTypeHardException ||| BitVec.ofNat 32 cnt) true
  -- reserved bits
  (List.range' 12 19).forM fun cnt =>
    tryEntIntrInfo p (base ||| intrInfoDeliverCodeMask ||| intrTypeHardException ||| gpVector |||
      1 <<< cnt) false
  -- the error code
  vmcsWrite p .entIntrInfo
    ((base ||| intrInfoDeliverCodeMask ||| intrTypeHardException ||| gpVector).setWidth 64)
  (List.range' 15 17).forM fun cnt => do
    vmcsWrite p .entIntrError ((1#32 <<< cnt).setWidth 64)
    testVmxControls p false false
  vmcsWrite p .entIntrError 0
  -- the instruction length
  [intrTypeSoftIntr, intrTypeSoftException, intrTypePrivSwException].forM fun type => do
    vmcsWrite p .entIntrInfo ((base ||| type).setWidth 64)
    vmcsWrite p .entInstLen ((-1#32).setWidth 64)
    testVmxControls p false false
    vmcsWrite p .entInstLen 0x10
    testVmxControls p false false
  vmcsWrite p .entIntrInfo (entIntrInfoSave.setWidth 64)
  vmcsWrite p .entIntrError (entIntrErrorSave.setWidth 64)
  vmcsWrite p .entInstLen (entInstLenSave.setWidth 64)
  vmcsWrite p .cpuExecCtrl0 (primarySave.setWidth 64)
  vmcsWrite p .cpuExecCtrl1 (secondarySave.setWidth 64)
  vmcsWrite p .guestCr0 guestCr0Save

/-! ## What they leave -/

variable {p}
variable {v : Vmcs} {l : List Encoding} {m m' : VmxMachine}

theorem vmcsRead_bind {α : Type} (e : Encoding) (f : BitVec 64 → VmcsTest α) :
    (vmcsRead p e >>= f) m = f (p.value m.vmcs e) m :=
  rfl

theorem vmcsReadU32_bind {α : Type} (e : Encoding) (f : BitVec 32 → VmcsTest α) :
    (vmcsReadU32 p e >>= f) m = f ((p.value m.vmcs e).setWidth 32) m :=
  rfl

theorem steps_testVmcsPageAddr {e : Encoding} (he : e ∈ l) {ignored xfail : Bool}
    {addr : BitVec 64} : Steps p v l (testVmcsPageAddr p e ignored xfail addr) l :=
  .bind (steps_write he) fun _ => steps_testVmxControls

/-- The field that the addresses are written to has its value again. -/
theorem testVmcsPageValues_agree {e : Encoding} {ignored xfail : Bool}
    (h : testVmcsPageValues p e ignored xfail m = some ((), m')) :
    Agree p m.vmcs [] m'.vmcs := by
  unfold testVmcsPageValues at h
  rw [vmcsRead_bind] at h
  refine Steps.agree [] (.weaken [e] (by simp) ?_) h
  refine .bind (.forM fun i _ => steps_testVmcsPageAddr (by simp)) fun _ => ?_
  iterate 4 refine .bind (steps_testVmcsPageAddr (by simp)) fun _ => ?_
  exact steps_settle [] (read_puts_eq (by simp)) (by simp)

theorem steps_testVmcsPageValues {e : Encoding} {ignored xfail : Bool} :
    Steps p v l (testVmcsPageValues p e ignored xfail) l :=
  .of_agree fun _ _ _ h => testVmcsPageValues_agree h

/-- The secondary controls that `test_vmcs_page_reference` leaves. -/
def pageReferenceLeaks (p : Platform) (controlBit : BitVec 32) (field : Encoding)
    (controlPrimary : Bool) (v : Vmcs) : List (Encoding × BitVec 64) :=
  if controlPrimary ∨ p.ctrlCpuRev1.clr &&& controlBit = 0 ∨ field = .cpuExecCtrl1 then []
  else [(.cpuExecCtrl1, ((v.read .cpuExecCtrl1).setWidth 32 &&& ~~~controlBit).setWidth 64)]

theorem steps_writeControls {controlPrimary : Bool} {primary secondary : BitVec 32}
    (h₀ : .cpuExecCtrl0 ∈ l) (h₁ : controlPrimary = false → .cpuExecCtrl1 ∈ l) :
    Steps p v l (writeControls p controlPrimary primary secondary) l := by
  refine .ite (fun _ => steps_write h₀) fun hp => ?_
  exact .bind (steps_write h₀) fun _ => steps_write (h₁ (by simpa using hp))

/-- The secondary controls are settled by their last write. -/
theorem steps_writeControls_settle {primary secondary : BitVec 32}
    (hv : p.writes .cpuExecCtrl1 = true →
      v.read .cpuExecCtrl1 = Encoding.cpuExecCtrl1.fit (secondary.setWidth 64)) :
    Steps p v [.cpuExecCtrl0, .cpuExecCtrl1] (writeControls p false primary secondary)
      [.cpuExecCtrl0] :=
  .bind (steps_write (by simp)) fun _ => steps_settle _ hv (by simp)

/-- An even encoding that is not another one is no cell of it. -/
theorem Encoding.eq_of_even_mem_cells {c e : Encoding} (hc : c.code.getLsbD 0 = false)
    (h : c ∈ e.cells) : c = e := by
  unfold Encoding.cells at h
  split at h <;> simp only [List.mem_cons, List.not_mem_nil, or_false] at h
  · rcases h with rfl | rfl
    · rfl
    · simp [Encoding.high] at hc
  · exact h

/-- A saved field has its value on entry, where it can be written at all. -/
theorem Platform.value_eq {e : Encoding} (hw : p.writes e = true) : p.value v e = v.read e := by
  rw [Platform.value, if_pos (p.reads_of_writes e hw)]

/-- The sub-test puts back all but the secondary controls, which it leaves with the bit off. -/
theorem testVmcsPageReference_agree {controlBit : BitVec 32} {field : Encoding}
    {xfail controlPrimary : Bool}
    (h : testVmcsPageReference p controlBit field xfail controlPrimary m = some ((), m')) :
    Agree p (p.puts m.vmcs (pageReferenceLeaks p controlBit field controlPrimary m.vmcs)) []
      m'.vmcs := by
  unfold testVmcsPageReference at h
  rw [vmcsReadU32_bind, vmcsReadU32_bind] at h
  dsimp only at h
  unfold pageReferenceLeaks
  by_cases hclr :
      (if controlPrimary then p.ctrlCpuRev0.clr else p.ctrlCpuRev1.clr) &&& controlBit = 0
  · rw [if_pos hclr] at h
    have hfree : controlPrimary = true ∨ p.ctrlCpuRev1.clr &&& controlBit = 0 := by
      by_cases hp : controlPrimary = true
      · exact .inl hp
      · exact .inr (by simpa [hp] using hclr)
    rw [if_pos (by tauto)]
    exact Steps.agree [] steps_pure h
  rw [if_neg hclr, vmcsRead_bind] at h
  refine Steps.agree _ ?_ h
  split
  · rename_i hfree
    -- every field written is written again with its value, by one of the last two writes
    obtain ⟨l, h₀, h₁, hl⟩ : ∃ l : List Encoding, .cpuExecCtrl0 ∈ l ∧
        (controlPrimary = false → .cpuExecCtrl1 ∈ l) ∧
        ∀ f ∈ l, f = field ∨ f ∈ [Encoding.cpuExecCtrl0] := by
      by_cases hp : controlPrimary = true
      · exact ⟨[.cpuExecCtrl0], by simp, by simp [hp], by simp⟩
      · have hsup : p.ctrlCpuRev1.clr &&& controlBit ≠ 0 := by simpa [hp] using hclr
        obtain rfl : field = .cpuExecCtrl1 := by tauto
        exact ⟨[.cpuExecCtrl0, .cpuExecCtrl1], by simp, by simp, by simp⟩
    refine .weaken l (by simp) ?_
    refine .bind (steps_writeControls h₀ h₁) fun _ => ?_
    refine .bind steps_testVmcsPageValues fun _ => ?_
    refine .bind (steps_writeControls h₀ h₁) fun _ => ?_
    refine .bind steps_testVmcsPageValues fun _ => ?_
    refine .bind (steps_settle [.cpuExecCtrl0] (read_puts_eq (by simp)) hl) fun _ => ?_
    exact steps_restore [] rfl (by simp) (by simp)
  · rename_i hleak
    obtain ⟨hp, -, hfield⟩ : controlPrimary = false ∧ _ ∧ field ≠ .cpuExecCtrl1 := by
      simpa using hleak
    subst hp
    have hdisjoint : field.cells.Disjoint Encoding.cpuExecCtrl1.cells := by
      intro c hc hc₁
      obtain rfl := List.mem_singleton.mp (show c ∈ [Encoding.cpuExecCtrl1] from hc₁)
      exact hfield (Encoding.eq_of_even_mem_cells rfl hc).symm
    refine .weaken [.cpuExecCtrl0, .cpuExecCtrl1] (by simp) ?_
    refine .bind (steps_writeControls (by simp) (by simp)) fun _ => ?_
    refine .bind steps_testVmcsPageValues fun _ => ?_
    refine .bind (steps_writeControls_settle fun hw => ?_) fun _ => ?_
    · rw [Platform.value_eq hw]
      exact Platform.read_puts_of_mem (apart_nil.cons _ rfl (by simp)) (by simp) hw
    refine .bind steps_testVmcsPageValues fun _ => ?_
    refine .bind (steps_settle [.cpuExecCtrl0] (read_puts_eq (by simpa)) (by simp)) fun _ => ?_
    exact steps_restore [] rfl (by simp; decide) (by simp)

/-- What `test_apic_access_addr` leaves : the address of its page stays. -/
def apicAccessLeaks (p : Platform) (v : Vmcs) : List (Encoding × BitVec 64) :=
  (.apicAccsAddr, p.page) ::
    pageReferenceLeaks p cpuVirtApicAccesses .apicAccsAddr false v

theorem testApicAccessAddr_agree (h : testApicAccessAddr p m = some ((), m')) :
    Agree p (p.puts m.vmcs (apicAccessLeaks p m.vmcs)) [] m'.vmcs := by
  obtain ⟨_, m₁, hwrite, href⟩ := VmcsTest.bind_eq_some h
  have hput : Agree p (p.puts m.vmcs [(.apicAccsAddr, p.page)]) [] m₁.vmcs := by
    have hapart := apart_nil.cons p.page (show Encoding.apicAccsAddr.kept = true from rfl) (by simp)
    exact Steps.agree _ (steps_leave [] hapart (by simp) (by simp)) hwrite
  have hread : m₁.vmcs.read .cpuExecCtrl1 = m.vmcs.read .cpuExecCtrl1 := by
    rw [hput.read_eq rfl (by simp), Platform.read_puts_of_disjoint (by simp; decide)]
  have hagree := testVmcsPageReference_agree href
  have hleaks : pageReferenceLeaks p cpuVirtApicAccesses .apicAccsAddr false m₁.vmcs =
      pageReferenceLeaks p cpuVirtApicAccesses .apicAccsAddr false m.vmcs := by
    simp only [pageReferenceLeaks, hread]
  rw [hleaks] at hagree
  exact (hput.puts _).trans hagree

/-- Bits of a mask do not show where the mask is cleared. -/
theorem or_and_not_of_and_not {w : ℕ} {a b c : BitVec w} (h : b &&& ~~~c = 0#w) :
    (a ||| b) &&& ~~~c = a &&& ~~~c := by
  rw [BitVec.and_or_distrib_right, h, BitVec.or_zero]

theorem and_not_and_not {w : ℕ} (a c : BitVec w) : a &&& ~~~c &&& ~~~c = a &&& ~~~c := by
  rw [BitVec.and_assoc, BitVec.and_self]

theorem or_and_self {w : ℕ} (a b : BitVec w) : (a ||| b) &&& b = b := by
  ext i hi
  simp only [BitVec.getElem_and, BitVec.getElem_or]
  grind

theorem and_not_or_self {w : ℕ} (a b : BitVec w) : a &&& ~~~b ||| b = a ||| b := by
  ext i hi
  simp only [BitVec.getElem_or, BitVec.getElem_and, BitVec.getElem_not]
  grind

theorem setBitPattern_snd_and (mask : BitVec 8) (s : BitVec 32) :
    (setBitPattern p mask s).2 &&& ~~~apicBits = s &&& ~~~apicBits := by
  have hx : cpuVirtX2apic &&& ~~~apicBits = 0#32 := by decide
  have hr : cpuApicRegVirt &&& ~~~apicBits = 0#32 := by decide
  have hv : cpuVintd &&& ~~~apicBits = 0#32 := by decide
  simp only [setBitPattern, List.foldl_cons, List.foldl_nil]
  split_ifs <;> simp only [or_and_not_of_and_not hx, or_and_not_of_and_not hr,
    or_and_not_of_and_not hv]

/-- The turns change the three controls alone. -/
theorem apicTurn_snd_and (primary : BitVec 32) (j : BitVec 8) (s : BitVec 32) :
    (apicTurn p primary j s).2 &&& ~~~apicBits = s &&& ~~~apicBits := by
  unfold apicTurn
  dsimp only
  split
  · exact and_not_and_not _ _
  · rw [setBitPattern_snd_and, and_not_and_not]

theorem apicTurns_cons (primary : BitVec 32) (j : BitVec 8) (js : List (BitVec 8))
    (s : BitVec 32) :
    apicTurns p primary (j :: js) s =
      vmcsWrite p .cpuExecCtrl1 ((apicTurn p primary j s).2.setWidth 64) >>= fun _ =>
        testVmxControls p (apicTurn p primary j s).1 false >>= fun _ =>
          apicTurns p primary js (apicTurn p primary j s).2 :=
  rfl

/-- After the turns the secondary controls are those before them, off the three. -/
theorem steps_apicTurns_bind {l' : List Encoding} {α : Type} {f : BitVec 32 → VmcsTest α}
    {primary : BitVec 32} (js : List (BitVec 8)) (s : BitVec 32) (h₁ : .cpuExecCtrl1 ∈ l)
    (hf : ∀ s', s' &&& ~~~apicBits = s &&& ~~~apicBits → Steps p v l (f s') l') :
    Steps p v l (apicTurns p primary js s >>= f) l' := by
  induction js generalizing s with
  | nil => exact hf s rfl
  | cons j js ih =>
    simp only [apicTurns_cons, bind_assoc]
    refine .write_try h₁ ?_
    refine ih _ fun s' hs' => ?_
    exact hf s' (hs'.trans (apicTurn_snd_and _ _ _))

/-- With the TPR shadow every turn clears the three. -/
theorem steps_apicTurns_shadow (l' : List Encoding) {primary : BitVec 32}
    (hshadow : primary &&& cpuTprShadow ≠ 0) (j : BitVec 8) (js : List (BitVec 8))
    (s : BitVec 32) (hl : ∀ f ∈ l, f = .cpuExecCtrl1 ∨ f ∈ l')
    (hv : p.writes .cpuExecCtrl1 = true →
      v.read .cpuExecCtrl1 = Encoding.cpuExecCtrl1.fit ((s &&& ~~~apicBits).setWidth 64)) :
    Steps p v l (apicTurns p primary (j :: js) s) l' := by
  have hturn (j : BitVec 8) (s : BitVec 32) :
      apicTurn p primary j s = (true, s &&& ~~~apicBits) := by
    rw [apicTurn, if_pos hshadow]
  induction js generalizing j s l with
  | nil =>
    rw [apicTurns_cons, hturn]
    exact .bind (steps_settle l' hv hl) fun _ => .bind steps_testVmxControls fun _ => steps_pure
  | cons j' js ih =>
    rw [apicTurns_cons, hturn]
    refine .bind (steps_settle l' hv hl) fun _ => .bind steps_testVmxControls fun _ => ?_
    refine ih j' _ (fun f hf => .inr hf) ?_
    rwa [and_not_and_not]

/-- The controls that `test_apic_virtual_ctls` leaves. -/
def apicVirtualLeaks (p : Platform) (v : Vmcs) : List (Encoding × BitVec 64) :=
  if p.ctrlCpuRev0.clr &&& (cpuSecondary ||| cpuTprShadow) = cpuSecondary ||| cpuTprShadow ∧
      p.ctrlCpuRev1.clr &&& (cpuVirtX2apic ||| cpuVirtApicAccesses) ≠
        cpuVirtX2apic ||| cpuVirtApicAccesses then
    [(.cpuExecCtrl0,
        ((v.read .cpuExecCtrl0).setWidth 32 ||| cpuSecondary ||| cpuTprShadow).setWidth 64),
      (.cpuExecCtrl1, ((v.read .cpuExecCtrl1).setWidth 32 &&& ~~~apicBits).setWidth 64)]
  else []

theorem testApicVirtualCtls_agree (h : testApicVirtualCtls p m = some ((), m')) :
    Agree p (p.puts m.vmcs (apicVirtualLeaks p m.vmcs)) [] m'.vmcs := by
  unfold testApicVirtualCtls at h
  rw [vmcsReadU32_bind, vmcsReadU32_bind] at h
  dsimp only at h
  unfold apicVirtualLeaks
  by_cases hclr :
      p.ctrlCpuRev0.clr &&& (cpuSecondary ||| cpuTprShadow) = cpuSecondary ||| cpuTprShadow
  swap
  · rw [if_pos hclr] at h
    rw [if_neg (by tauto)]
    exact Steps.agree [] steps_pure h
  rw [if_neg (by simpa using hclr)] at h
  refine Steps.agree _ ?_ h
  by_cases hapic : p.ctrlCpuRev1.clr &&& (cpuVirtX2apic ||| cpuVirtApicAccesses) =
      cpuVirtX2apic ||| cpuVirtApicAccesses
  · rw [if_neg (by tauto)]
    refine .weaken [.cpuExecCtrl0, .cpuExecCtrl1] (by simp) ?_
    refine .bind (steps_write (by simp)) fun _ => ?_
    refine steps_apicTurns_bind _ _ (by simp) fun s₁ _ => ?_
    refine .bind (steps_write (by simp)) fun _ => ?_
    refine steps_apicTurns_bind _ _ (by simp) fun s₂ _ => ?_
    refine .ite (fun hn => absurd hapic hn) fun _ => ?_
    refine .bind (steps_write (by simp)) fun _ => ?_
    iterate 4 refine .write_try (by simp) ?_
    refine .bind (steps_restore [.cpuExecCtrl1] rfl (by simp) (by simp)) fun _ => ?_
    exact steps_restore [] rfl (by simp) (by simp)
  · rw [if_pos ⟨hclr, hapic⟩]
    have hapart (x y : BitVec 64) : Apart [(.cpuExecCtrl0, x), (.cpuExecCtrl1, y)] :=
      ⟨by simp; decide, by simp; decide⟩
    refine .bind (steps_write (by simp)) fun _ => ?_
    refine steps_apicTurns_bind _ _ (by simp) fun s₁ hs₁ => ?_
    refine .bind (steps_settle [.cpuExecCtrl1] (fun hw => ?_) (by simp)) fun _ => ?_
    · rw [and_not_or_self, Platform.value_eq hw]
      exact Platform.read_puts_of_mem (hapart _ _) (by simp) hw
    refine .bind (steps_apicTurns_shadow [] ?_ 1 _ _ (by simp) fun hw => ?_) fun _ => ?_
    · rw [or_and_self]
      decide
    · rw [hs₁, Platform.value_eq hw]
      exact Platform.read_puts_of_mem (hapart _ _) (by simp) hw
    exact .ite (fun _ => steps_pure) fun hn => absurd (not_not.mp hn) hapic

/-- `test_virtual_intr_ctls` puts back the three words that it writes. -/
theorem testVirtualIntrCtls_agree (h : testVirtualIntrCtls p m = some ((), m')) :
    Agree p m.vmcs [] m'.vmcs := by
  unfold testVirtualIntrCtls at h
  rw [vmcsReadU32_bind, vmcsReadU32_bind, vmcsReadU32_bind] at h
  refine Steps.agree [] (.ite (fun _ => steps_pure) fun _ => ?_) h
  refine .weaken [.cpuExecCtrl0, .cpuExecCtrl1, .pinControls] (by simp) ?_
  refine .bind (steps_write (by simp)) fun _ => ?_
  refine .bind (steps_write (by simp)) fun _ => ?_
  iterate 4 refine .write_try (by simp) ?_
  refine .bind (steps_restore [.cpuExecCtrl1, .pinControls] rfl (by simp) (by simp)) fun _ => ?_
  refine .bind (steps_restore [.pinControls] rfl (by simp) (by simp)) fun _ => ?_
  exact steps_restore [] rfl (by simp) (by simp)

theorem steps_testPiDescAddr {addr : BitVec 64} {ctrl : Bool} (he : .postedIntrDescAddr ∈ l) :
    Steps p v l (testPiDescAddr p addr ctrl) l :=
  .bind (steps_write he) fun _ => steps_testVmxControls

/-- The fields that `test_posted_intr` leaves. -/
def postedIntrLeaks (p : Platform) (v : Vmcs) : List (Encoding × BitVec 64) :=
  if p.ctrlPinRev.clr &&& pinPostIntr ≠ 0 ∧ p.ctrlCpuRev1.clr &&& cpuVintd ≠ 0 ∧
      p.ctrlExitRev.clr &&& exiInta ≠ 0 then
    [(.exiControls, ((v.read .exiControls).setWidth 32 ||| exiInta).setWidth 64), (.pinv, 0),
      (.postedIntrDescAddr, 0xc000)]
  else []

theorem testPostedIntr_agree (h : testPostedIntr p m = some ((), m')) :
    Agree p (p.puts m.vmcs (postedIntrLeaks p m.vmcs)) [] m'.vmcs := by
  unfold testPostedIntr at h
  rw [vmcsReadU32_bind, vmcsReadU32_bind, vmcsReadU32_bind, vmcsReadU32_bind] at h
  dsimp only at h
  unfold postedIntrLeaks
  refine Steps.agree _ ?_ h
  split
  swap
  · exact steps_pure
  have hapart (x : BitVec 64) :
      Apart [(.exiControls, x), (.pinv, 0), (.postedIntrDescAddr, 0xc000)] :=
    ⟨by simp; decide, by simp; decide⟩
  refine .weaken [.exiControls, .pinv, .postedIntrDescAddr, .cpuExecCtrl0, .cpuExecCtrl1,
    .pinControls] (by simp) ?_
  refine .bind (steps_write (by simp)) fun _ => .bind (steps_write (by simp)) fun _ => ?_
  iterate 3 refine .write_try (by simp) ?_
  -- the exit controls get their last value
  refine .bind (steps_settle [.pinv, .postedIntrDescAddr, .cpuExecCtrl0, .cpuExecCtrl1,
    .pinControls] (fun hw => ?_) (by simp)) fun _ => .bind steps_testVmxControls fun _ => ?_
  · rw [and_not_or_self, Platform.value_eq hw]
    exact Platform.read_puts_of_mem (hapart _) (by simp) hw
  iterate 2 refine .write_try (by simp) ?_
  refine .bind (.forM fun i _ => .bind (steps_write (by simp)) fun _ => steps_testVmxControls)
    fun _ => ?_
  refine .bind (.forM fun i _ => .bind (steps_write (by simp)) fun _ => steps_testVmxControls)
    fun _ => ?_
  refine .bind (steps_leave [.postedIntrDescAddr, .cpuExecCtrl0, .cpuExecCtrl1, .pinControls]
    (hapart _) (by simp) (by simp)) fun _ => .bind steps_testVmxControls fun _ => ?_
  -- the descriptor address keeps the last one tried
  refine .bind (.forM fun i _ => .bind (steps_write (by simp)) fun _ => steps_testVmxControls)
    fun _ => ?_
  iterate 5 refine .bind (steps_testPiDescAddr (by simp)) fun _ => ?_
  refine .bind (.bind (steps_leave [.cpuExecCtrl0, .cpuExecCtrl1, .pinControls] (hapart _)
    (by simp) (by simp)) fun _ => steps_testVmxControls) fun _ => ?_
  refine .bind steps_testVmcsPageValues fun _ => ?_
  refine .bind (steps_restore [.cpuExecCtrl1, .pinControls] rfl (by simp; decide) (by simp))
    fun _ => ?_
  refine .bind (steps_restore [.pinControls] rfl (by simp; decide) (by simp)) fun _ => ?_
  exact steps_restore [] rfl (by simp; decide) (by simp)

/-- `test_vpid` leaves the last VPID that it tries. -/
theorem testVpid_agree (h : testVpid p m = some ((), m')) :
    Agree p (p.puts m.vmcs [(.vpid, 0x8000)]) [] m'.vmcs := by
  unfold testVpid at h
  rw [vmcsReadU32_bind, vmcsReadU32_bind] at h
  refine Steps.agree _ (.ite (fun _ => steps_abortTest) fun _ => ?_) h
  refine .weaken [.vpid, .cpuExecCtrl0, .cpuExecCtrl1] (by simp) ?_
  refine .bind (steps_write (by simp)) fun _ => .bind (steps_write (by simp)) fun _ => ?_
  iterate 2 refine .write_try (by simp) ?_
  -- the last turn of the loop
  refine .bind (.forM_concat [.cpuExecCtrl0, .cpuExecCtrl1] (List.range 15) 15 (fun i _ => ?_) ?_)
    fun _ => ?_
  · exact .bind (steps_write (by simp)) fun _ => steps_testVmxControls
  · have hapart := apart_nil.cons 0x8000 (show Encoding.vpid.kept = true from rfl) (by simp)
    exact .bind (steps_leave _ hapart (by simp) (by simp)) fun _ => steps_testVmxControls
  refine .bind (steps_restore [.cpuExecCtrl1] rfl (by simp; decide) (by simp)) fun _ => ?_
  exact steps_restore [] rfl (by simp; decide) (by simp)

theorem steps_setVtpr {vtpr : BitVec 32} : Steps p v l (setVtpr p vtpr) l :=
  .bind steps_read fun _ => .forM fun _ _ => steps_poke

theorem steps_tryTprThresholdAndVtpr {threshold vtpr : BitVec 32} :
    Steps p v l (tryTprThresholdAndVtpr p threshold vtpr) l :=
  .bind steps_readU32 fun _ => .bind steps_readU32 fun _ => .bind steps_setVtpr fun _ =>
    steps_testVmxControls

/-- A threshold is tried with one write of the field. -/
theorem steps_tryTprThreshold {l' : List Encoding} {threshold : BitVec 32}
    (hw : Steps p v l (vmcsWrite p .tprThreshold (threshold.setWidth 64)) l') :
    Steps p v l (tryTprThreshold p threshold) l' := by
  refine .bind steps_readU32 fun _ => .bind steps_readU32 fun _ => .bind steps_setVtpr fun _ => ?_
  refine .bind hw fun _ => .bind steps_testVmxControls fun _ => .ite (fun _ => ?_) fun _ => ?_
  · exact .bind steps_tryTprThresholdAndVtpr fun _ => .bind steps_tryTprThresholdAndVtpr fun _ =>
      steps_tryTprThresholdAndVtpr
  · exact steps_pure

/-- The last threshold tried stays in the field. -/
theorem steps_testTprThresholdValues (l' : List Encoding)
    (hv : p.writes .tprThreshold = true →
      v.read .tprThreshold = Encoding.tprThreshold.fit 0x7fffffff)
    (hl : ∀ f ∈ l, f = .tprThreshold ∨ f ∈ l') :
    Steps p v l (testTprThresholdValues p) l' := by
  refine .weaken (.tprThreshold :: l') (fun f hf => List.mem_cons.mpr (hl f hf)) ?_
  refine .bind (.forM fun i _ => steps_tryTprThreshold (steps_write (by simp))) fun _ => ?_
  refine .bind (.forM fun i _ => steps_tryTprThreshold (steps_write (by simp))) fun _ => ?_
  refine .bind (steps_tryTprThreshold (steps_write (by simp))) fun _ => ?_
  exact steps_tryTprThreshold (steps_settle l' hv fun f hf => List.mem_cons.mp hf)

theorem steps_vmcsSetBits {e : Encoding} {bits : BitVec 64} (he : e ∈ l) :
    Steps p v l (vmcsSetBits p e bits) l :=
  .bind steps_read fun _ => steps_write he

theorem steps_vmcsClearBits {e : Encoding} {bits : BitVec 64} (he : e ∈ l) :
    Steps p v l (vmcsClearBits p e bits) l :=
  .bind steps_read fun _ => steps_write he

theorem steps_testTprThresholdSecondary {secondary : BitVec 32} {clearFirst : Bool}
    (h₀ : .cpuExecCtrl0 ∈ l) (h₁ : .cpuExecCtrl1 ∈ l)
    (hv : p.writes .tprThreshold = true →
      v.read .tprThreshold = Encoding.tprThreshold.fit 0x7fffffff) :
    Steps p v l (testTprThresholdSecondary p secondary clearFirst) l := by
  have hvalues := steps_testTprThresholdValues l hv fun f hf => .inr hf
  refine .bind (.ite (fun _ => steps_vmcsClearBits h₀) fun _ => steps_pure) fun _ => ?_
  refine .bind (steps_write h₁) fun _ => .bind hvalues fun _ => ?_
  exact .bind (steps_vmcsSetBits h₀) fun _ => hvalues

/-- The fields that `test_tpr_threshold` leaves. -/
def tprThresholdLeaks (p : Platform) : List (Encoding × BitVec 64) :=
  if p.ctrlCpuRev0.clr &&& cpuTprShadow = 0 then []
  else [(.apicVirtAddr, p.page), (.tprThreshold, 0x7fffffff)]

theorem testTprThreshold_agree (h : testTprThreshold p m = some ((), m')) :
    Agree p (p.puts m.vmcs (tprThresholdLeaks p)) [] m'.vmcs := by
  unfold testTprThreshold at h
  rw [vmcsReadU32_bind] at h
  unfold tprThresholdLeaks
  refine Steps.agree _ ?_ h
  split
  · exact steps_pure
  have hapart : Apart [(.apicVirtAddr, p.page), (.tprThreshold, 0x7fffffff)] :=
    ⟨by simp; decide, by simp; decide⟩
  have hvalues (hw : p.writes .tprThreshold = true) :=
    @Platform.read_puts_of_mem p m.vmcs _ _ _ hapart (List.mem_cons_of_mem _ List.mem_cons_self) hw
  refine .weaken [.apicVirtAddr, .tprThreshold, .cpuExecCtrl0] (by simp) ?_
  refine .bind (.forM fun _ _ => steps_poke) fun _ => ?_
  refine .bind (steps_leave [.tprThreshold, .cpuExecCtrl0] hapart List.mem_cons_self (by simp))
    fun _ => ?_
  refine .bind (steps_write (by simp)) fun _ => ?_
  refine .bind (steps_testTprThresholdValues [.cpuExecCtrl0] hvalues (by simp)) fun _ => ?_
  refine .bind (steps_vmcsSetBits (by simp)) fun _ => ?_
  refine .bind (steps_testTprThresholdValues [.cpuExecCtrl0] hvalues (by simp)) fun _ => ?_
  have hprimary := @read_puts_eq_u32 p m.vmcs .cpuExecCtrl0
    [(.apicVirtAddr, p.page), (.tprThreshold, 0x7fffffff)] rfl (by simp; decide)
  refine .ite (fun _ => steps_settle [] hprimary (by simp)) fun _ => ?_
  -- the secondary controls are as on entry when they are saved
  refine .readU32_bind rfl rfl (by simp; decide) fun secondary hsecondary => ?_
  refine .weaken [.cpuExecCtrl0, .cpuExecCtrl1] (by simp) ?_
  iterate 3
    refine .bind (.ite (fun _ => steps_testTprThresholdSecondary (by simp) (by simp) hvalues)
      fun _ => steps_pure) fun _ => ?_
  refine .bind (steps_settle [.cpuExecCtrl0] hsecondary (by simp)) fun _ => ?_
  exact steps_settle [] hprimary (by simp)

theorem steps_tryEntIntrInfo {info : BitVec 32} {valid : Bool} (he : .entIntrInfo ∈ l) :
    Steps p v l (tryEntIntrInfo p info valid) l :=
  .bind (steps_write he) fun _ => steps_testVmxControls

theorem steps_enableUnrestrictedGuest (h₀ : .cpuExecCtrl0 ∈ l) (h₁ : .cpuExecCtrl1 ∈ l) :
    Steps p v l (enableUnrestrictedGuest p) l := by
  refine .ite (fun _ => steps_pure) fun _ => .ite (fun _ => steps_pure) fun _ => ?_
  exact .bind (steps_vmcsSetBits h₀) fun _ => steps_vmcsSetBits h₁

/-- `test_invalid_event_injection` puts back all that it writes. -/
theorem testInvalidEventInjection_agree (h : testInvalidEventInjection p m = some ((), m')) :
    Agree p m.vmcs [] m'.vmcs := by
  unfold testInvalidEventInjection at h
  rw [vmcsReadU32_bind, vmcsReadU32_bind, vmcsReadU32_bind, vmcsReadU32_bind, vmcsReadU32_bind,
    vmcsRead_bind] at h
  refine Steps.agree [] ?_ h
  refine .weaken [.entIntrInfo, .entIntrError, .entInstLen, .cpuExecCtrl0, .cpuExecCtrl1,
    .guestCr0] (by simp) ?_
  refine .bind (steps_write (by simp)) fun _ => .bind (steps_write (by simp)) fun _ => ?_
  iterate 6 refine .bind (steps_tryEntIntrInfo (by simp)) fun _ => ?_
  iterate 2
    refine .bind (steps_vmcsClearBits (by simp)) fun _ => ?_
    refine .bind (steps_write (by simp)) fun _ => .bind (steps_tryEntIntrInfo (by simp)) fun _ => ?_
  refine .bind (steps_enableUnrestrictedGuest (by simp) (by simp)) fun _ => ?_
  iterate 2
    refine .bind (steps_write (by simp)) fun _ => .bind (steps_tryEntIntrInfo (by simp)) fun _ => ?_
  refine .bind (.forM fun _ _ => steps_tryEntIntrInfo (by simp)) fun _ => ?_
  refine .bind (.forM fun _ _ => .bind (steps_tryEntIntrInfo (by simp)) fun _ =>
    steps_tryEntIntrInfo (by simp)) fun _ => ?_
  refine .bind (.forM fun _ _ => steps_tryEntIntrInfo (by simp)) fun _ => ?_
  refine .bind (steps_write (by simp)) fun _ => ?_
  refine .bind (.forM fun _ _ => .bind (steps_write (by simp)) fun _ => steps_testVmxControls)
    fun _ => ?_
  refine .bind (steps_write (by simp)) fun _ => ?_
  refine .bind (.forM fun _ _ => ?_) fun _ => ?_
  · refine .bind (steps_write (by simp)) fun _ => ?_
    refine .write_try (by simp) ?_
    exact .bind (steps_write (by simp)) fun _ => steps_testVmxControls
  -- the clean-up, field after field
  refine .bind (steps_restore [.entIntrError, .entInstLen, .cpuExecCtrl0, .cpuExecCtrl1, .guestCr0]
    rfl (by simp) (by simp)) fun _ => ?_
  refine .bind (steps_restore [.entInstLen, .cpuExecCtrl0, .cpuExecCtrl1, .guestCr0] rfl
    (by simp) (by simp)) fun _ => ?_
  refine .bind (steps_restore [.cpuExecCtrl0, .cpuExecCtrl1, .guestCr0] rfl (by simp) (by simp))
    fun _ => ?_
  refine .bind (steps_restore [.cpuExecCtrl1, .guestCr0] rfl (by simp) (by simp)) fun _ => ?_
  refine .bind (steps_restore [.guestCr0] rfl (by simp) (by simp)) fun _ => ?_
  exact steps_settle [] (read_puts_eq (by simp)) (by simp)

end AcrnUt
