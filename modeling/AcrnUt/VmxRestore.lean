import AcrnUt.VmxCtls

/-!
# What the sub-tests leave of the VMCS

The sub-tests of `VmxCtls` are one family (`SubTest`), and each leaves the VMCS of its entry with
values in some fields (`SubTest.run_agree`). So the fields are as on entry exactly if these
values were there already (`SubTest.run_restored_iff`). Four of the sub-tests overwrite a field
that they do not save, one returns early with its settings in place, and the page references
forget the secondary controls.
-/

set_option linter.unusedSectionVars false

namespace AcrnUt

/-! ## Words with bits set and cleared -/

section Words

variable {w : ℕ} {a b : BitVec w}

theorem and_not_eq_self_iff : a &&& ~~~b = a ↔ a &&& b = 0 := by
  constructor
  · intro h
    rw [← h, BitVec.and_assoc, BitVec.not_and_self]
    simp
  · intro h
    have hsplit : a &&& ~~~b ||| a &&& b = a := by
      ext i hi
      simp only [BitVec.getElem_or, BitVec.getElem_and, BitVec.getElem_not]
      grind
    rw [h] at hsplit
    simpa using hsplit

theorem or_eq_self_iff : a ||| b = a ↔ a &&& b = b := by
  constructor
  · intro h
    rw [← h]
    exact or_and_self a b
  · intro h
    rw [← h]
    ext i hi
    simp only [BitVec.getElem_or, BitVec.getElem_and]
    grind

end Words

variable {p : Platform} {v : Vmcs} {m m' : VmxMachine}

/-! ## Coming back -/

/-- The test comes back from every machine. -/
def Returns {α : Type} (t : VmcsTest α) : Prop :=
  ∀ m, ∃ a m', t m = some (a, m')

theorem Returns.bind {α β : Type} {t : VmcsTest α} {f : α → VmcsTest β} (ht : Returns t)
    (hf : ∀ a, Returns (f a)) : Returns (t >>= f) := by
  intro m
  obtain ⟨a, m₁, h₁⟩ := ht m
  obtain ⟨b, m', h'⟩ := hf a m₁
  exact ⟨b, m', (VmcsTest.bind_apply h₁).trans h'⟩

theorem Returns.forM {α : Type} {f : α → VmcsTest PUnit} (hf : ∀ i, Returns (f i)) (is : List α) :
    Returns (is.forM f) := by
  induction is with
  | nil => exact fun m => ⟨_, m, rfl⟩
  | cons i is ih => exact .bind (hf i) fun _ => ih

theorem returns_vmcsWrite (e : Encoding) (x : BitVec 64) : Returns (vmcsWrite p e x) :=
  fun _ => ⟨_, _, rfl⟩

theorem returns_vmcsReadU32 (e : Encoding) : Returns (vmcsReadU32 p e) :=
  fun _ => ⟨_, _, rfl⟩

/-- A refused launch does not end the test. -/
theorem returns_testVmxControls (h : ∀ v mem, (p.launch v mem).1 = false) (valid xfail : Bool) :
    Returns (testVmxControls p valid xfail) := by
  have hrefused (m : VmxMachine) : ∃ m', vmlaunch p m = some (false, m') :=
    ⟨_, by rw [vmlaunch, h]⟩
  have hlaunch (m : VmxMachine) : ∃ m', vmlaunchSucceeds p m = some (false, m') := by
    obtain ⟨_, m₁, h₁⟩ := returns_vmcsWrite ⟨~~~0⟩ 0 m
    obtain ⟨_, m₂, h₂⟩ := returns_vmcsWrite .hostRip p.success m₁
    obtain ⟨_, m₃, h₃⟩ := returns_vmcsWrite .hostRsp p.rsp m₂
    obtain ⟨m₄, h₄⟩ := hrefused m₃
    refine ⟨m₄, ?_⟩
    rw [vmlaunchSucceeds, VmcsTest.bind_apply h₁, VmcsTest.bind_apply h₂, VmcsTest.bind_apply h₃,
      VmcsTest.bind_apply h₄]
    rfl
  intro m
  obtain ⟨m', h'⟩ := hlaunch m
  rw [testVmxControls, VmcsTest.bind_apply h']
  exact ⟨_, _, rfl⟩

/-! ## The sub-tests -/

/-- The sub-tests. -/
inductive SubTest where
  | vmcsPageReference (controlBit : BitVec 32) (field : Encoding)
      (xfailBeyondMappedRam controlPrimary : Bool)
  | apicAccessAddr
  | apicVirtualCtls
  | virtualIntrCtls
  | postedIntr
  | vpid
  | tprThreshold
  | invalidEventInjection

namespace SubTest

/-- The run of a sub-test. -/
def run (p : Platform) : SubTest → VmcsTest Unit
  | vmcsPageReference controlBit field xfail controlPrimary =>
    testVmcsPageReference p controlBit field xfail controlPrimary
  | apicAccessAddr => testApicAccessAddr p
  | apicVirtualCtls => testApicVirtualCtls p
  | virtualIntrCtls => testVirtualIntrCtls p
  | postedIntr => testPostedIntr p
  | vpid => testVpid p
  | tprThreshold => testTprThreshold p
  | invalidEventInjection => testInvalidEventInjection p

/-- The fields that a sub-test leaves behind, with the values that it leaves there. -/
def leaks (p : Platform) (v : Vmcs) : SubTest → List (Encoding × BitVec 64)
  | vmcsPageReference controlBit field _ controlPrimary =>
    pageReferenceLeaks p controlBit field controlPrimary v
  | apicAccessAddr => apicAccessLeaks p v
  | apicVirtualCtls => apicVirtualLeaks p v
  | virtualIntrCtls => []
  | postedIntr => postedIntrLeaks p v
  | vpid => [(.vpid, 0x8000)]
  | tprThreshold => tprThresholdLeaks p
  | invalidEventInjection => []

/-- A sub-test leaves the VMCS as it was, but for its leaks. -/
theorem run_agree (t : SubTest) (h : t.run p m = some ((), m')) :
    Agree p (p.puts m.vmcs (t.leaks p m.vmcs)) [] m'.vmcs := by
  cases t with
  | vmcsPageReference => exact testVmcsPageReference_agree h
  | apicAccessAddr => exact testApicAccessAddr_agree h
  | apicVirtualCtls => exact testApicVirtualCtls_agree h
  | virtualIntrCtls => exact testVirtualIntrCtls_agree h
  | postedIntr => exact testPostedIntr_agree h
  | vpid => exact testVpid_agree h
  | tprThreshold => exact testTprThreshold_agree h
  | invalidEventInjection => exact testInvalidEventInjection_agree h

theorem pageReferenceLeaks_apart (controlBit : BitVec 32) (field : Encoding)
    (controlPrimary : Bool) : Apart (pageReferenceLeaks p controlBit field controlPrimary v) := by
  unfold pageReferenceLeaks
  split
  · exact apart_nil
  · exact apart_nil.cons _ rfl (by simp)

/-- A sub-test leaks fields that have no cell in common. -/
theorem leaks_apart (t : SubTest) : Apart (t.leaks p v) := by
  cases t with
  | vmcsPageReference => exact pageReferenceLeaks_apart _ _ _
  | apicAccessAddr =>
    refine (pageReferenceLeaks_apart _ _ _).cons _ rfl ?_
    unfold pageReferenceLeaks
    split
    · simp
    · simp only [List.mem_singleton, forall_eq]
      decide
  | apicVirtualCtls =>
    simp only [leaks, apicVirtualLeaks]
    split
    · exact ⟨by simp; decide, by simp; decide⟩
    · exact apart_nil
  | postedIntr =>
    simp only [leaks, postedIntrLeaks]
    split
    · exact ⟨by simp; decide, by simp; decide⟩
    · exact apart_nil
  | vpid => exact apart_nil.cons _ rfl (by simp)
  | tprThreshold =>
    simp only [leaks, tprThresholdLeaks]
    split
    · exact apart_nil
    · exact ⟨by simp; decide, by simp; decide⟩
  | virtualIntrCtls => exact apart_nil
  | invalidEventInjection => exact apart_nil

/-- The VMCS of the entry and the capabilities under which a sub-test leaves the fields alone. -/
def Undisturbed (p : Platform) (v : Vmcs) : SubTest → Prop
  | vmcsPageReference controlBit field _ controlPrimary =>
    controlPrimary = true ∨ p.ctrlCpuRev1.clr &&& controlBit = 0 ∨ field = .cpuExecCtrl1 ∨
      (p.writes .cpuExecCtrl1 = true →
        (v.read .cpuExecCtrl1).setWidth 32 &&& controlBit = 0)
  | apicAccessAddr =>
    (p.writes .apicAccsAddr = true → v.read .apicAccsAddr = p.page) ∧
      (p.ctrlCpuRev1.clr &&& cpuVirtApicAccesses = 0 ∨
        (p.writes .cpuExecCtrl1 = true →
          (v.read .cpuExecCtrl1).setWidth 32 &&& cpuVirtApicAccesses = 0))
  | apicVirtualCtls =>
    p.ctrlCpuRev0.clr &&& (cpuSecondary ||| cpuTprShadow) ≠ cpuSecondary ||| cpuTprShadow ∨
      p.ctrlCpuRev1.clr &&& (cpuVirtX2apic ||| cpuVirtApicAccesses) =
        cpuVirtX2apic ||| cpuVirtApicAccesses ∨
      ((p.writes .cpuExecCtrl0 = true →
          (v.read .cpuExecCtrl0).setWidth 32 &&& (cpuSecondary ||| cpuTprShadow) =
            cpuSecondary ||| cpuTprShadow) ∧
        (p.writes .cpuExecCtrl1 = true →
          (v.read .cpuExecCtrl1).setWidth 32 &&& apicBits = 0))
  | virtualIntrCtls => True
  | postedIntr =>
    p.ctrlPinRev.clr &&& pinPostIntr = 0 ∨ p.ctrlCpuRev1.clr &&& cpuVintd = 0 ∨
      p.ctrlExitRev.clr &&& exiInta = 0 ∨
      ((p.writes .exiControls = true →
          (v.read .exiControls).setWidth 32 &&& exiInta = exiInta) ∧
        (p.writes .pinv = true → v.read .pinv = 0) ∧
        (p.writes .postedIntrDescAddr = true → v.read .postedIntrDescAddr = 0xc000))
  | vpid => p.writes .vpid = true → v.read .vpid = 0x8000
  | tprThreshold =>
    p.ctrlCpuRev0.clr &&& cpuTprShadow = 0 ∨
      ((p.writes .apicVirtAddr = true → v.read .apicVirtAddr = p.page) ∧
        (p.writes .tprThreshold = true → v.read .tprThreshold = 0x7fffffff))
  | invalidEventInjection => True

/-- A field of 32 bits has the value of a `u32` exactly if its low word is that. -/
theorem read_eq_fit_iff {e : Encoding} (he : e.wide = false) (hw : e.cellWidth = 32)
    {y : BitVec 32} : v.read e = e.fit (y.setWidth 64) ↔ (v.read e).setWidth 32 = y := by
  constructor
  · intro h
    rw [h, Encoding.fit, if_neg (by simp [he]), hw]
    simp
  · intro h
    rw [← h, Encoding.fit_u32 he, Vmcs.fit_read]

theorem read_eq_or_iff {e : Encoding} (he : e.wide = false) (hw : e.cellWidth = 32)
    (b : BitVec 32) :
    v.read e = e.fit (((v.read e).setWidth 32 ||| b).setWidth 64) ↔
      (v.read e).setWidth 32 &&& b = b := by
  rw [read_eq_fit_iff he hw, eq_comm, or_eq_self_iff]

theorem read_eq_and_not_iff {e : Encoding} (he : e.wide = false) (hw : e.cellWidth = 32)
    (b : BitVec 32) :
    v.read e = e.fit (((v.read e).setWidth 32 &&& ~~~b).setWidth 64) ↔
      (v.read e).setWidth 32 &&& b = 0 := by
  rw [read_eq_fit_iff he hw, eq_comm, and_not_eq_self_iff]

theorem forall_pageReferenceLeaks_iff (controlBit : BitVec 32) (field : Encoding)
    (controlPrimary : Bool) :
    (∀ f ∈ pageReferenceLeaks p controlBit field controlPrimary v,
        p.writes f.1 = true → v.read f.1 = f.1.fit f.2) ↔
      (controlPrimary = true ∨ p.ctrlCpuRev1.clr &&& controlBit = 0 ∨ field = .cpuExecCtrl1 ∨
        (p.writes .cpuExecCtrl1 = true →
          (v.read .cpuExecCtrl1).setWidth 32 &&& controlBit = 0)) := by
  unfold pageReferenceLeaks
  split
  · rename_i hfree
    exact iff_of_true (by simp) (by rcases hfree with h | h | h <;> simp [h])
  · rename_i hleak
    rw [not_or, not_or] at hleak
    rw [or_iff_right hleak.1, or_iff_right hleak.2.1, or_iff_right hleak.2.2]
    simp only [List.mem_singleton, forall_eq,
      @read_eq_and_not_iff v .cpuExecCtrl1 rfl rfl controlBit]

/-- The leaks are harmless exactly under that condition. -/
theorem forall_leaks_iff (t : SubTest) :
    (∀ f ∈ t.leaks p v, p.writes f.1 = true → v.read f.1 = f.1.fit f.2) ↔
      t.Undisturbed p v := by
  cases t with
  | vmcsPageReference => exact forall_pageReferenceLeaks_iff _ _ _
  | apicAccessAddr =>
    simp only [leaks, apicAccessLeaks, List.forall_mem_cons, forall_pageReferenceLeaks_iff]
    refine and_congr Iff.rfl ?_
    simp only [Bool.false_eq_true, false_or]
    exact or_congr Iff.rfl (or_iff_right (by decide))
  | apicVirtualCtls =>
    simp only [leaks, apicVirtualLeaks, Undisturbed]
    split
    · rename_i hearly
      have h₀ := @read_eq_or_iff v .cpuExecCtrl0 rfl rfl (cpuSecondary ||| cpuTprShadow)
      rw [← BitVec.or_assoc] at h₀
      rw [or_iff_right (not_not.mpr hearly.1), or_iff_right hearly.2]
      simp only [List.forall_mem_cons, List.not_mem_nil, false_implies, implies_true, and_true,
        h₀, @read_eq_and_not_iff v .cpuExecCtrl1 rfl rfl apicBits]
    · rename_i hearly
      refine iff_of_true (by simp) ?_
      by_cases h : p.ctrlCpuRev0.clr &&& (cpuSecondary ||| cpuTprShadow) =
          cpuSecondary ||| cpuTprShadow
      · exact .inr (.inl (not_not.mp fun hn => hearly ⟨h, hn⟩))
      · exact .inl h
  | postedIntr =>
    simp only [leaks, postedIntrLeaks, Undisturbed]
    split
    · rename_i hsup
      have hpinv : Encoding.pinv.fit 0 = 0 := rfl
      have hdesc : Encoding.postedIntrDescAddr.fit 0xc000 = 0xc000 := rfl
      rw [or_iff_right hsup.1, or_iff_right hsup.2.1, or_iff_right hsup.2.2]
      simp only [List.forall_mem_cons, List.not_mem_nil, false_implies, implies_true, and_true,
        @read_eq_or_iff v .exiControls rfl rfl exiInta, hpinv, hdesc]
    · rename_i hsup
      simp only [ne_eq, not_and_or, not_not] at hsup
      exact iff_of_true (by simp) (by rcases hsup with h | h | h <;> simp [h])
  | vpid =>
    simp only [leaks, Undisturbed, List.mem_singleton, forall_eq]
    rfl
  | tprThreshold =>
    simp only [leaks, tprThresholdLeaks, Undisturbed]
    split
    · rename_i hoff
      exact iff_of_true (by simp) (.inl hoff)
    · rename_i hon
      have hpage : Encoding.apicVirtAddr.fit p.page = p.page := rfl
      have hlast : Encoding.tprThreshold.fit 0x7fffffff = 0x7fffffff := rfl
      rw [or_iff_right hon]
      simp only [List.forall_mem_cons, List.not_mem_nil, false_implies, implies_true, and_true,
        hpage, hlast]
  | virtualIntrCtls => exact iff_of_true (by simp [leaks]) trivial
  | invalidEventInjection => exact iff_of_true (by simp [leaks]) trivial

/-- A sub-test that returns leaves every control, guest-state and VM-entry field as on entry
exactly if what it leaks was there already. -/
theorem run_restored_iff (t : SubTest) (h : t.run p m = some ((), m')) :
    Restored m.vmcs m'.vmcs ↔ t.Undisturbed p m.vmcs := by
  rw [(t.run_agree h).restored_iff, restored_puts_iff t.leaks_apart, forall_leaks_iff]

/-- A processor that offers every control and refuses every launch. -/
def refusing : Platform where
  reads _ := true
  writes e := e.area ≠ .exitInfo
  reads_of_writes _ _ := rfl
  stale v e := v.read e
  launch v _ := (false, v)
  ctrlPinRev := ⟨-1⟩
  ctrlCpuRev0 := ⟨-1⟩
  ctrlCpuRev1 := ⟨-1⟩
  ctrlExitRev := ⟨-1⟩
  ramSize := 0x10000000
  maxphyaddr := 36
  page := 0x200000
  success := 0x400000
  rsp := 0x410000

/-- A machine whose VMCS is blank but for its VPID. -/
def withVpid (x : BitVec 64) : VmxMachine where
  vmcs := Vmcs.write (fun _ => 0) .vpid x
  mem _ := 0
  reports := []

theorem run_vpid_returns (x : BitVec 64) :
    ∃ m', SubTest.vpid.run refusing (withVpid x) = some ((), m') := by
  have hcontrols := @returns_testVmxControls refusing fun _ _ => rfl
  have h : Returns (testVpid refusing) := by
    refine .bind (returns_vmcsReadU32 _) fun _ => .bind (returns_vmcsReadU32 _) fun _ => ?_
    rw [if_neg (by decide)]
    refine .bind (returns_vmcsWrite _ _) fun _ => .bind (returns_vmcsWrite _ _) fun _ => ?_
    refine .bind (returns_vmcsWrite _ _) fun _ => .bind (hcontrols _ _) fun _ => ?_
    refine .bind (returns_vmcsWrite _ _) fun _ => .bind (hcontrols _ _) fun _ => ?_
    refine .bind (.forM (fun i => ?_) _) fun _ => ?_
    · exact .bind (returns_vmcsWrite _ _) fun _ => hcontrols _ _
    · exact .bind (returns_vmcsWrite _ _) fun _ => returns_vmcsWrite _ _
  obtain ⟨_, m', h⟩ := h (withVpid x)
  exact ⟨m', h⟩

/-- With the VPID that the sub-test tries last, the VMCS is as on entry. -/
theorem run_restored_vpid :
    ∃ m', SubTest.vpid.run refusing (withVpid 0x8000) = some ((), m') ∧
      Restored (withVpid 0x8000).vmcs m'.vmcs := by
  obtain ⟨m', h⟩ := run_vpid_returns 0x8000
  exact ⟨m', h, (run_restored_iff .vpid h).mpr fun _ => rfl⟩

/-- A VPID of zero is not put back. -/
theorem run_leaves_vpid :
    ¬∀ (p : Platform) (t : SubTest) (m m' : VmxMachine), t.run p m = some ((), m') →
      Restored m.vmcs m'.vmcs := by
  intro hall
  obtain ⟨m', h⟩ := run_vpid_returns 0
  have hread : m'.vmcs.read .vpid = 0x8000 := by
    rw [(testVpid_agree h).read_eq rfl (by simp)]
    rfl
  have hzero : m'.vmcs.read .vpid = 0 := hall _ _ _ _ h .vpid rfl
  rw [hread] at hzero
  exact absurd hzero (by decide)

end SubTest

end AcrnUt
