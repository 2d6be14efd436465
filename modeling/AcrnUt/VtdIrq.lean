import AcrnUt.VtdDma

/-!
# Interrupt remapping

The interrupt-remapping table of `lib/x86/intel-iommu.c`. `vtd_setup_ir_table` allocates
one page for it and declares `2^16` entries. `vtd_setup_msi` and `vtd_setup_ioapic_irq`
take the next index, fill the entry of that index, and encode the index in the message
they program, each with bit 15 in a place of its own.

The counter stops at 65535, so the indices are distinct, decode to themselves, and name
entries that no later call touches (`VtdIrq.run_spec`). An entry has 16 bytes and the
page holds 256 of them : the entries lie in the table exactly as long as there are at
most 255 calls (`VtdIrq.tableSafe_iff`).
-/

set_option linter.unusedSectionVars false

namespace AcrnUt

/-! ## Layouts -/

namespace VtdIrte

/-- The fields of the first eight bytes of `struct vtd_irte`. -/
def present : BitField 64 1 :=
  ⟨0, Nat.le_add_left 1 63⟩

@[inherit_doc present]
def faultDisable : BitField 64 1 :=
  ⟨1, Nat.le_add_left 2 62⟩

@[inherit_doc present]
def destMode : BitField 64 1 :=
  ⟨2, by norm_num⟩

@[inherit_doc present]
def triggerMode : BitField 64 1 :=
  ⟨4, by norm_num⟩

@[inherit_doc present]
def deliveryMode : BitField 64 3 :=
  ⟨5, by norm_num⟩

@[inherit_doc present]
def irteMode : BitField 64 1 :=
  ⟨15, by norm_num⟩

@[inherit_doc present]
def vector : BitField 64 8 :=
  ⟨16, by norm_num⟩

@[inherit_doc present]
def destId : BitField 64 32 :=
  ⟨32, by norm_num⟩

/-- The fields of the last eight bytes. -/
def sourceId : BitField 64 16 :=
  ⟨0, by norm_num⟩

@[inherit_doc sourceId]
def sidQ : BitField 64 2 :=
  ⟨16, by norm_num⟩

@[inherit_doc sourceId]
def sidVtype : BitField 64 2 :=
  ⟨18, by norm_num⟩

end VtdIrte

namespace VtdMsiAddr

/-- The fields of `struct vtd_msi_addr`. -/
def handle15 : BitField 64 1 :=
  ⟨2, by norm_num⟩

@[inherit_doc handle15]
def shv : BitField 64 1 :=
  ⟨3, by norm_num⟩

@[inherit_doc handle15]
def interruptFormat : BitField 64 1 :=
  ⟨4, by norm_num⟩

@[inherit_doc handle15]
def handle014 : BitField 64 15 :=
  ⟨5, by norm_num⟩

@[inherit_doc handle15]
def head : BitField 64 12 :=
  ⟨20, by norm_num⟩

end VtdMsiAddr

/-- The field `subhandle` of `struct vtd_msi_data`. -/
def VtdMsiData.subhandle : BitField 32 16 :=
  ⟨16, by norm_num⟩

namespace VtdIoapicEntry

/-- The fields of `struct vtd_ioapic_entry`. -/
def vector : BitField 64 8 :=
  ⟨0, by norm_num⟩

@[inherit_doc vector]
def index15 : BitField 64 1 :=
  ⟨11, by norm_num⟩

@[inherit_doc vector]
def triggerMode : BitField 64 1 :=
  ⟨15, by norm_num⟩

@[inherit_doc vector]
def interruptFormat : BitField 64 1 :=
  ⟨48, by norm_num⟩

@[inherit_doc vector]
def index014 : BitField 64 15 :=
  ⟨49, by norm_num⟩

end VtdIoapicEntry

/-- `trigger_mode_t`. -/
inductive TriggerMode
  | edge
  | level
  deriving DecidableEq

/-- The value of a trigger mode. -/
def TriggerMode.value : TriggerMode → BitVec 1
  | .edge => 0
  | .level => 1

/-! ## The source -/

/-- Memory, `DMAR_IRTA_REG`, and the counter of `vtd_intr_index_alloc`. -/
structure VtdIr where
  machine : Machine 64
  irta : BitVec 64
  indexCtr : BitVec 32

/-- `vtd_setup_ir_table`. `0xf` stands for `2^(0xf + 1)` entries. -/
def vtdSetupIrTable (m : Machine 64) : VtdIr :=
  let (root, m) := allocPage m
  ⟨m.clearPage root, virtToPhys root ||| 0xf, 0⟩

/-- `vtd_ir_table`. -/
def vtdIrTable (s : VtdIr) : BitVec 64 :=
  s.irta &&& ~~~(pageSize - 1)

/-- `vtd_intr_index_alloc`. -/
def vtdIntrIndexAlloc (s : VtdIr) : Option (BitVec 16 × VtdIr) :=
  if s.indexCtr.slt 65535 then
    let ctr := s.indexCtr + 1
    some (ctr.setWidth 16, { s with indexCtr := ctr })
  else none

/-- The address of the first eight bytes of entry `index` of a table. -/
def vtdIrteQuad1 (irte : BitVec 64) (index : BitVec 16) : BitVec 64 :=
  entryAddr irte (BitVec.ofNat 64 (2 * index.toNat))

/-- The address of the last eight bytes. -/
def vtdIrteQuad2 (irte : BitVec 64) (index : BitVec 16) : BitVec 64 :=
  entryAddr irte (BitVec.ofNat 64 (2 * index.toNat + 1))

/-- The first eight bytes that `vtd_setup_irte` writes. -/
def vtdSetupIrte.quad1 (vector destId : BitVec 32) (trigger : TriggerMode) : BitVec 64 :=
  let q := VtdIrte.faultDisable.set 0 1
  let q := VtdIrte.destMode.set q 0
  let q := VtdIrte.triggerMode.set q trigger.value
  let q := VtdIrte.deliveryMode.set q 0
  let q := VtdIrte.irteMode.set q 0
  let q := VtdIrte.vector.set q (vector.setWidth 8)
  let q := VtdIrte.destId.set q destId
  VtdIrte.present.set q 1

/-- The last eight bytes that it writes. -/
def vtdSetupIrte.quad2 (bdf : BitVec 16) : BitVec 64 :=
  let q := VtdIrte.sourceId.set 0 bdf
  let q := VtdIrte.sidQ.set q 0
  VtdIrte.sidVtype.set q 1

/-- `vtd_setup_irte`, for entry `index` of the table. -/
def vtdSetupIrte (bdf : BitVec 16) (irte : BitVec 64) (index : BitVec 16)
    (vector destId : BitVec 32) (trigger : TriggerMode) (m : Machine 64) : Machine 64 :=
  (m.store (vtdIrteQuad1 irte index) (vtdSetupIrte.quad1 vector destId trigger)).store
    (vtdIrteQuad2 irte index) (vtdSetupIrte.quad2 bdf)

/-- The address that `vtd_setup_msi` makes of an index. -/
def vtdSetupMsi.msiAddr (index : BitVec 16) : BitVec 64 :=
  let a := VtdMsiAddr.handle15.set 0 ((index >>> 15 &&& 1).setWidth 1)
  let a := VtdMsiAddr.shv.set a 0
  let a := VtdMsiAddr.interruptFormat.set a 1
  let a := VtdMsiAddr.handle014.set a ((index &&& 0x7fff).setWidth 15)
  VtdMsiAddr.head.set a 0xfee

/-- `vtd_setup_msi`, up to `pci_setup_msi` : the address and the data it passes on. -/
def vtdSetupMsi (bdf : BitVec 16) (vector destId : BitVec 32) (s : VtdIr) :
    Option ((BitVec 64 × BitVec 32) × VtdIr) := do
  let irte := physToVirt (vtdIrTable s)
  let (index, s) ← vtdIntrIndexAlloc s
  let s := { s with machine := vtdSetupIrte bdf irte index vector destId .edge s.machine }
  some ((vtdSetupMsi.msiAddr index, VtdMsiData.subhandle.set 0 0), s)

/-- The entry that `vtd_setup_ioapic_irq` makes. -/
def vtdSetupIoapicIrq.entry (vector : BitVec 32) (trigger : TriggerMode) (index : BitVec 16) :
    BitVec 64 :=
  let e := VtdIoapicEntry.vector.set 0 (vector.setWidth 8)
  let e := VtdIoapicEntry.triggerMode.set e trigger.value
  let e := VtdIoapicEntry.index15.set e ((index >>> 15 &&& 1).setWidth 1)
  let e := VtdIoapicEntry.interruptFormat.set e 1
  VtdIoapicEntry.index014.set e ((index &&& 0x7fff).setWidth 15)

/-- `vtd_setup_ioapic_irq`, up to `ioapic_write_redir` : the entry it writes. -/
def vtdSetupIoapicIrq (bdf : BitVec 16) (vector destId : BitVec 32) (trigger : TriggerMode)
    (s : VtdIr) : Option (BitVec 64 × VtdIr) := do
  let irte := physToVirt (vtdIrTable s)
  let (index, s) ← vtdIntrIndexAlloc s
  let s := { s with machine := vtdSetupIrte bdf irte index vector destId trigger s.machine }
  some (vtdSetupIoapicIrq.entry vector trigger index, s)

/-! ## Runs -/

/-- A call of `vtd_setup_msi` or of `vtd_setup_ioapic_irq`. A vector has 8 bits. -/
structure VtdIrqCall where
  bdf : BitVec 16
  vector : BitVec 32
  destId : BitVec 32
  /-- The trigger mode of an IO-APIC line, `none` for MSI. -/
  ioapic : Option TriggerMode
  vector_lt : vector.toNat < 2 ^ 8

/-- What a call programs : an MSI address and data, or an IO-APIC entry. -/
inductive VtdIrqMsg
  | msi (addr : BitVec 64) (data : BitVec 32)
  | ioapic (entry : BitVec 64)

/-- The index that the hardware decodes from a message in remappable format. -/
def VtdIrqMsg.index : VtdIrqMsg → BitVec 16
  | .msi addr _ => VtdMsiAddr.handle15.get addr ++ VtdMsiAddr.handle014.get addr
  | .ioapic entry => VtdIoapicEntry.index15.get entry ++ VtdIoapicEntry.index014.get entry

/-- The message is in remappable format. -/
def VtdIrqMsg.Remappable : VtdIrqMsg → Prop
  | .msi addr _ => VtdMsiAddr.interruptFormat.get addr = 1
  | .ioapic entry => VtdIoapicEntry.interruptFormat.get entry = 1

namespace VtdIrqCall

/-- The trigger mode of the interrupt : MSI is edge-triggered. -/
def trigger (c : VtdIrqCall) : TriggerMode :=
  c.ioapic.getD .edge

/-- A call. -/
def run (s : VtdIr) (c : VtdIrqCall) : Option (VtdIrqMsg × VtdIr) :=
  match c.ioapic with
  | none => (vtdSetupMsi c.bdf c.vector c.destId s).map fun r => (.msi r.1.1 r.1.2, r.2)
  | some trigger =>
    (vtdSetupIoapicIrq c.bdf c.vector c.destId trigger s).map fun r => (.ioapic r.1, r.2)

/-- The entry holds what the call asked for. -/
structure Holds (c : VtdIrqCall) (quad1 quad2 : BitVec 64) : Prop where
  present : VtdIrte.present.get quad1 = 1
  vector : (VtdIrte.vector.get quad1).toNat = c.vector.toNat
  destId : VtdIrte.destId.get quad1 = c.destId
  trigger : VtdIrte.triggerMode.get quad1 = c.trigger.value
  sourceId : VtdIrte.sourceId.get quad2 = c.bdf

end VtdIrqCall

/-- A run of calls, with the messages they program. -/
def vtdIrqRun (s : VtdIr) : List VtdIrqCall → Option (List VtdIrqMsg × VtdIr)
  | [] => some ([], s)
  | c :: calls => do
    let (msg, s) ← c.run s
    let (msgs, s) ← vtdIrqRun s calls
    some (msg :: msgs, s)

/-- What a run of calls should do with the table at `root` : distinct indices, entries in the
page of the table, messages that decode to the entry of their call, and no entry that a
later call alters. -/
structure VtdIrqOk (root : BitVec 64) (s₀ : VtdIr) (calls : List VtdIrqCall)
    (msgs : List VtdIrqMsg) (s : VtdIr) : Prop where
  distinct : (msgs.map VtdIrqMsg.index).Nodup
  inside : ∀ msg ∈ msgs, InPage (vtdIrteQuad1 root msg.index) root ∧
    InPage (vtdIrteQuad2 root msg.index) root
  remappable : ∀ msg ∈ msgs, msg.Remappable
  holds : List.Forall₂ (fun c msg => VtdIrqCall.Holds c
    (s.machine.mem (vtdIrteQuad1 root msg.index)) (s.machine.mem (vtdIrteQuad2 root msg.index)))
    calls msgs
  kept : ∀ pre post, calls = pre ++ post → ∀ msgs₁ s₁, vtdIrqRun s₀ pre = some (msgs₁, s₁) →
    ∀ msg ∈ msgs₁,
      s.machine.mem (vtdIrteQuad1 root msg.index) =
          s₁.machine.mem (vtdIrteQuad1 root msg.index) ∧
        s.machine.mem (vtdIrteQuad2 root msg.index) =
          s₁.machine.mem (vtdIrteQuad2 root msg.index)

/-! ## One call -/

/-- The two parts of an index make up the index. -/
theorem vtdIndex_append (index : BitVec 16) :
    ((index >>> 15 &&& 1).setWidth 1 ++ (index &&& 0x7fff).setWidth 15 : BitVec 16) = index := by
  have hmask : ∀ i < 15, (0x7fff : BitVec 16).getLsbD i = true := by decide
  refine BitVec.eq_of_getLsbD_eq fun i hi => ?_
  rw [BitVec.getLsbD_append]
  rcases Nat.lt_or_ge i 15 with h | h
  · rw [if_pos h, BitVec.getLsbD_setWidth, BitVec.getLsbD_and, hmask i h]
    simp [h]
  · obtain rfl : i = 15 := by omega
    rw [if_neg (lt_irrefl _), BitVec.getLsbD_setWidth, BitVec.getLsbD_and,
      BitVec.getLsbD_ushiftRight]
    simp

/-- Entries of one table have different words. -/
theorem vtdIrteAddr_inj {t : BitVec 64} {i j : ℕ} (hi : i < 2 ^ 17) (hj : j < 2 ^ 17)
    (h : entryAddr t (BitVec.ofNat 64 i) = entryAddr t (BitVec.ofNat 64 j)) : i = j := by
  rw [entryAddr_eq, entryAddr_eq, BitVec.add_right_inj] at h
  have h' := congrArg BitVec.toNat h
  rw [BitVec.toNat_ofNat, BitVec.toNat_ofNat, BitVec.toNat_ofNat, BitVec.toNat_ofNat] at h'
  omega

/-- A word of the table lies in its first page exactly if it is among the first 512. -/
theorem inPage_entryAddr_iff {t : BitVec 64} {i : ℕ} (hi : i < 2 ^ 17) :
    InPage (entryAddr t (BitVec.ofNat 64 i)) t ↔ i < 512 := by
  have hsub : entryAddr t (BitVec.ofNat 64 i) - t = BitVec.ofNat 64 (i * 8) := by
    rw [entryAddr_eq, BitVec.add_comm, BitVec.add_sub_cancel, BitVec.toNat_ofNat,
      Nat.mod_eq_of_lt (by omega)]
  have hshift : 2 ^ pageShift 64 = 512 * 8 := rfl
  unfold InPage
  rw [hsub, BitVec.toNat_ofNat, Nat.mod_eq_of_lt (by omega), hshift]
  omega

section Call

variable {s : VtdIr} {c : VtdIrqCall}

/-- The counter against its bound, as signed numbers. -/
theorem slt_bound_iff {ctr : BitVec 32} (h : ctr.toNat < 2 ^ 31) :
    ctr.slt 65535 = true ↔ ctr.toNat < 65535 := by
  have hbound : (65535 : BitVec 32).toInt = 65535 := by decide
  rw [BitVec.slt_eq_decide, decide_eq_true_eq, BitVec.toInt_eq_toNat_of_lt (by omega), hbound]
  omega

/-- Below its bound, the counter gives the next index. -/
theorem vtdIntrIndexAlloc_eq (h : s.indexCtr.toNat < 65535) :
    vtdIntrIndexAlloc s =
      some ((s.indexCtr + 1).setWidth 16, { s with indexCtr := s.indexCtr + 1 }) :=
  if_pos ((slt_bound_iff (by omega)).mpr h)

theorem vtdIntrIndexAlloc_eq_none (h : 65535 ≤ s.indexCtr.toNat) (h' : s.indexCtr.toNat < 2 ^ 31) :
    vtdIntrIndexAlloc s = none :=
  if_neg fun hlt => not_lt.mpr h ((slt_bound_iff h').mp hlt)

/-- What `vtd_setup_irte` writes is what the call asked for. -/
theorem VtdIrqCall.holds_quads (c : VtdIrqCall) :
    c.Holds (vtdSetupIrte.quad1 c.vector c.destId c.trigger) (vtdSetupIrte.quad2 c.bdf) where
  present := BitField.get_set ..
  vector := by
    unfold vtdSetupIrte.quad1
    rw [BitField.get_set_of_disjoint (by decide), BitField.get_set_of_disjoint (by decide),
      BitField.get_set, BitVec.toNat_setWidth, Nat.mod_eq_of_lt c.vector_lt]
  destId := by
    unfold vtdSetupIrte.quad1
    rw [BitField.get_set_of_disjoint (by decide), BitField.get_set]
  trigger := by
    unfold vtdSetupIrte.quad1
    rw [BitField.get_set_of_disjoint (by decide), BitField.get_set_of_disjoint (by decide),
      BitField.get_set_of_disjoint (by decide), BitField.get_set_of_disjoint (by decide),
      BitField.get_set_of_disjoint (by decide), BitField.get_set]
  sourceId := by
    unfold vtdSetupIrte.quad2
    rw [BitField.get_set_of_disjoint (by decide), BitField.get_set_of_disjoint (by decide),
      BitField.get_set]

/-- The messages decode to the index they are made of. -/
theorem vtdSetupMsi.index_msiAddr (index : BitVec 16) (data : BitVec 32) :
    (VtdIrqMsg.msi (msiAddr index) data).index = index ∧
      (VtdIrqMsg.msi (msiAddr index) data).Remappable := by
  have h15 : VtdMsiAddr.handle15.get (msiAddr index) = (index >>> 15 &&& 1).setWidth 1 := by
    unfold msiAddr
    rw [BitField.get_set_of_disjoint (by decide), BitField.get_set_of_disjoint (by decide),
      BitField.get_set_of_disjoint (by decide), BitField.get_set_of_disjoint (by decide),
      BitField.get_set]
  have h014 : VtdMsiAddr.handle014.get (msiAddr index) = (index &&& 0x7fff).setWidth 15 := by
    unfold msiAddr
    rw [BitField.get_set_of_disjoint (by decide), BitField.get_set]
  have hformat : VtdMsiAddr.interruptFormat.get (msiAddr index) = 1 := by
    unfold msiAddr
    rw [BitField.get_set_of_disjoint (by decide), BitField.get_set_of_disjoint (by decide),
      BitField.get_set]
  exact ⟨(congrArg₂ (· ++ ·) h15 h014).trans (vtdIndex_append index), hformat⟩

@[inherit_doc vtdSetupMsi.index_msiAddr]
theorem vtdSetupIoapicIrq.index_entry (vector : BitVec 32) (trigger : TriggerMode)
    (index : BitVec 16) :
    (VtdIrqMsg.ioapic (entry vector trigger index)).index = index ∧
      (VtdIrqMsg.ioapic (entry vector trigger index)).Remappable := by
  have h15 : VtdIoapicEntry.index15.get (entry vector trigger index) =
      (index >>> 15 &&& 1).setWidth 1 := by
    unfold entry
    rw [BitField.get_set_of_disjoint (by decide), BitField.get_set_of_disjoint (by decide),
      BitField.get_set]
  have h014 : VtdIoapicEntry.index014.get (entry vector trigger index) =
      (index &&& 0x7fff).setWidth 15 := BitField.get_set ..
  have hformat : VtdIoapicEntry.interruptFormat.get (entry vector trigger index) = 1 := by
    unfold entry
    rw [BitField.get_set_of_disjoint (by decide), BitField.get_set]
  exact ⟨(congrArg₂ (· ++ ·) h15 h014).trans (vtdIndex_append index), hformat⟩

/-- A call takes the next index, fills its entry, and programs a message that decodes to
it. -/
theorem VtdIrqCall.run_spec (h : s.indexCtr.toNat < 65535) :
    ∃ msg, c.run s = some (msg, ⟨vtdSetupIrte c.bdf (vtdIrTable s)
        ((s.indexCtr + 1).setWidth 16) c.vector c.destId c.trigger s.machine, s.irta,
          s.indexCtr + 1⟩) ∧
      msg.index = (s.indexCtr + 1).setWidth 16 ∧ msg.Remappable := by
  have halloc := vtdIntrIndexAlloc_eq h
  unfold run
  cases hc : c.ioapic with
  | none =>
    have htrigger : c.trigger = .edge := by rw [trigger, hc]; rfl
    simp only [vtdSetupMsi, halloc, Option.bind_eq_bind, Option.bind_some, Option.map_some,
      htrigger, physToVirt]
    exact ⟨_, rfl, vtdSetupMsi.index_msiAddr _ _⟩
  | some t =>
    have htrigger : c.trigger = t := by rw [trigger, hc]; rfl
    simp only [vtdSetupIoapicIrq, halloc, Option.bind_eq_bind, Option.bind_some, Option.map_some,
      htrigger, physToVirt]
    exact ⟨_, rfl, vtdSetupIoapicIrq.index_entry _ _ _⟩

theorem VtdIrqCall.run_eq_none (h : 65535 ≤ s.indexCtr.toNat) (h' : s.indexCtr.toNat < 2 ^ 31) :
    c.run s = none := by
  have halloc := vtdIntrIndexAlloc_eq_none h h'
  unfold run
  cases c.ioapic with
  | none => simp [vtdSetupMsi, halloc]
  | some t => simp [vtdSetupIoapicIrq, halloc]

end Call

/-! ## All calls -/

section Run

variable {s : VtdIr} {root : BitVec 64}

/-- The words of different entries are different. -/
theorem vtdSetupIrte_mem (root : BitVec 64) (bdf : BitVec 16) {index i : BitVec 16}
    (vector destId : BitVec 32) (trigger : TriggerMode) (m : Machine 64) (h : i ≠ index) :
    (vtdSetupIrte bdf root index vector destId trigger m).mem (vtdIrteQuad1 root i) =
        m.mem (vtdIrteQuad1 root i) ∧
      (vtdSetupIrte bdf root index vector destId trigger m).mem (vtdIrteQuad2 root i) =
        m.mem (vtdIrteQuad2 root i) := by
  have hne : i.toNat ≠ index.toNat := fun hi => h (BitVec.eq_of_toNat_eq hi)
  have hdiff : ∀ k k', k < 2 → k' < 2 → entryAddr root (BitVec.ofNat 64 (2 * i.toNat + k)) ≠
      entryAddr root (BitVec.ofNat 64 (2 * index.toNat + k')) := fun k k' hk hk' hs => by
    have := vtdIrteAddr_inj (by omega) (by omega) hs
    omega
  unfold vtdSetupIrte
  constructor
  · exact (Machine.store_mem_of_ne _ (hdiff 0 1 (by norm_num) (by norm_num))).trans
      (Machine.store_mem_of_ne _ (hdiff 0 0 (by norm_num) (by norm_num)))
  · exact (Machine.store_mem_of_ne _ (hdiff 1 1 (by norm_num) (by norm_num))).trans
      (Machine.store_mem_of_ne _ (hdiff 1 0 (by norm_num) (by norm_num)))

/-- The words of the entry itself. -/
theorem vtdSetupIrte_mem_self (root : BitVec 64) (bdf index : BitVec 16)
    (vector destId : BitVec 32) (trigger : TriggerMode) (m : Machine 64) :
    (vtdSetupIrte bdf root index vector destId trigger m).mem (vtdIrteQuad1 root index) =
        vtdSetupIrte.quad1 vector destId trigger ∧
      (vtdSetupIrte bdf root index vector destId trigger m).mem (vtdIrteQuad2 root index) =
        vtdSetupIrte.quad2 bdf := by
  have hindex := index.isLt
  unfold vtdSetupIrte
  constructor
  · rw [Machine.store_mem_of_ne, Machine.store_mem_self]
    intro hs
    have := vtdIrteAddr_inj (by omega) (by omega) hs
    omega
  · rw [Machine.store_mem_self]

/-- What a run of calls does : it hands out the next indices in order, fills the entry of
each, and leaves the entries of the indices before. -/
structure VtdIrqRan (root : BitVec 64) (s : VtdIr) (calls : List VtdIrqCall)
    (msgs : List VtdIrqMsg) (s' : VtdIr) : Prop where
  irta : s'.irta = s.irta
  ctr : s'.indexCtr.toNat = s.indexCtr.toNat + calls.length
  indices : msgs.map (fun msg => msg.index.toNat) =
    List.range' (s.indexCtr.toNat + 1) calls.length
  remappable : ∀ msg ∈ msgs, msg.Remappable
  holds : List.Forall₂ (fun c msg => VtdIrqCall.Holds c
    (s'.machine.mem (vtdIrteQuad1 root msg.index)) (s'.machine.mem (vtdIrteQuad2 root msg.index)))
    calls msgs
  kept : ∀ i : BitVec 16, i.toNat ≤ s.indexCtr.toNat →
    s'.machine.mem (vtdIrteQuad1 root i) = s.machine.mem (vtdIrteQuad1 root i) ∧
      s'.machine.mem (vtdIrteQuad2 root i) = s.machine.mem (vtdIrteQuad2 root i)

theorem VtdIrq.run_spec : ∀ (calls : List VtdIrqCall) (s : VtdIr), vtdIrTable s = root →
    s.indexCtr.toNat + calls.length ≤ 65535 →
    ∃ msgs s', vtdIrqRun s calls = some (msgs, s') ∧ VtdIrqRan root s calls msgs s'
  | [], s, _, _ => ⟨[], s, rfl, rfl, rfl, rfl, fun _ h => absurd h List.not_mem_nil, .nil,
      fun _ _ => ⟨rfl, rfl⟩⟩
  | c :: calls, s, hroot, hlen => by
    rw [List.length_cons] at hlen
    obtain ⟨msg, hrun, hindex, hremap⟩ := c.run_spec (s := s) (by omega)
    rw [hroot, ← hindex] at hrun
    have hctr : (s.indexCtr + 1).toNat = s.indexCtr.toNat + 1 := by
      have hone : (1 : BitVec 32).toNat = 1 := rfl
      rw [BitVec.toNat_add, hone, Nat.mod_eq_of_lt (by omega)]
    have hmsg : msg.index.toNat = s.indexCtr.toNat + 1 := by
      rw [hindex, BitVec.toNat_setWidth, hctr, Nat.mod_eq_of_lt (by omega)]
    obtain ⟨msgs, s', hrun', h'⟩ := run_spec calls ⟨vtdSetupIrte c.bdf root msg.index c.vector
      c.destId c.trigger s.machine, s.irta, s.indexCtr + 1⟩ hroot (by simp only [hctr]; omega)
    have hctr' := h'.ctr
    have hindices := h'.indices
    simp only [hctr] at hctr' hindices
    refine ⟨msg :: msgs, s', ?_, h'.irta, ?_, ?_, ?_, ?_, ?_⟩
    · simp only [vtdIrqRun, hrun, hrun', Option.bind_eq_bind, Option.bind_some]
    · rw [List.length_cons]
      omega
    · rw [List.map_cons, List.length_cons, List.range'_succ, hmsg, hindices]
    · exact List.forall_mem_cons.mpr ⟨hremap, h'.remappable⟩
    · refine .cons ?_ h'.holds
      have hkept := h'.kept msg.index (by simp only [hctr]; omega)
      obtain ⟨hquad1, hquad2⟩ := vtdSetupIrte_mem_self root c.bdf msg.index c.vector c.destId
        c.trigger s.machine
      rw [hkept.1, hkept.2, hquad1, hquad2]
      exact c.holds_quads
    · intro i hi
      have hkept := h'.kept i (by simp only [hctr]; omega)
      have hne : i ≠ msg.index := by
        rintro rfl
        omega
      have hother := vtdSetupIrte_mem root c.bdf c.vector c.destId c.trigger s.machine hne
      exact ⟨hkept.1.trans hother.1, hkept.2.trans hother.2⟩

theorem vtdIrqRun_append (post : List VtdIrqCall) : ∀ (pre : List VtdIrqCall) (s : VtdIr),
    vtdIrqRun s (pre ++ post) = (vtdIrqRun s pre).bind fun r =>
      (vtdIrqRun r.2 post).map fun r' => (r.1 ++ r'.1, r'.2)
  | [], s => by simp [vtdIrqRun]
  | c :: pre, s => by
    simp only [List.cons_append, vtdIrqRun, Option.bind_eq_bind]
    cases c.run s with
    | none => rfl
    | some r =>
      simp only [Option.bind_some, vtdIrqRun_append post pre r.2]
      cases vtdIrqRun r.2 pre with
      | none => rfl
      | some r₁ =>
        simp only [Option.bind_some]
        cases vtdIrqRun r₁.2 post <;> rfl

/-- An index that was handed out is one of the counter's. -/
theorem VtdIrqRan.mem_indices {calls : List VtdIrqCall} {msgs : List VtdIrqMsg} {s' : VtdIr}
    (h : VtdIrqRan root s calls msgs s') {n : ℕ} :
    (∃ msg ∈ msgs, msg.index.toNat = n) ↔
      s.indexCtr.toNat < n ∧ n ≤ s.indexCtr.toNat + calls.length := by
  rw [← List.mem_map, h.indices, List.mem_range'_1]
  omega

/-- From a fresh counter, a run does what it should exactly if it has at most 255 calls. -/
theorem VtdIrq.ok_iff {calls : List VtdIrqCall} {msgs : List VtdIrqMsg} {s' : VtdIr}
    (hroot : vtdIrTable s = root) (hctr : s.indexCtr.toNat = 0) (hlen : calls.length ≤ 65535)
    (hrun : vtdIrqRun s calls = some (msgs, s')) :
    VtdIrqOk root s calls msgs s' ↔ calls.length ≤ 255 := by
  obtain ⟨msgs', s'', hrun', hran⟩ := run_spec calls s hroot (by omega)
  obtain ⟨rfl, rfl⟩ := Prod.mk.inj (Option.some.inj (hrun'.symm.trans hrun))
  constructor
  · intro hok
    by_contra hmore
    have hlast : s.indexCtr.toNat < 256 ∧ 256 ≤ s.indexCtr.toNat + calls.length := by omega
    obtain ⟨msg, hmsg, hindex⟩ := hran.mem_indices.mpr hlast
    have hinside := (inPage_entryAddr_iff (by omega)).mp (hok.inside msg hmsg).1
    omega
  · intro hle
    have hindex : ∀ msg ∈ msgs', msg.index.toNat ≤ 255 := by
      intro msg hmsg
      have := (hran.mem_indices.mp ⟨msg, hmsg, rfl⟩).2
      omega
    refine ⟨?_, ?_, hran.remappable, hran.holds, ?_⟩
    · refine List.Nodup.of_map BitVec.toNat ?_
      rw [List.map_map]
      exact hran.indices ▸ List.nodup_range' _
    · intro msg hmsg
      have := hindex msg hmsg
      exact ⟨(inPage_entryAddr_iff (by omega)).mpr (by omega),
        (inPage_entryAddr_iff (by omega)).mpr (by omega)⟩
    · rintro pre post rfl msgs₁ s₁ hpre msg hmsg
      rw [List.length_append] at hlen
      obtain ⟨msgs₁', s₁', hpre', hran₁⟩ := run_spec pre s hroot (by omega)
      obtain ⟨rfl, rfl⟩ := Prod.mk.inj (Option.some.inj (hpre'.symm.trans hpre))
      have hctr₁ := hran₁.ctr
      have hroot₁ : vtdIrTable s₁' = root := by
        unfold vtdIrTable
        rw [hran₁.irta]
        exact hroot
      obtain ⟨msgs₂, s₂, hpost, hran₂⟩ := run_spec post s₁' hroot₁ (by omega)
      rw [vtdIrqRun_append, hpre, Option.bind_some, hpost] at hrun
      obtain ⟨-, rfl⟩ := Prod.mk.inj (Option.some.inj hrun)
      exact hran₂.kept msg.index (by
        have := (hran₁.mem_indices.mp ⟨msg, hmsg, rfl⟩).2
        omega)

/-- The table is the page that `vtd_setup_ir_table` allocates. -/
theorem vtdSetupIrTable_spec {m₀ : Machine 64} {l : List (BitVec 64)}
    (hl : m₀.FreeList (root :: l)) (hframe : IsFrame root) :
    vtdIrTable (vtdSetupIrTable m₀) = root := by
  have hrun : (vtdSetupIrTable m₀).irta = root ||| 0xf := by
    unfold vtdSetupIrTable
    rw [(allocPage_cons hl).1]
    rfl
  have hmask : ~~~(pageSize - 1 : BitVec 64) = vtdPteAddr := by decide
  unfold vtdIrTable
  rw [hrun, hmask]
  refine BitVec.eq_of_getLsbD_eq fun i hi => ?_
  rw [BitVec.getLsbD_and, BitVec.getLsbD_or, getLsbD_vtdPteAddr hi]
  rcases Nat.lt_or_ge i 12 with h12 | h12
  · rw [hframe.getLsbD h12, decide_eq_false (not_le.mpr h12), Bool.and_false]
  · have hsize : (0xf : BitVec 64).getLsbD i = false :=
      Nat.testBit_lt_two_pow (lt_of_lt_of_le (by norm_num : 15 < 2 ^ 12)
        (Nat.pow_le_pow_right two_pos h12))
    rw [hsize, Bool.or_false, decide_eq_true h12, Bool.and_true]

end Run

namespace VtdIrq

variable {m₀ : Machine 64} {root : BitVec 64} {l : List (BitVec 64)}

/-- The counter accepts 65535 calls. -/
theorem run_isSome_iff (hl : m₀.FreeList (root :: l)) (hframe : IsFrame root)
    (calls : List VtdIrqCall) :
    (vtdIrqRun (vtdSetupIrTable m₀) calls).isSome ↔ calls.length ≤ 65535 := by
  have hctr : (vtdSetupIrTable m₀).indexCtr.toNat = 0 := rfl
  have hroot := vtdSetupIrTable_spec hl hframe
  constructor
  · intro h
    by_contra hmore
    rw [not_le] at hmore
    obtain ⟨pre, c, post, rfl, hpre⟩ :
        ∃ pre c post, calls = pre ++ c :: post ∧ pre.length = 65535 :=
      ⟨calls.take 65535, calls.get ⟨65535, hmore⟩, calls.drop 65536,
        by simp, by rw [List.length_take]; omega⟩
    obtain ⟨msgs, s, hrun, hran⟩ := run_spec pre _ hroot (by omega)
    have hctr' := hran.ctr
    have hnone : c.run s = none := c.run_eq_none (by omega) (by omega)
    rw [vtdIrqRun_append, hrun, Option.bind_some, vtdIrqRun, hnone] at h
    exact absurd h (by simp)
  · intro hlen
    obtain ⟨msgs, s, hrun, -⟩ := run_spec calls _ hroot (by omega)
    rw [hrun]
    rfl

/-- Of the accepted runs exactly those of at most 255 calls do what they should. -/
theorem tableSafe_iff (hl : m₀.FreeList (root :: l)) (hframe : IsFrame root)
    (calls : List VtdIrqCall) (hlen : calls.length ≤ 65535) :
    ∃ msgs s, vtdIrqRun (vtdSetupIrTable m₀) calls = some (msgs, s) ∧
      (VtdIrqOk root (vtdSetupIrTable m₀) calls msgs s ↔ calls.length ≤ 255) := by
  have hctr : (vtdSetupIrTable m₀).indexCtr.toNat = 0 := rfl
  have hroot := vtdSetupIrTable_spec hl hframe
  obtain ⟨msgs, s, hrun, -⟩ := run_spec calls _ hroot (by omega)
  exact ⟨msgs, s, hrun, ok_iff hroot hctr hlen hrun⟩

/-- An MSI of one function. -/
def oneMsi : VtdIrqCall :=
  ⟨0x10, 0x40, 0, none, by decide⟩

/-- A level-triggered line of the IO-APIC, for another CPU. -/
def oneLine : VtdIrqCall :=
  ⟨0xf8, 0x77, 3, some .level, by decide⟩

/-- The longest safe runs have 255 calls, of either kind. -/
theorem tableSafe_fullTable :
    ∃ msgs s, vtdIrqRun (vtdSetupIrTable VtdDma.freshPages)
        (List.replicate 254 oneMsi ++ [oneLine]) = some (msgs, s) ∧
      VtdIrqOk 0x1000 (vtdSetupIrTable VtdDma.freshPages)
        (List.replicate 254 oneMsi ++ [oneLine]) msgs s := by
  have hlen : (List.replicate 254 oneMsi ++ [oneLine]).length = 255 := by
    rw [List.length_append, List.length_replicate, List.length_singleton]
  obtain ⟨msgs, s, hrun, hiff⟩ := tableSafe_iff VtdDma.freshPages_list
    (VtdDma.freshPages_frame _ List.mem_cons_self) (List.replicate 254 oneMsi ++ [oneLine])
    (by omega)
  exact ⟨msgs, s, hrun, hiff.mpr hlen.le⟩

/-- The 256th call writes past the page. -/
theorem table_overrun :
    ∃ msgs s, vtdIrqRun (vtdSetupIrTable VtdDma.freshPages) (List.replicate 256 oneMsi) =
        some (msgs, s) ∧
      ¬VtdIrqOk 0x1000 (vtdSetupIrTable VtdDma.freshPages) (List.replicate 256 oneMsi) msgs s := by
  have hctr : (vtdSetupIrTable VtdDma.freshPages).indexCtr.toNat = 0 := rfl
  have hroot := vtdSetupIrTable_spec VtdDma.freshPages_list
    (VtdDma.freshPages_frame _ List.mem_cons_self)
  have hlen : (List.replicate 256 oneMsi).length = 256 := List.length_replicate
  obtain ⟨msgs, s, hrun, -⟩ := run_spec (List.replicate 256 oneMsi) _ hroot (by omega)
  refine ⟨msgs, s, hrun, fun hok => ?_⟩
  have hle := (ok_iff hroot hctr (by omega) hrun).mp hok
  omega

end VtdIrq

end AcrnUt
