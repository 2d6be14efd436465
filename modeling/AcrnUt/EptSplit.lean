import AcrnUt.Ept

/-!
# What a split makes of a large entry

In a large entry bits 6:3 hold the memory type and the ignore-PAT bit of the page. In a pointer to a
table they are reserved, and so is bit 7 : `ept_access_test_reserved_bits` of `x86/vmx_tests.c`
checks that the processor refuses a pointer with one of them set (`EptPointer`).

`split_large_ept_entry` of `x86/vmx.c` clears bit 7, and copies bits 6:3 both to the parts, where
they belong, and to the pointer. So every guest address keeps what it meant (`EptMapping`,
`Splittable.mapping`), but the pointer is legal only if the page had memory type 0 and no ignore-PAT
bit (`splitLargeEptEntry_valid_iff`).
-/

set_option linter.unusedSectionVars false

namespace AcrnUt

/-! ## The bits of an entry -/

/-- `EPT_MEM_TYPE_SHIFT`. -/
def eptMemTypeShift : ℕ :=
  3

/-- `EPT_IGNORE_PAT`. -/
def eptIgnorePat : BitVec 64 :=
  1#64 <<< 6

/-- Bits 6:3 : the memory type and the ignore-PAT bit of a page. -/
def eptAttrMask : BitVec 64 :=
  7 <<< eptMemTypeShift ||| eptIgnorePat

/-- The entry is a legal pointer to a table : present, and bits 7:3 clear. -/
def EptPointer (e : BitVec 64) : Prop :=
  e &&& eptPresent ≠ 0 ∧ e &&& (eptAttrMask ||| eptLargePage) = 0

instance (e : BitVec 64) : Decidable (EptPointer e) :=
  inferInstanceAs (Decidable (_ ∧ _))

/-- What a guest address means, with the attributes of its page. -/
structure EptMapping where
  hostAddr : BitVec 64
  perms : BitVec 64
  memType : BitVec 64
  ignorePat : BitVec 64
deriving DecidableEq

/-- The meaning of a guest address, or `none` if it is not mapped. -/
def eptMapping (pml4 : BitVec 64) (cells : BitVec 64 → BitVec 64) (gpa : BitVec 64) :
    Option EptMapping :=
  (eptFormat.walk pml4 cells gpa).map fun es =>
    { hostAddr := eptHostAddr (eptFormat.pageLevel + 1 - es.length) (es.getLastD 0) gpa
      perms := eptPerms es
      memType := es.getLastD 0 >>> eptMemTypeShift &&& 7
      ignorePat := es.getLastD 0 &&& eptIgnorePat }

section Bits

variable {e e' p : BitVec 64} {level k : ℕ}

theorem getLsbD_eptAttrMask :
    ∀ k < 64, eptAttrMask.getLsbD k = (decide (3 ≤ k) && decide (k < 7)) := by
  decide

/-- Entries with the same attribute bits have the same memory type and ignore-PAT bit. -/
theorem attrs_eq (h : e &&& eptAttrMask = e' &&& eptAttrMask) :
    e >>> eptMemTypeShift &&& 7 = e' >>> eptMemTypeShift &&& 7 ∧
      e &&& eptIgnorePat = e' &&& eptIgnorePat := by
  have htype : ∀ x : BitVec 64, x >>> eptMemTypeShift &&& 7 =
      (x &&& eptAttrMask) >>> eptMemTypeShift &&& 7 := by
    intro x
    have hmask : eptAttrMask >>> eptMemTypeShift &&& 7 = 7 := by decide
    rw [BitVec.ushiftRight_and_distrib, BitVec.and_assoc, hmask]
  have hpat : ∀ x : BitVec 64, x &&& eptIgnorePat = x &&& eptAttrMask &&& eptIgnorePat := by
    intro x
    have hmask : eptAttrMask &&& eptIgnorePat = eptIgnorePat := by decide
    rw [BitVec.and_assoc, hmask]
  exact ⟨by rw [htype e, h, ← htype], by rw [hpat e, h, ← hpat]⟩

/-- The attribute bits of a large entry go to the pointer that replaces it. -/
theorem splitLink_attrs (hp : IsFrame p) : splitLink e p &&& eptAttrMask = e &&& eptAttrMask := by
  refine BitVec.eq_of_getLsbD_eq fun k hk => ?_
  rw [BitVec.getLsbD_and, BitVec.getLsbD_and, getLsbD_splitLink hk, getLsbD_eptAttrMask k hk]
  by_cases h : 3 ≤ k ∧ k < 7
  · have h12 : ¬12 ≤ k := by omega
    have hne : k ≠ 7 := by omega
    simp [h12, hne, hp.getLsbD (not_le.mp h12)]
  · have hout : (decide (3 ≤ k) && decide (k < 7)) = false := by simpa using h
    simp [hout]

/-- And to its parts. -/
theorem splitChild_attrs (hlevel : level = 2 ∨ level = 3) (ha : EptAligned level e) {i : ℕ}
    (hi : i < 512) : splitChild level e i &&& eptAttrMask = e &&& eptAttrMask := by
  obtain ⟨h12, -, -⟩ := eptLevelShift_eq hlevel
  refine BitVec.eq_of_getLsbD_eq fun k hk => ?_
  rw [BitVec.getLsbD_and, BitVec.getLsbD_and, getLsbD_splitChild hlevel ha hi hk,
    getLsbD_splitPrototype hk, getLsbD_eptAttrMask k hk, BitVec.getLsbD_and, getLsbD_addrMask hk]
  by_cases h : 3 ≤ k ∧ k < 7
  · have hlow : ¬12 ≤ k := by omega
    have hne : k ≠ 7 := by omega
    have hs : ¬eptLevelShift (level - 1) ≤ k := by omega
    simp [hlow, hne, hs]
  · have hout : (decide (3 ≤ k) && decide (k < 7)) = false := by simpa using h
    simp [hout]

end Bits

/-! ## The split -/

section Split

variable {m : Machine 64} {pml4 gpa t₀ slot p : BitVec 64} {rest : List (BitVec 64)} {d level : ℕ}

/-- A split keeps the meaning of every guest address. -/
theorem Splittable.mapping (h : Splittable m pml4 gpa t₀ slot d level) (hp : IsFrame p)
    (hfresh : p ∉ eptFormat.radix.tables m.mem pml4) (r v : BitVec 64) :
    eptMapping pml4 (splitMachine slot p level r m).mem v = eptMapping pml4 m.mem v := by
  refine h.walk_map hp hfresh r v (fun host perms e =>
    EptMapping.mk host perms (e >>> eptMemTypeShift &&& 7) (e &&& eptIgnorePat)) ?_
  intro host perms i hi
  obtain ⟨htype, hpat⟩ := attrs_eq (splitChild_attrs h.level_cases h.aligned hi)
  rw [htype, hpat]

/-- The pointer that replaces a large entry is legal if the page had no attribute bit set. -/
theorem eptPointer_splitLink_iff {e : BitVec 64} (hp : IsFrame p)
    (hpresent : e &&& eptPresent ≠ 0) :
    EptPointer (splitLink e p) ↔ e &&& eptAttrMask = 0 := by
  unfold EptPointer
  rw [splitLink_perms hp, BitVec.and_or_distrib_left, splitLink_attrs hp, splitLink_not_large hp]
  have hor : e &&& eptAttrMask ||| 0 = e &&& eptAttrMask := BitVec.or_zero
  rw [hor]
  exact and_iff_right hpresent

/-- For every large entry of a tree, at level 2 or 3 : after `split_large_ept_entry` the entry is a
legal pointer, and every guest address has the host address, the permissions and the attributes
it had, exactly if the memory type and the ignore-PAT bit of the page are zero. -/
theorem splitLargeEptEntry_valid_iff (hs : Supplied eptFormat m pml4 0 (p :: rest))
    (h : Splittable m pml4 gpa t₀ slot d level) :
    ∃ m', splitLargeEptEntry slot level m = some m' ∧
      (EptPointer (m'.mem slot) ∧ (∀ v, eptMapping pml4 m'.mem v = eptMapping pml4 m.mem v) ↔
        m.mem slot &&& eptAttrMask = 0) := by
  have hp : IsFrame p := hs.frame p List.mem_cons_self
  have hfresh := hs.fresh p List.mem_cons_self
  have hslot : (splitMachine slot p level (m.mem p) m).mem slot = splitLink (m.mem slot) p :=
    Machine.store_mem_self _
  refine ⟨_, splitLargeEptEntry_cons hs.list h.level_cases h.present h.large, ?_⟩
  rw [hslot, eptPointer_splitLink_iff hp h.present]
  exact and_iff_left (h.mapping hp hfresh _)

/-- A tree whose first gigabyte is one large entry. -/
theorem exists_splittable {e : BitVec 64} (hpresent : e &&& eptPresent ≠ 0)
    (hlarge : e &&& eptLargePage ≠ 0) (ha : EptAligned 3 e) :
    ∃ m slot, Splittable m 0x1000 0 0x2000 slot 1 3 ∧ m.mem slot = e ∧
      Supplied eptFormat m 0x1000 0 [0x3000, 0x4000, 0x5000] := by
  have htree : eptFormat.radix.IsTree zeroedRoot.mem 0x1000 := zeroedRoot_wellFormed.tree
  have habsent : ¬eptFormat.Present
      (zeroedRoot.mem (entryAddr 0x1000 (eptFormat.pgdirOffset 0 (3 + 1)))) := by
    have hzero := zeroedRoot_mem eptFormat 0 0
    rw [PtFormat.slot_index] at hzero
    exact hzero ▸ eptFormat.not_present_zero
  have ht₀ : eptFormat.radix.table zeroedRoot.mem 0x1000 0 0 = some 0x1000 := rfl
  have hdepth : eptFormat.pageLevel - 0 = 3 + 1 := rfl
  obtain ⟨m', -, -, -, hg, -, hs⟩ :=
    eptFormat.newTable_spec (zeroedRoot_supplied eptFormat) rfl htree
    ht₀ hdepth (by norm_num) habsent
  have ht := hg.table_new (v := 0) fun _ _ => rfl
  have hnext : eptFormat.radix.next 1 e = none := by
    rw [PtFormat.radix_next, PtFormat.nextTable_eq_none]
    exact Or.inr (Or.inr ⟨Or.inr rfl, hlarge⟩)
  have htree' := hg.isTree.plant ht hnext
  have htables := hg.isTree.tables_plant ht hnext
  have htable := hg.isTree.table_update (e := e) (v := 0) ht (Or.inl le_rfl)
  have hslot := eptFormat.pageOf_entryAddr (pageOf_eq_self_iff.mp (hg.isTree.page_table ht)) 0 3
  have hlevel : eptFormat.pageLevel - (0 + 1) = 3 := rfl
  rw [PtFormat.slot_index, hlevel] at htree' htables htable
  refine ⟨Machine.store _ _ e, _, ⟨htree', htable.trans ht, rfl, rfl, Or.inr rfl, ?_, ?_, ?_⟩,
    Machine.store_mem_self _, hs.store ?_ (htables.subset.trans Set.sdiff_subset)⟩
  · rwa [Machine.store_mem_self]
  · rwa [Machine.store_mem_self]
  · rwa [Machine.store_mem_self]
  · exact ⟨0, 1, ht.trans (congrArg some hslot.symm)⟩

/-- A write-back page of a gigabyte : the pointer keeps its memory type. -/
theorem splitLargeEptEntry_writeBack : ∃ m slot m', Splittable m 0x1000 0 0x2000 slot 1 3 ∧
    m.mem slot = 0xb7 ∧ splitLargeEptEntry slot 3 m = some m' ∧ ¬EptPointer (m'.mem slot) := by
  obtain ⟨m, slot, h, he, hs⟩ := @exists_splittable 0xb7 (by decide) (by decide) rfl
  refine ⟨m, slot, _, h, he, splitLargeEptEntry_cons hs.list h.level_cases h.present h.large, ?_⟩
  have hslot : (splitMachine slot 0x3000 3 (m.mem 0x3000) m).mem slot =
    splitLink (m.mem slot) 0x3000 :=
    Machine.store_mem_self _
  rw [hslot, he]
  decide

/-- An uncached page of a gigabyte. -/
theorem splitLargeEptEntry_valid_iff_uncached : ∃ m slot m', Splittable m 0x1000 0 0x2000 slot 1 3 ∧
    splitLargeEptEntry slot 3 m = some m' ∧ EptPointer (m'.mem slot) ∧
      ∀ v, eptMapping 0x1000 m'.mem v = eptMapping 0x1000 m.mem v := by
  obtain ⟨m, slot, h, he, hs⟩ := @exists_splittable 0x87 (by decide) (by decide) rfl
  obtain ⟨m', hrun, hiff⟩ := splitLargeEptEntry_valid_iff hs h
  exact ⟨m, slot, m', h, hrun, hiff.mpr (by rw [he]; decide)⟩

end Split

end AcrnUt
