import AcrnUt.X86Vm

/-!
# Looking up pages of every size

`virt_to_pte_phys` of `lib/x86/vm.c` against the hardware walk. The hardware keeps the bits of a
leaf from its page size on, and takes the bits below from the address (`leafPhys`). The lookup
finds the same leaf (`findPteLevel.walk_of_ends`), but keeps every bit of its address field and
takes twelve bits from the address, whatever the level.

The two agree exactly if the address has in bits 12 to the page size what the leaf has there
(`virtToPtePhys_iff`) : always for a 4K page, and for a large page that is aligned to its size
only in its first 4K. The high bits that PSE-36 keeps in a large entry are left out.
-/

set_option linter.unusedSectionVars false

namespace AcrnUt

variable {w : ℕ} [PageGeom w] [X86 w]

/-! ## The source -/

/-- `install_large_page`. -/
def installLargePage (cr3 phys virt : BitVec w) (m : Machine w) : BitVec w × Machine w :=
  installPte cr3 2 virt
    (phys ||| ptPresentMask ||| ptWritableMask ||| ptUserMask ||| largeMask w) 0 m

/-! ## The hardware -/

/-- The physical address of `va` in a leaf at a level. -/
def leafPhys (level : ℕ) (e va : BitVec w) : BitVec w :=
  ((e &&& addrMask w) >>> (x86Format w).levelShift level) <<< (x86Format w).levelShift level |||
    va &&& (1#w <<< (x86Format w).levelShift level - 1)

/-- The physical address that the hardware walk of `va` yields, if it ends in a present leaf. -/
def hwPhys (cells : BitVec w → BitVec w) (root va : BitVec w) : Option (BitVec w) :=
  ((x86Format w).walk root cells va).map fun es =>
    leafPhys ((x86Format w).pageLevel + 1 - es.length) (es.getLastD 0) va

variable {m : Machine w} {root va e : BitVec w} {d : ℕ}

theorem hwPhys_of_ends (hends : (x86Format w).radix.Ends m.mem root va d e)
    (hpresent : (x86Format w).Present e) :
    hwPhys m.mem root va = some (leafPhys ((x86Format w).pageLevel - d) e va) := by
  unfold hwPhys
  rw [(x86Format w).walk_of_ends hends, if_pos hpresent, Option.map_some, List.length_append,
    (x86Format w).length_of_ends hends d le_rfl, List.length_singleton, Nat.add_sub_add_right,
    List.getLastD_concat]

/-! ## The lookup -/

/-- `find_pte_level`, looking for level 1, stops at the present leaf that ends the walk. -/
theorem findPteLevel.walk_of_ends (hends : (x86Format w).radix.Ends m.mem root va d e)
    (hpresent : (x86Format w).Present e) (hd : d < (x86Format w).pageLevel) :
    ∀ {level k : ℕ} {pt : BitVec w}, k ≤ d → (x86Format w).pageLevel - k = level →
      (x86Format w).radix.table m.mem root va k = some pt →
      ∃ t, (x86Format w).radix.table m.mem root va d = some t ∧
        findPteLevel.walk m va 1 level pt = some ⟨(x86Format w).pageLevel - d,
          entryAddr t ((x86Format w).pgdirOffset va ((x86Format w).pageLevel - d))⟩
  | 0, k, pt, hk, hlevel, _ => by omega
  | level + 1, k, pt, hk, hlevel, hpt => by
    unfold findPteLevel.walk
    rcases hk.lt_or_eq with hlt | rfl
    · obtain ⟨t', ht', -⟩ := Option.map_eq_some_iff.mp hends.1
      obtain ⟨hon, hnot, hnext⟩ := (x86Format w).table_next_of_deeper ht' hlt hpt hlevel
      have hon' : ¬m.mem (entryAddr pt ((x86Format w).pgdirOffset va (level + 1))) &&&
          ptPresentMask = 0 := hon
      have hnot' : ¬((level + 1 = 2 ∨ level + 1 = 3) ∧
          m.mem (entryAddr pt ((x86Format w).pgdirOffset va (level + 1))) &&& largeMask w ≠ 0) :=
        hnot
      simp only [if_neg hon', if_neg hnot', if_neg (show ¬level + 1 = 1 by omega)]
      exact walk_of_ends hends hpresent hd hlt (by omega) hnext
    · have he := (x86Format w).entry_of_table hpt
      rw [hends.1, hlevel] at he
      have hon : ¬m.mem (entryAddr pt ((x86Format w).pgdirOffset va (level + 1))) &&&
          ptPresentMask = 0 := (Option.some.inj he) ▸ hpresent
      refine ⟨pt, hpt, ?_⟩
      rw [hlevel, if_neg hon]
      split_ifs with hlarge hone
      · rfl
      · rfl
      · have hleaf := hends.2
        rw [PtFormat.radix_next, PtFormat.nextTable_eq_none, hlevel, Option.some.inj he] at hleaf
        rcases hleaf with h | h | h
        · exact absurd hon h
        · omega
        · exact absurd h hlarge

/-- `virt_to_pte_phys` at a present leaf : the whole address field, and the offset in 4K. -/
theorem virtToPtePhys_of_ends (hends : (x86Format w).radix.Ends m.mem root va d e)
    (hpresent : (x86Format w).Present e) :
    virtToPtePhys m root va = some ((e &&& addrMask w) + (va &&& (pageSize - 1))) := by
  obtain ⟨d', e', hd, hends'⟩ := (x86Format w).exists_ends m.mem root va
  obtain ⟨rfl, rfl⟩ := hends.unique _ hends'
  obtain ⟨t, ht, hwalk⟩ := findPteLevel.walk_of_ends hends hpresent hd (Nat.zero_le d) rfl rfl
  have he := (x86Format w).entry_of_table ht
  rw [hends.1] at he
  have hslot := Option.some.inj he
  have hleaf : foundLeafPte m ⟨(x86Format w).pageLevel - d,
      entryAddr t ((x86Format w).pgdirOffset va ((x86Format w).pageLevel - d))⟩ = true := by
    have hnext := hends.2
    rw [PtFormat.radix_next, PtFormat.nextTable_eq_none] at hnext
    unfold foundLeafPte foundHugePte
    simp only [← hslot, decide_eq_true_eq]
    rcases hnext with h | h | h
    · exact absurd hpresent h
    · exact Or.inl (by omega)
    · exact Or.inr ⟨h.1, hpresent, h.2⟩
  unfold virtToPtePhys getPte findPteLevel
  rw [if_pos ⟨le_rfl, X86.pageLevel_pos⟩]
  erw [hwalk]
  simp only [Option.map_some, hleaf, if_true, hslot]

/-! ## The two in bits -/

/-- The bits below `2^k`. -/
theorem getLsbD_and_lowMask (x : BitVec w) {k i : ℕ} (hk : k < w) :
    (x &&& (1#w <<< k - 1)).getLsbD i = (x.getLsbD i && decide (i < k)) := by
  have hmask : (1#w <<< k - 1).getLsbD i = decide (i < k) := by
    rw [BitVec.getLsbD, toNat_one_shiftLeft_sub_one hk, Nat.testBit_two_pow_sub_one]
  rw [BitVec.getLsbD_and, hmask]

/-- A level's page is smaller than the address space. -/
theorem levelShift_lt (w : ℕ) [PageGeom w] [X86 w] {level : ℕ} (hpos : 0 < level)
    (hle : level ≤ (x86Format w).pageLevel) : (x86Format w).levelShift level < w := by
  have hfits := (x86Format w).fits
  have hwidth := (x86Format w).pgdirWidth_pos
  have hmul : level * (x86Format w).pgdirWidth ≤
      (x86Format w).pageLevel * (x86Format w).pgdirWidth := Nat.mul_le_mul_right _ hle
  have hsucc : level * (x86Format w).pgdirWidth =
      (level - 1) * (x86Format w).pgdirWidth + (x86Format w).pgdirWidth := by
    rw [← Nat.succ_mul, Nat.succ_eq_add_one, Nat.sub_add_cancel hpos]
  unfold PtFormat.levelShift
  omega

theorem getLsbD_leafPhys {level i : ℕ} (hshift : (x86Format w).levelShift level < w) (hi : i < w) :
    (leafPhys level e va).getLsbD i =
      if i < (x86Format w).levelShift level then va.getLsbD i
      else (e &&& addrMask w).getLsbD i := by
  unfold leafPhys
  rw [BitVec.getLsbD_or, BitVec.getLsbD_shiftLeft, BitVec.getLsbD_ushiftRight,
    getLsbD_and_lowMask va hshift]
  by_cases hlow : i < (x86Format w).levelShift level
  · simp [hlow]
  · simp [hlow, hi, Nat.add_sub_cancel' (not_lt.mp hlow)]

theorem getLsbD_frame_add_offset {i : ℕ} :
    ((e &&& addrMask w) + (va &&& (pageSize - 1))).getLsbD i =
      if i < 12 then va.getLsbD i else (e &&& addrMask w).getLsbD i := by
  have hoff : ∀ j, (va &&& (pageSize - 1)).getLsbD j = (va.getLsbD j && decide (j < 12)) := by
    intro j
    rw [pageSize, getLsbD_and_lowMask va pageShift_lt, (x86Format w).pageShift_eq]
  have hframe : ∀ j < 12, (e &&& addrMask w).getLsbD j = false := fun j hj =>
    (isFrame_and_addrMask e).getLsbD hj
  have hdisj : (e &&& addrMask w) &&& (va &&& (pageSize - 1)) = 0 := by
    refine BitVec.eq_of_getLsbD_eq fun j _ => ?_
    rw [BitVec.getLsbD_and, hoff]
    by_cases hj : j < 12
    · simp [hframe j hj]
    · simp [hj]
  rw [BitVec.add_eq_or_of_and_eq_zero _ _ hdisj, BitVec.getLsbD_or, hoff]
  split_ifs with hlow
  · simp [hframe i hlow, hlow]
  · simp [hlow]

/-- Whenever the hardware walk of an address ends in a present leaf, at any level, the lookup
yields its physical address exactly if the address and the address field of the leaf have the
same bits from 12 up to the page size of the leaf. -/
theorem virtToPtePhys_iff (m : Machine w) (root va : BitVec w) :
    (∀ pa, hwPhys m.mem root va = some pa → virtToPtePhys m root va = some pa) ↔
      ∀ d e, (x86Format w).radix.Ends m.mem root va d e → (x86Format w).Present e →
        ∀ i, 12 ≤ i → i < (x86Format w).levelShift ((x86Format w).pageLevel - d) →
          va.getLsbD i = (e &&& addrMask w).getLsbD i := by
  obtain ⟨d, e, hd, hends⟩ := (x86Format w).exists_ends m.mem root va
  have hshift := levelShift_lt w (Nat.sub_pos_of_lt hd) (Nat.sub_le _ _)
  constructor
  · intro h d' e' hends' hpresent i h12 hi
    obtain ⟨rfl, rfl⟩ := hends.unique _ hends'
    have heq := h _ (hwPhys_of_ends hends hpresent)
    rw [virtToPtePhys_of_ends hends hpresent] at heq
    have hbit := congrArg (BitVec.getLsbD · i) (Option.some.inj heq)
    simp only [getLsbD_leafPhys hshift (hi.trans hshift),
      getLsbD_frame_add_offset, if_neg (not_lt.mpr h12), if_pos hi] at hbit
    exact hbit.symm
  · intro h pa hpa
    have hpresent : (x86Format w).Present e := by
      by_contra hnot
      unfold hwPhys at hpa
      rw [(x86Format w).walk_of_ends hends, if_neg hnot] at hpa
      cases hpa
    rw [hwPhys_of_ends hends hpresent] at hpa
    rw [virtToPtePhys_of_ends hends hpresent, ← hpa]
    refine congrArg some (BitVec.eq_of_getLsbD_eq fun i hi => ?_)
    have h12 : 12 ≤ (x86Format w).levelShift ((x86Format w).pageLevel - d) := Nat.le_add_left _ _
    rw [getLsbD_leafPhys hshift hi, getLsbD_frame_add_offset]
    by_cases hlow : i < 12
    · rw [if_pos hlow, if_pos (hlow.trans_le h12)]
    · rw [if_neg hlow]
      split_ifs with hpage
      · exact (h d e hends hpresent i (not_lt.mp hlow) hpage).symm
      · rfl

/-- The identity mapping of the first 2M page loses bit 12 of an address. -/
theorem virtToPtePhys_largePage :
    hwPhys (installLargePage 0x1000 0 0 zeroedRoot).2.mem 0x1000 0x1234 = some 0x1234 ∧
      virtToPtePhys (installLargePage 0x1000 0 0 zeroedRoot).2 0x1000 0x1234 = some 0x234 := by
  decide

end AcrnUt
