import AcrnUt.PageAlloc
import AcrnUt.RadixTree

/-!
# Page tables in memory

The tables that `lib/x86/vm.c` and `x86/vmx.c` build share one layout : a table is one
page of word-sized entries, a level selects its entry by `pgdirWidth` bits of the
address, and an entry holds the frame of the next table in bits 12 to 51. A format
fixes the number of levels, the width and the mask that makes an entry present
(`PtFormat`). The large bit makes a leaf at levels 2 and 3.

`PtFormat.radix` is the radix tree of a format. Two addresses agree above depth `d`
exactly if they agree on the bits of the levels above (`PtFormat.getLsbD_of_agree`,
`PtFormat.agree_of_shift_eq`).
`PtFormat.graft_newTable` is the step both writers share : a zeroed page, linked with
the three low bits set, is a graft.
-/

set_option linter.unusedSectionVars false

namespace AcrnUt

variable {w : ℕ} [PageGeom w]

/-! ## Masks -/

/-- `GENMASK_ULL`. -/
def genmaskUll (h l : ℕ) : BitVec 64 :=
  (BitVec.allOnes 64 <<< l) &&& (BitVec.allOnes 64 >>> (63 - h))

/-- `PT_ADDR_MASK` and `EPT_ADDR_MASK`, cut to the word of an entry. -/
def addrMask (w : ℕ) : BitVec w :=
  (genmaskUll 51 12).setWidth w

/-- `PT_PAGE_SIZE_MASK` and `EPT_LARGE_PAGE`. -/
def largeMask (w : ℕ) : BitVec w :=
  1#w <<< 7

theorem getLsbD_addrMask {i : ℕ} (hi : i < w) :
    (addrMask w).getLsbD i = (decide (12 ≤ i) && decide (i < 52)) := by
  simp only [addrMask, genmaskUll, BitVec.getLsbD_setWidth, BitVec.getLsbD_and,
    BitVec.getLsbD_shiftLeft, BitVec.getLsbD_ushiftRight, BitVec.getLsbD_allOnes]
  rw [Bool.eq_iff_iff]
  simp only [hi, decide_true, Bool.true_and, Bool.and_eq_true, Bool.not_eq_true', decide_eq_true_eq,
    decide_eq_false_iff_not]
  omega

theorem getLsbD_largeMask {i : ℕ} (hi : i < w) : (largeMask w).getLsbD i = decide (i = 7) := by
  rw [largeMask, BitVec.getLsbD_shiftLeft, BitVec.getLsbD_one, Bool.eq_iff_iff]
  simp only [hi, decide_true, Bool.true_and, Bool.and_eq_true, Bool.not_eq_true', decide_eq_true_eq,
    decide_eq_false_iff_not]
  omega

/-- A page whose address an entry can hold. -/
def IsFrame (p : BitVec w) : Prop :=
  p &&& addrMask w = p

instance (p : BitVec w) : Decidable (IsFrame p) :=
  inferInstanceAs (Decidable (p &&& addrMask w = p))

theorem isFrame_and_addrMask (e : BitVec w) : IsFrame (e &&& addrMask w) := by
  rw [IsFrame, BitVec.and_assoc, BitVec.and_self]

theorem IsFrame.getLsbD {p : BitVec w} (h : IsFrame p) {i : ℕ} (hi : i < 12) :
    p.getLsbD i = false := by
  rw [← h, BitVec.getLsbD_and]
  by_cases hw : i < w
  · rw [getLsbD_addrMask hw]
    simp [hi]
  · simp [BitVec.getLsbD_of_ge _ _ (not_lt.mp hw)]


theorem IsFrame.pageAligned (hw : pageShift w = 12) {p : BitVec w} (h : IsFrame p) :
    PageAligned p :=
  pageAligned_of_getLsbD fun _ hi => h.getLsbD (hw ▸ hi)

/-- A page-aligned address below `2^52` is a frame. -/
theorem isFrame_of_lt {p : BitVec w} (haligned : p.toNat % 2 ^ 12 = 0) (hlt : p.toNat < 2 ^ 52) :
    IsFrame p := by
  refine BitVec.eq_of_getLsbD_eq fun i hi => ?_
  rw [BitVec.getLsbD_and, getLsbD_addrMask hi]
  rcases Nat.lt_or_ge i 12 with h12 | h12
  · simp [toNat_mod_two_pow_eq_zero_iff.mp haligned i h12]
  · rcases Nat.lt_or_ge i 52 with h52 | h52
    · simp [h12, h52]
    · have hbit : p.getLsbD i = false :=
        Nat.testBit_lt_two_pow (hlt.trans_le (Nat.pow_le_pow_right (by norm_num) h52))
      simp [hbit]

/-! ## Formats -/

theorem pageShift_64 : pageShift 64 = 12 :=
  rfl

theorem pgdirWidth_64_pos : 0 < 9 := by
  norm_num

/-- The widths of four levels and of a page. -/
theorem fourLevels_fit : 4 * 9 + 12 ≤ 64 := by
  norm_num

/-- 512 entries of 8 bytes. -/
theorem table_size_64 : 2 ^ 9 * (64 / 8) = 2 ^ 12 := by
  norm_num

/-- The layout of the tables of a build. -/
structure PtFormat (w : ℕ) [PageGeom w] where
  /-- `PAGE_LEVEL` and `EPT_PAGE_LEVEL`. -/
  pageLevel : ℕ
  /-- `PGDIR_WIDTH` and `EPT_PGDIR_WIDTH`. -/
  pgdirWidth : ℕ
  /-- `PT_PRESENT_MASK` and `EPT_PRESENT`. -/
  presentMask : BitVec w
  pageShift_eq : pageShift w = 12
  pageLevel_pos : 0 < pageLevel
  pgdirWidth_pos : 0 < pgdirWidth
  fits : pageLevel * pgdirWidth + 12 ≤ w
  table_size : 2 ^ pgdirWidth * (w / 8) = 2 ^ 12
  presentMask_ne : presentMask ≠ 0
  presentMask_le : presentMask &&& 7 = presentMask

/-- `&pt[offset]`. -/
def entryAddr (pt offset : BitVec w) : BitVec w :=
  pt + offset * BitVec.ofNat w (w / 8)

theorem entryAddr_eq (pt offset : BitVec w) :
    entryAddr pt offset = pt + BitVec.ofNat w (offset.toNat * (w / 8)) := by
  rw [entryAddr, BitVec.ofNat_mul, BitVec.ofNat_toNat, BitVec.setWidth_eq]

namespace PtFormat

variable (F : PtFormat w)

/-- `PGDIR_BITS` and `EPT_LEVEL_SHIFT`. -/
def levelShift (level : ℕ) : ℕ :=
  (level - 1) * F.pgdirWidth + 12

/-- `PGDIR_OFFSET` : the entry that an address selects at a level. -/
def pgdirOffset (va : BitVec w) (level : ℕ) : BitVec w :=
  (va >>> F.levelShift level) &&& BitVec.ofNat w (2 ^ F.pgdirWidth - 1)

/-- The entry is present. -/
def Present (e : BitVec w) : Prop :=
  e &&& F.presentMask ≠ 0

/-- The entry is a large leaf at its level. -/
def Large (level : ℕ) (e : BitVec w) : Prop :=
  (level = 2 ∨ level = 3) ∧ e &&& largeMask w ≠ 0

instance (e : BitVec w) : Decidable (F.Present e) :=
  inferInstanceAs (Decidable (_ ≠ _))

instance (level : ℕ) (e : BitVec w) : Decidable (Large level e) :=
  inferInstanceAs (Decidable (_ ∧ _))

/-- The table that an entry at a level leads to. -/
def nextTable (level : ℕ) (e : BitVec w) : Option (BitVec w) :=
  if F.Present e ∧ 1 < level ∧ ¬Large level e then some (e &&& addrMask w) else none

include F in
theorem word_pos : 0 < w / 8 := by
  have := F.table_size
  exact Nat.pos_of_ne_zero fun h => by simp [h] at this

theorem toNat_mask : (BitVec.ofNat w (2 ^ F.pgdirWidth - 1)).toNat = 2 ^ F.pgdirWidth - 1 := by
  have hle : 2 ^ F.pgdirWidth ≤ 2 ^ 12 := by
    rw [← F.table_size]
    exact Nat.le_mul_of_pos_right _ F.word_pos
  have h12 : 2 ^ 12 ≤ 2 ^ w :=
    Nat.pow_le_pow_right (by decide) (le_trans (Nat.le_add_left _ _) F.fits)
  have := Nat.two_pow_pos F.pgdirWidth
  rw [BitVec.toNat_ofNat, Nat.mod_eq_of_lt (by omega)]

theorem toNat_pgdirOffset (va : BitVec w) (level : ℕ) :
    (F.pgdirOffset va level).toNat = va.toNat / 2 ^ F.levelShift level % 2 ^ F.pgdirWidth := by
  rw [pgdirOffset, BitVec.toNat_and, F.toNat_mask, Nat.and_two_pow_sub_one_eq_mod,
    BitVec.toNat_ushiftRight, Nat.shiftRight_eq_div_pow]

theorem toNat_pgdirOffset_lt (va : BitVec w) (level : ℕ) :
    (F.pgdirOffset va level).toNat < 2 ^ F.pgdirWidth := by
  rw [toNat_pgdirOffset]
  exact Nat.mod_lt _ (Nat.two_pow_pos _)

/-- An entry lies less than a page from the start of its table. -/
theorem offset_lt {i : ℕ} (hi : i < 2 ^ F.pgdirWidth) : i * (w / 8) < 2 ^ 12 := by
  rw [← F.table_size]
  exact Nat.mul_lt_mul_of_pos_right hi F.word_pos

/-- The entries of a table lie in its page. -/
theorem pageOf_entryAddr_ofNat {t : BitVec w} (ht : PageAligned t) {i : ℕ}
    (hi : i < 2 ^ F.pgdirWidth) : pageOf (entryAddr t (BitVec.ofNat w i)) = t := by
  have hmod : (BitVec.ofNat w i).toNat ≤ i := by
    rw [BitVec.toNat_ofNat]
    exact Nat.mod_le _ _
  rw [entryAddr_eq]
  refine ht.pageOf_add ?_
  rw [F.pageShift_eq]
  exact F.offset_lt (lt_of_le_of_lt hmod hi)

theorem pageOf_entryAddr {t : BitVec w} (ht : PageAligned t) (va : BitVec w) (level : ℕ) :
    pageOf (entryAddr t (F.pgdirOffset va level)) = t := by
  have := F.pageOf_entryAddr_ofNat ht (F.toNat_pgdirOffset_lt va level)
  rwa [BitVec.ofNat_toNat, BitVec.setWidth_eq] at this

/-- Different entries of a table have different addresses. -/
theorem entryAddr_inj {t : BitVec w} {i j : ℕ} (hi : i < 2 ^ F.pgdirWidth)
    (hj : j < 2 ^ F.pgdirWidth)
    (h : entryAddr t (BitVec.ofNat w i) = entryAddr t (BitVec.ofNat w j)) : i = j := by
  have hle : 2 ^ 12 ≤ 2 ^ w :=
    Nat.pow_le_pow_right (by decide) (le_trans (Nat.le_add_left _ _) F.fits)
  have hmul : ∀ {k}, k < 2 ^ F.pgdirWidth → k * (w / 8) < 2 ^ w := fun hk =>
    lt_of_lt_of_le (F.offset_lt hk) hle
  have hmod : ∀ {k}, k < 2 ^ F.pgdirWidth → (BitVec.ofNat w k).toNat = k := fun {k} hk => by
    rw [BitVec.toNat_ofNat, Nat.mod_eq_of_lt]
    exact lt_of_le_of_lt (Nat.le_mul_of_pos_right _ F.word_pos) (hmul hk)
  rw [entryAddr_eq, entryAddr_eq, BitVec.add_right_inj, hmod hi, hmod hj] at h
  have h' := congrArg BitVec.toNat h
  rw [BitVec.toNat_ofNat, BitVec.toNat_ofNat, Nat.mod_eq_of_lt (hmul hi),
    Nat.mod_eq_of_lt (hmul hj)] at h'
  exact Nat.eq_of_mul_eq_mul_right F.word_pos h'

/-- The radix tree of the format : depth `d` is level `pageLevel - d`. -/
def radix : Radix (BitVec w) (BitVec w) (BitVec w) where
  index d va := (F.pgdirOffset va (F.pageLevel - d)).toNat
  slot t i := entryAddr t (BitVec.ofNat w i)
  page := pageOf
  next d e := F.nextTable (F.pageLevel - d) e
  page_slot _ _ ht :=
    F.pageOf_entryAddr_ofNat (pageOf_eq_self_iff.mp ht) (F.toNat_pgdirOffset_lt _ _)
  slot_inj h := F.entryAddr_inj (F.toNat_pgdirOffset_lt _ _) (F.toNat_pgdirOffset_lt _ _) h
  page_next {d e t} h := by
    unfold nextTable at h
    split_ifs at h
    cases h
    exact pageOf_eq_self_iff.mpr ((isFrame_and_addrMask e).pageAligned F.pageShift_eq)

@[simp] theorem slot_index (t : BitVec w) (d : ℕ) (va : BitVec w) :
    F.radix.slot t (F.radix.index d va) = entryAddr t (F.pgdirOffset va (F.pageLevel - d)) := by
  simp [radix]

@[simp] theorem radix_next (d : ℕ) (e : BitVec w) :
    F.radix.next d e = F.nextTable (F.pageLevel - d) e :=
  rfl

@[simp] theorem radix_page (a : BitVec w) : F.radix.page a = pageOf a :=
  rfl

theorem nextTable_eq_none {level : ℕ} {e : BitVec w} :
    F.nextTable level e = none ↔ ¬F.Present e ∨ level ≤ 1 ∨ Large level e := by
  unfold nextTable
  split_ifs with h
  · simp only [false_iff, not_or, not_not, not_le]
    exact h
  · simp only [true_iff]
    by_contra hcon
    rw [not_or, not_or, not_not, not_le] at hcon
    exact h hcon

theorem not_present_zero : ¬F.Present 0 :=
  not_not.mpr BitVec.zero_and

theorem nextTable_zero (level : ℕ) : F.nextTable level 0 = none :=
  F.nextTable_eq_none.mpr (Or.inl F.not_present_zero)

theorem getLsbD_seven {i : ℕ} (hi : i < w) : (7 : BitVec w).getLsbD i = decide (i < 3) := by
  have h : (7 : BitVec w).getLsbD i = (decide (i < w) && Nat.testBit 7 i) :=
    BitVec.getLsbD_ofNat ..
  rw [h, decide_eq_true hi, Bool.true_and]
  rcases Nat.lt_or_ge i 3 with h3 | h3
  · interval_cases i <;> rfl
  · rw [Nat.testBit_lt_two_pow (lt_of_lt_of_le (by decide : 7 < 2 ^ 3)
      (Nat.pow_le_pow_right (by decide) h3)), decide_eq_false (not_lt.mpr h3)]

/-- A frame with the three low bits set holds the address of that frame. -/
theorem link_and_addrMask {p : BitVec w} (hp : IsFrame p) : (p ||| 7) &&& addrMask w = p := by
  refine BitVec.eq_of_getLsbD_eq fun i hi => ?_
  have hbit := congrArg (BitVec.getLsbD · i) hp
  simp only [BitVec.getLsbD_and, BitVec.getLsbD_or, getLsbD_seven hi, getLsbD_addrMask hi] at hbit ⊢
  by_cases h3 : i < 3
  · have hlow : ¬12 ≤ i := by omega
    simp [hlow, hp.getLsbD (not_le.mp hlow)]
  · simpa [h3] using hbit

theorem link_and_largeMask {p : BitVec w} (hp : IsFrame p) : (p ||| 7) &&& largeMask w = 0 := by
  refine BitVec.eq_of_getLsbD_eq fun i hi => ?_
  rw [BitVec.getLsbD_and, BitVec.getLsbD_or, getLsbD_largeMask hi, getLsbD_seven hi]
  by_cases h7 : i = 7
  · subst h7
    simp [hp.getLsbD]
  · simp [h7]

/-- An entry with the three low bits set is present. -/
theorem present_link (p : BitVec w) : F.Present (p ||| 7) := by
  intro h
  refine F.presentMask_ne ?_
  rw [← F.presentMask_le]
  refine BitVec.eq_of_getLsbD_eq fun i hi => ?_
  have hbit := congrArg (BitVec.getLsbD · i) h
  simp only [BitVec.getLsbD_and, BitVec.getLsbD_or] at hbit ⊢
  cases h7 : (7 : BitVec w).getLsbD i
  · simp
  · rw [h7] at hbit
    simpa using hbit

/-- A frame with the three low bits set leads to that frame. -/
theorem nextTable_link {p : BitVec w} (hp : IsFrame p) {level : ℕ} (hlevel : 1 < level) :
    F.nextTable level (p ||| 7) = some p := by
  have hsmall : ¬Large level (p ||| 7) := fun h => h.2 (link_and_largeMask hp)
  rw [nextTable, if_pos ⟨F.present_link p, hlevel, hsmall⟩, link_and_addrMask hp]

/-- The entries of a zeroed page are zero, as long as the write goes elsewhere. -/
theorem newTable_mem (m : Machine w) {p a : BitVec w} (e va : BitVec w) (level : ℕ)
    (hp : PageAligned p) (ha : pageOf a ≠ p) :
    ((m.clearPage p).store a e).mem (entryAddr p (F.pgdirOffset va level)) = 0 := by
  have hpage := F.pageOf_entryAddr hp va level
  rw [Machine.store_mem_of_ne]
  · exact Machine.clearPage_mem_of_inPage m ((inPage_iff hp).mpr hpage)
  · rintro rfl
    exact ha hpage

/-- A zeroed fresh page, linked into an entry that leads nowhere, is a graft. -/
theorem graft_newTable {m : Machine w} {root va t₀ p : BitVec w} {d : ℕ}
    (htree : F.radix.IsTree m.mem root) (ht : F.radix.table m.mem root va d = some t₀)
    (hdead : F.nextTable (F.pageLevel - d)
      (m.mem (entryAddr t₀ (F.pgdirOffset va (F.pageLevel - d)))) = none)
    (hp : IsFrame p) (hfresh : p ∉ F.radix.tables m.mem root) (hd : d + 1 < F.pageLevel) :
    F.radix.Graft m.mem ((m.clearPage p).store
      (entryAddr t₀ (F.pgdirOffset va (F.pageLevel - d))) (p ||| 7)).mem
      root va d t₀ p (p ||| 7) := by
  have hpa : PageAligned p := hp.pageAligned F.pageShift_eq
  rw [← slot_index] at hdead ⊢
  refine Radix.Graft.of_clear htree ht hdead (pageOf_eq_self_iff.mpr hpa) hfresh
    (F.nextTable_link hp (by omega)) (fun a hap => ?_) fun va' => ?_
  · exact Machine.clearPage_mem_of_not m fun h => hap ((inPage_iff hpa).mp h)
  · rw [slot_index, radix_next,
      Machine.clearPage_mem_of_inPage m ((inPage_iff hpa).mpr (F.pageOf_entryAddr hpa va' _))]
    exact F.nextTable_eq_none.mpr (Or.inl F.not_present_zero)

/-! ## Agreement in bits -/

/-- The bits of an address that the tables translate. -/
def vaBits : ℕ :=
  F.pageLevel * F.pgdirWidth + 12

theorem testBit_pgdirOffset (va : BitVec w) (level j : ℕ) :
    (F.pgdirOffset va level).toNat.testBit j =
      (decide (j < F.pgdirWidth) && va.getLsbD (F.levelShift level + j)) := by
  rw [toNat_pgdirOffset, Nat.testBit_mod_two_pow, Nat.testBit_div_two_pow, Nat.add_comm j,
    BitVec.getLsbD]

theorem testBit_index (d : ℕ) (va : BitVec w) (j : ℕ) :
    (F.radix.index d va).testBit j =
      (decide (j < F.pgdirWidth) && va.getLsbD (F.levelShift (F.pageLevel - d) + j)) :=
  F.testBit_pgdirOffset va (F.pageLevel - d) j

/-- Addresses that make the same choices above depth `d` have the same bits there. -/
theorem getLsbD_of_agree {d : ℕ} {v v' : BitVec w} (hd : d ≤ F.pageLevel)
    (h : F.radix.Agree d v v') {i : ℕ} (hi : (F.pageLevel - d) * F.pgdirWidth + 12 ≤ i)
    (hi' : i < F.vaBits) : v.getLsbD i = v'.getLsbD i := by
  have hw := F.pgdirWidth_pos
  -- Bit `i` is bit `r` of the index at level `q + 1`.
  obtain ⟨q, r, hr, hqr⟩ : ∃ q r, r < F.pgdirWidth ∧ i = q * F.pgdirWidth + 12 + r :=
    ⟨(i - 12) / F.pgdirWidth, (i - 12) % F.pgdirWidth, Nat.mod_lt _ hw, by
      have := Nat.div_add_mod' (i - 12) F.pgdirWidth
      omega⟩
  have hqL : q < F.pageLevel := by
    refine Nat.lt_of_mul_lt_mul_right (a := F.pgdirWidth) ?_
    rw [vaBits] at hi'
    omega
  have hqd : F.pageLevel - d ≤ q := by
    have hlt : (F.pageLevel - d) * F.pgdirWidth < (q + 1) * F.pgdirWidth := by
      rw [Nat.succ_mul]
      omega
    exact Nat.lt_succ_iff.mp (Nat.lt_of_mul_lt_mul_right hlt)
  have hshift : F.levelShift (F.pageLevel - (F.pageLevel - (q + 1))) + r = i := by
    rw [levelShift, hqr]
    congr 3
    omega
  have hbit := congrArg (Nat.testBit · r) (h (F.pageLevel - (q + 1)) (by omega))
  simpa only [testBit_index, hshift, hr, decide_true, Bool.true_and] using hbit

/-- An address whose upper bits extend the top translated bit. -/
def Canonical (va : BitVec w) : Prop :=
  (va.setWidth F.vaBits).signExtend w = va

instance (va : BitVec w) : Decidable (F.Canonical va) :=
  inferInstanceAs (Decidable (_ = va))

theorem Canonical.getLsbD {va : BitVec w} (h : F.Canonical va) {i : ℕ} (hi : F.vaBits ≤ i)
    (hw : i < w) : va.getLsbD i = va.getLsbD (F.vaBits - 1) := by
  have hpos : 0 < F.vaBits := Nat.succ_pos _
  have hi' := congrArg (BitVec.getLsbD · i) h
  simp only [BitVec.getLsbD_signExtend, hw, decide_true, Bool.true_and, not_lt.mpr hi, if_false,
    BitVec.msb_setWidth] at hi'
  rw [← hi']
  have : F.vaBits - 1 < w := by omega
  simp [hpos, this]

/-- Canonical addresses that make the same choices above some depth have the same bits
above the translated ones. -/
theorem Canonical.getLsbD_eq {d : ℕ} {v v' : BitVec w} (hv : F.Canonical v)
    (hv' : F.Canonical v') (hd0 : 0 < d) (hd : d ≤ F.pageLevel) (h : F.radix.Agree d v v') {i : ℕ}
    (hi : F.vaBits ≤ i) (hw : i < w) : v.getLsbD i = v'.getLsbD i := by
  have hlow : (F.pageLevel - d) * F.pgdirWidth + 12 ≤ F.vaBits - 1 := by
    have hmul : (F.pageLevel - d + 1) * F.pgdirWidth ≤ F.pageLevel * F.pgdirWidth :=
      Nat.mul_le_mul_right _ (by omega)
    have := F.pgdirWidth_pos
    rw [Nat.succ_mul] at hmul
    rw [vaBits]
    omega
  rw [hv.getLsbD F hi hw, hv'.getLsbD F hi hw]
  exact F.getLsbD_of_agree hd h hlow (Nat.sub_lt (Nat.succ_pos _) one_pos)

/-- Addresses that make the same choices above depth `d`, and agree above the translated
bits, lie in the same page of the level there. -/
theorem shift_eq_of_agree {d : ℕ} {v v' : BitVec w} (hd : d ≤ F.pageLevel)
    (h : F.radix.Agree d v v')
    (hhigh : ∀ i, F.vaBits ≤ i → i < w → v.getLsbD i = v'.getLsbD i) :
    v >>> F.levelShift (F.pageLevel - d + 1) = v' >>> F.levelShift (F.pageLevel - d + 1) := by
  refine BitVec.eq_of_getLsbD_eq fun i _ => ?_
  rw [BitVec.getLsbD_ushiftRight, BitVec.getLsbD_ushiftRight]
  have hlow : (F.pageLevel - d) * F.pgdirWidth + 12 ≤
      F.levelShift (F.pageLevel - d + 1) + i := by
    rw [levelShift, Nat.add_sub_cancel]
    omega
  generalize F.levelShift (F.pageLevel - d + 1) + i = j at hlow
  rcases Nat.lt_or_ge j F.vaBits with hj | hj
  · exact F.getLsbD_of_agree hd h hlow hj
  · rcases Nat.lt_or_ge j w with hw | hw
    · exact hhigh j hj hw
    · rw [BitVec.getLsbD_of_ge _ _ hw, BitVec.getLsbD_of_ge _ _ hw]

/-- Addresses in one page of a level select the same entry there. -/
theorem agree_of_shift_eq {v v' : BitVec w} {level : ℕ} (hlevel : 1 ≤ level ∧ level ≤ F.pageLevel)
    (h : v >>> F.levelShift level = v' >>> F.levelShift level) :
    F.radix.Agree (F.pageLevel - level + 1) v v' := by
  intro d hd
  have hshift : F.levelShift (F.pageLevel - d) =
      F.levelShift level + (F.pageLevel - d - level) * F.pgdirWidth := by
    obtain ⟨k, hk⟩ := Nat.exists_eq_add_of_le (show level ≤ F.pageLevel - d by omega)
    unfold levelShift
    rw [hk, Nat.add_sub_cancel_left, show level + k - 1 = level - 1 + k by omega, Nat.add_mul]
    omega
  show (F.pgdirOffset v _).toNat = (F.pgdirOffset v' _).toNat
  unfold pgdirOffset
  rw [hshift, BitVec.shiftRight_add, h, ← BitVec.shiftRight_add]

/-! ## The hardware walk -/

/-- The walk of an address from a table at a level : the entries it reads, down to a
present leaf. -/
def walkFrom (cells : BitVec w → BitVec w) (va : BitVec w) : ℕ → BitVec w → Option (List (BitVec w))
  | 0, _ => none
  | level + 1, pt =>
    let e := cells (entryAddr pt (F.pgdirOffset va (level + 1)))
    if ¬F.Present e then none
    else if level = 0 ∨ Large (level + 1) e then some [e]
    else (walkFrom cells va level (e &&& addrMask w)).map (e :: ·)

/-- The walk of an address from the root. -/
def walk (root : BitVec w) (cells : BitVec w → BitVec w) (va : BitVec w) :
    Option (List (BitVec w)) :=
  F.walkFrom cells va F.pageLevel root

section Walk

variable {cells cells' : BitVec w → BitVec w} {root va e : BitVec w} {d : ℕ}

theorem entry_of_table {t : BitVec w} (ht : F.radix.table cells root va d = some t) :
    F.radix.entry cells root va d =
      some (cells (entryAddr t (F.pgdirOffset va (F.pageLevel - d)))) := by
  rw [Radix.entry, ht, Option.map_some, slot_index]

theorem table_pageLevel : F.radix.table cells root va F.pageLevel = none := by
  obtain ⟨n, hn⟩ := Nat.exists_eq_succ_of_ne_zero F.pageLevel_pos.ne'
  cases ht : F.radix.table cells root va F.pageLevel with
  | none => rfl
  | some t =>
    rw [hn] at ht
    obtain ⟨t', -, hnext⟩ := F.radix.exists_table_of_succ ht
    rw [radix_next, F.nextTable_eq_none.mpr (Or.inr (Or.inl (by omega)))] at hnext
    cases hnext

/-- The walk goes on through an entry that leads on. -/
theorem table_next {level : ℕ} {t : BitVec w} (ht : F.radix.table cells root va d = some t)
    (hd : F.pageLevel - d = level + 1) (hlevel : 0 < level)
    (hpresent : F.Present (cells (entryAddr t (F.pgdirOffset va (level + 1)))))
    (hsmall : ¬Large (level + 1) (cells (entryAddr t (F.pgdirOffset va (level + 1))))) :
    F.radix.table cells root va (d + 1) =
      some (cells (entryAddr t (F.pgdirOffset va (level + 1))) &&& addrMask w) := by
  rw [Radix.table_succ, F.entry_of_table ht, Option.bind_some, radix_next, hd, nextTable,
    if_pos ⟨hpresent, Nat.succ_lt_succ hlevel, hsmall⟩]

/-- A walk that reaches a deeper table goes on. -/
theorem table_next_of_deeper {level D : ℕ} {t t' : BitVec w}
    (ht' : F.radix.table cells root va D = some t') (hdD : d < D)
    (ht : F.radix.table cells root va d = some t) (hd : F.pageLevel - d = level + 1) :
    F.Present (cells (entryAddr t (F.pgdirOffset va (level + 1)))) ∧
      ¬Large (level + 1) (cells (entryAddr t (F.pgdirOffset va (level + 1)))) ∧
      F.radix.table cells root va (d + 1) =
        some (cells (entryAddr t (F.pgdirOffset va (level + 1))) &&& addrMask w) := by
  have hsome : F.radix.table cells root va (d + 1) ≠ none := by
    intro hnone
    rw [F.radix.table_eq_none hnone hdD] at ht'
    cases ht'
  rw [Radix.table_succ, F.entry_of_table ht, Option.bind_some, radix_next, hd, nextTable] at hsome ⊢
  split_ifs at hsome ⊢ with hon
  · exact ⟨hon.1, hon.2.2, rfl⟩
  · exact absurd rfl hsome

/-- Every walk ends. -/
theorem exists_ends (cells : BitVec w → BitVec w) (root va : BitVec w) :
    ∃ d e, d < F.pageLevel ∧ F.radix.Ends cells root va d e := by
  have key : ∀ n, (∃ d e, d < n ∧ F.radix.Ends cells root va d e) ∨
      ∃ t, F.radix.table cells root va n = some t := by
    intro n
    induction n with
    | zero => exact Or.inr ⟨root, rfl⟩
    | succ n ih =>
      rcases ih with ⟨d, e, hd, hends⟩ | ⟨t, ht⟩
      · exact Or.inl ⟨d, e, hd.trans (Nat.lt_succ_self n), hends⟩
      · have hentry := F.entry_of_table ht
        cases hnext : F.radix.table cells root va (n + 1) with
        | some t' => exact Or.inr ⟨t', rfl⟩
        | none =>
          rw [Radix.table_succ, hentry, Option.bind_some] at hnext
          exact Or.inl ⟨n, _, Nat.lt_succ_self n, hentry, hnext⟩
  rcases key F.pageLevel with h | ⟨t, ht⟩
  · exact h
  · rw [F.table_pageLevel] at ht
    cases ht

/-- Above its end, a walk reads a present entry that leads on to the next table. -/
theorem table_succ_of_ends (hends : F.radix.Ends cells root va d e) {k : ℕ} {t : BitVec w}
    (hkd : k < d) (ht : F.radix.table cells root va k = some t) :
    F.nextTable (F.pageLevel - k) (cells (entryAddr t (F.pgdirOffset va (F.pageLevel - k)))) ≠
      none := by
  intro hnext
  have hk : F.radix.Ends cells root va k
      (cells (entryAddr t (F.pgdirOffset va (F.pageLevel - k)))) :=
    ⟨F.entry_of_table ht, hnext⟩
  exact absurd (hends.unique F.radix hk).1 hkd.ne'

/-- The walk reads the entries above its end, and finds a leaf if the end is present. -/
theorem walkFrom_of_ends (hends : F.radix.Ends cells root va d e) :
    ∀ (level k : ℕ) (t : BitVec w), k + level = F.pageLevel → k ≤ d →
      F.radix.table cells root va k = some t →
      F.walkFrom cells va level t =
        if F.Present e then
          some ((List.range' k (d - k)).filterMap (F.radix.entry cells root va) ++ [e])
        else none
  | 0, k, t, hk, _, ht => by
    rw [Nat.add_zero] at hk
    rw [hk, F.table_pageLevel] at ht
    cases ht
  | level + 1, k, t, hk, hkd, ht => by
    have hlevel : F.pageLevel - k = level + 1 := by omega
    have hentry := F.entry_of_table ht
    rw [hlevel] at hentry
    rw [walkFrom]
    rcases hkd.lt_or_eq with hlt | rfl
    · have hnext := F.table_succ_of_ends hends hlt ht
      rw [hlevel] at hnext
      have hon := hnext
      rw [Ne, F.nextTable_eq_none, not_or, not_or, not_not, not_le] at hon
      obtain ⟨hpresent, hlevel1, hlarge⟩ := hon
      have ht' : F.radix.table cells root va (k + 1) =
          some (cells (entryAddr t (F.pgdirOffset va (level + 1))) &&& addrMask w) := by
        rw [Radix.table_succ, hentry, Option.bind_some, radix_next, hlevel, nextTable,
          if_pos ⟨hpresent, hlevel1, hlarge⟩]
      have hrange : List.range' k (d - k) = k :: List.range' (k + 1) (d - (k + 1)) := by
        rw [show d - k = d - (k + 1) + 1 by omega, List.range'_succ]
      simp only [hpresent, not_true_eq_false, if_false]
      rw [if_neg (not_or.mpr ⟨by omega, hlarge⟩),
        walkFrom_of_ends hends level (k + 1) _ (by omega) hlt ht', hrange,
        List.filterMap_cons, hentry]
      split_ifs <;> simp
    · have he : cells (entryAddr t (F.pgdirOffset va (level + 1))) = e :=
        Option.some.inj (hentry.symm.trans hends.1)
      have hend := hends.2
      rw [radix_next, hlevel, F.nextTable_eq_none] at hend
      rw [he]
      by_cases hpresent : F.Present e
      · have hleaf : level = 0 ∨ Large (level + 1) e := by
          rcases hend with h | h | h
          · exact absurd hpresent h
          · exact Or.inl (by omega)
          · exact Or.inr h
        simp [hpresent, hleaf]
      · simp [hpresent]

theorem walk_of_ends (hends : F.radix.Ends cells root va d e) :
    F.walk root cells va =
      if F.Present e then
        some ((List.range d).filterMap (F.radix.entry cells root va) ++ [e])
      else none := by
  rw [walk, F.walkFrom_of_ends hends F.pageLevel 0 root (by omega) (Nat.zero_le d) rfl,
    List.range_eq_range', Nat.sub_zero]

/-- A walk selects one entry at each depth above its end. -/
theorem length_of_ends (hends : F.radix.Ends cells root va d e) :
    ∀ n ≤ d, ((List.range n).filterMap (F.radix.entry cells root va)).length = n
  | 0, _ => rfl
  | n + 1, hn => by
    have htable : F.radix.table cells root va n ≠ none := by
      intro hnone
      have hentry := hends.1
      rw [Radix.entry, F.radix.table_eq_none hnone (Nat.le_of_succ_le hn)] at hentry
      cases hentry
    obtain ⟨t, ht⟩ := Option.ne_none_iff_exists'.mp htable
    rw [List.range_succ, List.filterMap_append, List.length_append,
      length_of_ends hends n (Nat.le_of_succ_le hn)]
    simp [F.entry_of_table ht]

/-- Walks that select the same entries are the same. -/
theorem walk_congr (h : ∀ k, F.radix.entry cells' root va k = F.radix.entry cells root va k) :
    F.walk root cells' va = F.walk root cells va := by
  obtain ⟨d, e, -, hends⟩ := F.exists_ends cells root va
  have hends' : F.radix.Ends cells' root va d e := ⟨(h d).trans hends.1, hends.2⟩
  rw [F.walk_of_ends hends, F.walk_of_ends hends', funext h]

/-- A walk that finds a leaf determines where it ends. -/
theorem ends_of_walk_eq (hends : F.radix.Ends cells root va d e) (he : F.Present e)
    (h : F.walk root cells' va = F.walk root cells va) : F.radix.Ends cells' root va d e := by
  obtain ⟨d', e', -, hends'⟩ := F.exists_ends cells' root va
  rw [F.walk_of_ends hends, F.walk_of_ends hends', if_pos he] at h
  split_ifs at h with he'
  have hpath := Option.some.inj h
  have hlen := congrArg List.length hpath
  rw [List.length_append, List.length_append, F.length_of_ends hends d le_rfl,
    F.length_of_ends hends' d' le_rfl] at hlen
  obtain rfl : d' = d := Nat.add_right_cancel hlen
  obtain rfl : e' = e := List.singleton_inj.mp (List.append_inj' hpath rfl).2
  exact hends'

/-- A walk that finds no leaf reads no large entry. -/
theorem not_large_of_walk_eq_none (h : F.walk root cells va = none)
    (he : F.radix.entry cells root va d = some e) (hpresent : F.Present e) :
    ¬Large (F.pageLevel - d) e := by
  intro hlarge
  have hends : F.radix.Ends cells root va d e :=
    ⟨he, F.nextTable_eq_none.mpr (Or.inr (Or.inr hlarge))⟩
  rw [F.walk_of_ends hends, if_pos hpresent] at h
  cases h

/-- A graft from an entry that is not present, of a table without present entries, changes
no walk. -/
theorem walk_graft {v₀ t₀ p : BitVec w} (g : F.radix.Graft cells cells' root v₀ d t₀ p e)
    (hold : ¬F.Present (cells (F.radix.slot t₀ (F.radix.index d v₀))))
    (hnew : ∀ v, ¬F.Present (cells' (F.radix.slot p (F.radix.index (d + 1) v)))) :
    F.walk root cells' va = F.walk root cells va := by
  by_cases hagree : F.radix.Agree (d + 1) v₀ va
  · rw [F.walk_of_ends (g.ends hagree), F.walk_of_ends (g.ends_new hagree), if_neg hold,
      if_neg (hnew va)]
  · exact F.walk_congr fun k => g.entry_old hagree

/-- A view of the tables does not see a zeroed table that is linked into an entry that is not
present. -/
def GrowthView {X : Type*} (view : (BitVec w → BitVec w) → BitVec w → X) (root : BitVec w) : Prop :=
  ∀ {cells cells' : BitVec w → BitVec w} {v₀ t₀ p : BitVec w} {d : ℕ},
    F.radix.Graft cells cells' root v₀ d t₀ p (p ||| 7) →
    ¬F.Present (cells (F.radix.slot t₀ (F.radix.index d v₀))) →
    (∀ v, cells' (F.radix.slot p (F.radix.index (d + 1) v)) = 0) →
    ∀ v, view cells' v = view cells v

theorem walk_growthView : F.GrowthView (fun cells v => F.walk root cells v) root :=
  fun g hold hzero _ => F.walk_graft g hold fun v => by
    rw [hzero]
    exact F.not_present_zero

end Walk

end PtFormat

/-! ## Supplies of pages -/

/-- The page for a missing table, as `install_pte` and `install_ept_entry` choose it : the
caller's page once, then `alloc_page`. The result is the page, what is left of the
caller's, and the machine. -/
def takeTable (ptPage : BitVec w) (m : Machine w) : BitVec w × BitVec w × Machine w :=
  if ptPage = 0 then
    let (newPt, m) := allocPage m
    (newPt, ptPage, m)
  else (ptPage, 0, m)

/-- The pages a writer can take : the caller's, then those of the free list. -/
def supply (ptPage : BitVec w) (l : List (BitVec w)) : List (BitVec w) :=
  if ptPage = 0 then l else ptPage :: l

@[simp] theorem supply_zero (l : List (BitVec w)) : supply 0 l = l :=
  if_pos rfl

/-- The pages of the supply are different frames, and no tables of the tree. -/
structure Supplied (F : PtFormat w) (m : Machine w) (root ptPage : BitVec w)
    (l : List (BitVec w)) : Prop where
  list : m.FreeList l
  nodup : (supply ptPage l).Nodup
  frame : ∀ p ∈ supply ptPage l, IsFrame p
  fresh : ∀ p ∈ supply ptPage l, p ∉ F.radix.tables m.mem root

variable {F : PtFormat w} {m : Machine w} {root ptPage : BitVec w} {l : List (BitVec w)}

/-- An empty supply leaves a mark. -/
theorem takeTable_nil (hl : m.FreeList l) (hsup : supply ptPage l = []) :
    (takeTable ptPage m).2.2.denied = true := by
  unfold supply at hsup
  split_ifs at hsup with h0
  subst hsup
  rw [takeTable, if_pos h0, allocPage_nil hl]

/-- A run that was denied a page stays so. -/
theorem takeTable_denied (h : m.denied = true) : (takeTable ptPage m).2.2.denied = true := by
  unfold takeTable
  split_ifs
  · exact allocPage_denied h
  · exact h

/-- `takeTable` takes the first page of the supply. -/
theorem takeTable_cons {p : BitVec w} {rest : List (BitVec w)} (hl : m.FreeList l)
    (hsup : supply ptPage l = p :: rest) :
    ∃ m', takeTable ptPage m = (p, 0, m') ∧ m'.FreeList rest ∧ m'.mem = m.mem ∧
      m'.denied = m.denied := by
  unfold supply at hsup
  split_ifs at hsup with h0
  · subst hsup
    obtain ⟨heq, htl⟩ := allocPage_cons hl
    refine ⟨_, ?_, htl, rfl, rfl⟩
    rw [takeTable, if_pos h0, heq, h0]
  · cases hsup
    exact ⟨m, if_neg h0, hl, rfl, rfl⟩

theorem mem_supply {ptPage p : BitVec w} {l : List (BitVec w)} (h : p ∈ l) :
    p ∈ supply ptPage l := by
  unfold supply
  split_ifs
  · exact h
  · exact List.mem_cons_of_mem _ h

theorem Supplied.pageOf_eq (hs : Supplied F m root ptPage l) {p : BitVec w}
    (h : p ∈ supply ptPage l) : pageOf p = p :=
  pageOf_eq_self_iff.mpr ((hs.frame p h).pageAligned F.pageShift_eq)

/-- Writes off the pages of a part of the supply leave that part, as long as none of them
becomes a table. -/
theorem Supplied.congr {m' : Machine w} {ptPage' : BitVec w} {l' : List (BitVec w)}
    (hs : Supplied F m root ptPage l) (hsub : (supply ptPage' l').Sublist (supply ptPage l))
    (hlist : Chain m.mem 0 m'.freelist l')
    (hmem : ∀ a : BitVec w, pageOf a ∈ supply ptPage' l' → m'.mem a = m.mem a)
    (hfresh : ∀ p ∈ supply ptPage' l', p ∈ F.radix.tables m'.mem root →
      p ∈ F.radix.tables m.mem root) : Supplied F m' root ptPage' l' where
  list := hlist.congr fun p hp => by
    refine hmem p ?_
    rw [hs.pageOf_eq (hsub.subset (mem_supply hp))]
    exact mem_supply hp
  nodup := hs.nodup.sublist hsub
  frame p hp := hs.frame p (hsub.subset hp)
  fresh p hp htable := hs.fresh p (hsub.subset hp) (hfresh p hp htable)

/-- Without the caller's page. -/
theorem Supplied.withoutPage (hs : Supplied F m root ptPage l) : Supplied F m root 0 l := by
  refine hs.congr ?_ hs.list (fun _ _ => rfl) fun _ _ ht => ht
  rw [supply_zero, supply]
  split_ifs
  · exact List.Sublist.refl _
  · exact List.sublist_cons_self _ _

/-- A write to a table that makes no new one leaves the supply. -/
theorem Supplied.store {a e : BitVec w} (hs : Supplied F m root ptPage l)
    (ha : pageOf a ∈ F.radix.tables m.mem root)
    (htables : F.radix.tables (m.store a e).mem root ⊆ F.radix.tables m.mem root) :
    Supplied F (m.store a e) root ptPage l := by
  refine hs.congr (List.Sublist.refl _) hs.list (fun b hb => ?_) fun p _ hp => htables hp
  refine Machine.store_mem_of_ne m ?_
  rintro rfl
  exact hs.fresh _ hb ha

/-- A graft of the first page of the supply leaves the rest. -/
theorem Supplied.graft {m' : Machine w} {va t₀ p e : BitVec w} {d : ℕ} {rest : List (BitVec w)}
    (hs : Supplied F m root ptPage l) (hsup : supply ptPage l = p :: rest)
    (g : F.radix.Graft m.mem m'.mem root va d t₀ p e) (hlist : Chain m.mem 0 m'.freelist rest) :
    Supplied F m' root 0 rest := by
  have hrest : supply 0 rest = rest := supply_zero rest
  have hnd := hs.nodup
  rw [hsup] at hnd
  have hne : ∀ q ∈ rest, q ≠ p := fun q hq hqp => (List.nodup_cons.mp hnd).1 (hqp ▸ hq)
  refine hs.congr (hsup ▸ hrest ▸ List.sublist_cons_self p rest) hlist ?_ ?_
  · intro b hb
    rw [hrest] at hb
    refine g.frame b ?_ (hne _ hb)
    rintro rfl
    refine hs.fresh _ (hsup ▸ List.mem_cons_of_mem p hb) ?_
    exact ⟨va, d, g.reach.trans (congrArg some (F.radix.page_slot d va
      (g.tree.page_table g.reach)).symm)⟩
  · intro q hq hqt
    rw [g.tables_eq] at hqt
    exact hqt.resolve_left (hne q (hrest ▸ hq))

namespace PtFormat

variable (F) {va t₀ : BitVec w} {d : ℕ}

/-- A missing table, taken from the supply, zeroed and linked, is a graft of a table
without present entries. -/
theorem newTable_spec {level : ℕ} {p : BitVec w} {rest : List (BitVec w)}
    (hs : Supplied F m root ptPage l) (hsup : supply ptPage l = p :: rest)
    (htree : F.radix.IsTree m.mem root) (ht : F.radix.table m.mem root va d = some t₀)
    (hd : F.pageLevel - d = level + 1) (hlevel : 0 < level)
    (habsent : ¬F.Present (m.mem (entryAddr t₀ (F.pgdirOffset va (level + 1))))) :
    ∃ m', takeTable ptPage m = (p, 0, m') ∧ m'.denied = m.denied ∧ IsFrame p ∧
      F.radix.Graft m.mem ((m'.clearPage p).store
        (entryAddr t₀ (F.pgdirOffset va (level + 1))) (p ||| 7)).mem root va d t₀ p (p ||| 7) ∧
      (∀ v, ((m'.clearPage p).store
        (entryAddr t₀ (F.pgdirOffset va (level + 1))) (p ||| 7)).mem
          (F.radix.slot p (F.radix.index (d + 1) v)) = 0) ∧
      Supplied F ((m'.clearPage p).store
        (entryAddr t₀ (F.pgdirOffset va (level + 1))) (p ||| 7)) root 0 rest := by
  obtain ⟨m', htake, hlist, hmem, hden⟩ := takeTable_cons hs.list hsup
  have hp : IsFrame p := hs.frame p (by simp [hsup])
  have hfresh : p ∉ F.radix.tables m.mem root := hs.fresh p (by simp [hsup])
  have hdead : F.nextTable (F.pageLevel - d) _ = none := F.nextTable_eq_none.mpr (Or.inl habsent)
  rw [← hd] at hdead ⊢
  have hg := F.graft_newTable (m := m') (hmem ▸ htree) (hmem ▸ ht) (hmem ▸ hdead) hp
    (hmem ▸ hfresh) (by omega)
  rw [hmem] at hg
  have hslot := F.pageOf_entryAddr (pageOf_eq_self_iff.mp (htree.page_table ht)) va
    (F.pageLevel - d)
  refine ⟨m', htake, hden, hp, hg, fun v => ?_, ?_⟩
  · rw [slot_index]
    refine F.newTable_mem m' _ v _ (hp.pageAligned F.pageShift_eq) ?_
    rw [hslot]
    rintro rfl
    exact hfresh ⟨va, d, ht⟩
  · exact hs.graft hsup hg (hmem ▸ hlist)

/-! ## Reaching a level -/

/-- `m'` is `m`, grown by the fresh tables `used` until the walk of `va` reaches the table
`t` at depth `D`. Nothing that hung below its entry there has changed. -/
structure Reached {X : Type*} (view : (BitVec w → BitVec w) → BitVec w → X) (m m' : Machine w)
    (root va : BitVec w) (D : ℕ) (used : List (BitVec w)) (t : BitVec w) : Prop where
  grown : F.radix.Grown view m.mem m'.mem root used
  below : F.radix.below m'.mem root va D = F.radix.below m.mem root va D
  table : F.radix.table m'.mem root va D = some t

section Reached

variable {F} {X : Type*} {view : (BitVec w → BitVec w) → BitVec w → X} {m₁ m' : Machine w}
  {D : ℕ} {used used' : List (BitVec w)} {t p e : BitVec w}

theorem Reached.refl (htree : F.radix.IsTree m.mem root)
    (ht : F.radix.table m.mem root va D = some t) : F.Reached view m m root va D [] t :=
  ⟨.refl htree, rfl, ht⟩

theorem Reached.graft (g : F.radix.Graft m.mem m₁.mem root va d t₀ p e) (hd : d < D)
    (hview : ∀ v, view m₁.mem v = view m.mem v)
    (h : F.Reached view m₁ m' root va D used t) : F.Reached view m m' root va D (p :: used) t where
  grown := (g.grown hview).trans h.grown
  below := h.below.trans (g.below_eq hd va)
  table := h.table

/-- The walks that select the reached entry read what is written there. -/
theorem Reached.entry_store (h : F.Reached view m m' root va D used t) {v : BitVec w}
    (hv : F.radix.Agree (D + 1) va v) :
    F.radix.entry (m'.store (entryAddr t (F.pgdirOffset va (F.pageLevel - D))) e).mem root v D =
      some e := by
  have := h.grown.tree.entry_update_self (e := e) h.table hv
  rwa [slot_index] at this

/-- The walks that do not select it keep their entries. -/
theorem Reached.entry_store_of_not (h : F.Reached view m m' root va D used t) {v : BitVec w}
    (hv : ¬F.radix.Agree (D + 1) va v) (k : ℕ) :
    F.radix.entry (m'.store (entryAddr t (F.pgdirOffset va (F.pageLevel - D))) e).mem root v k =
      F.radix.entry m'.mem root v k := by
  have := h.grown.tree.entry_update (e := e) (d := k) h.table (Or.inr hv)
  rwa [slot_index] at this

/-- Unless the written entry leads on, the tables are still a tree : the old one less what
it replaced, and the fresh tables. -/
theorem Reached.plant (h : F.Reached view m m' root va D used t)
    (hfresh : ∀ p ∈ used, p ∉ F.radix.tables m.mem root)
    (he : F.nextTable (F.pageLevel - D) e = none) :
    F.radix.IsTree (m'.store (entryAddr t (F.pgdirOffset va (F.pageLevel - D))) e).mem root ∧
      F.radix.tables (m'.store (entryAddr t (F.pgdirOffset va (F.pageLevel - D))) e).mem root =
        (F.radix.tables m.mem root \ F.radix.below m.mem root va D) ∪ {t | t ∈ used} := by
  have htree := h.grown.tree.plant (e := e) h.table he
  have htables := h.grown.tree.tables_plant (e := e) h.table he
  rw [slot_index] at htree htables
  refine ⟨htree, htables.trans ?_⟩
  rw [h.grown.tables, h.below, Set.union_sdiff_distrib]
  congr 1
  refine sdiff_eq_left.mpr (Set.disjoint_left.mpr fun p hp hbelow => hfresh p hp ?_)
  obtain ⟨v, k, -, -, hk⟩ := hbelow
  exact ⟨v, k, hk⟩

end Reached

end PtFormat

/-! ## An empty tree -/

/-- Four pages on the free list, and a zeroed root at `0x1000`. -/
def zeroedRoot : Machine 64 where
  mem a := if a = 0x2000 then 0x3000 else if a = 0x3000 then 0x4000 else
    if a = 0x4000 then 0x5000 else 0
  freelist := 0x2000
  denied := false

theorem zeroedRoot_mem (F : PtFormat 64) (v : BitVec 64) (d : ℕ) :
    zeroedRoot.mem (F.radix.slot 0x1000 (F.radix.index d v)) = 0 := by
  have hpage := F.pageOf_entryAddr (t := 0x1000) (pageOf_eq_self_iff.mp (by decide)) v
    (F.pageLevel - d)
  rw [PtFormat.slot_index]
  refine (if_neg ?_).trans ((if_neg ?_).trans (if_neg ?_))
  all_goals
    intro h
    rw [h] at hpage
    exact absurd hpage (by decide)

theorem zeroedRoot_bare (F : PtFormat 64) (v : BitVec 64) :
    F.radix.next 0 (zeroedRoot.mem (F.radix.slot 0x1000 (F.radix.index 0 v))) = none := by
  rw [zeroedRoot_mem, PtFormat.radix_next, PtFormat.nextTable_eq_none]
  exact Or.inl F.not_present_zero

theorem zeroedRoot_entry (F : PtFormat 64) {v e : BitVec 64} {d : ℕ}
    (he : F.radix.entry zeroedRoot.mem 0x1000 v d = some e) : e = 0 := by
  obtain ⟨t, ht, rfl⟩ := Option.map_eq_some_iff.mp he
  obtain ⟨-, rfl⟩ := F.radix.table_of_bare (zeroedRoot_bare F) ht
  exact zeroedRoot_mem F v d

theorem zeroedRoot_walk (F : PtFormat 64) (v : BitVec 64) :
    F.walk 0x1000 zeroedRoot.mem v = none := by
  have hends : F.radix.Ends zeroedRoot.mem 0x1000 v 0 0 := by
    refine ⟨congrArg some (zeroedRoot_mem F v 0), ?_⟩
    exact F.nextTable_eq_none.mpr (Or.inl F.not_present_zero)
  rw [F.walk_of_ends hends, if_neg F.not_present_zero]

theorem zeroedRoot_supplied (F : PtFormat 64) :
    Supplied F zeroedRoot 0x1000 0 [0x2000, 0x3000, 0x4000, 0x5000] where
  list := by simp [Machine.FreeList, zeroedRoot, chain_cons, chain_nil]
  nodup := by decide
  frame := by simp [supply, IsFrame]; decide
  fresh p hp := by
    rintro ⟨v, d, ht⟩
    obtain ⟨-, rfl⟩ := F.radix.table_of_bare (zeroedRoot_bare F) ht
    revert hp
    decide

end AcrnUt
