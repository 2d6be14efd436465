import AcrnUt.BitField
import AcrnUt.PageTable

/-!
# DMA remapping

The tables that `lib/x86/intel-iommu.c` builds for the devices. The root table has one
entry for each bus, a context table one for each function of a bus, and a context entry
holds a tree of page tables with three levels. `vtd_map_range` makes what is missing out
of zeroed pages.

The root table, the context tables and the page tables are one radix tree
(`vtdRadix`), with a source id and an address as its key. The second quad of an entry
of the upper two tables is no entry of that tree. `VtdTables` is the invariant of the
calls : the tree, the fresh pages, and what the context entries hold.

`VtdDma.translate_run` says what the hardware finds after any run of calls :
`vtdTranslate` gives the last mapping that covered an address.
-/

set_option linter.unusedSectionVars false

namespace AcrnUt

/-! ## Entries -/

namespace VtdRe

/-- The fields of the first quad of `struct vtd_root_entry`. -/
def present : BitField 64 1 :=
  ⟨0, by norm_num⟩

@[inherit_doc present]
def contextTableP : BitField 64 52 :=
  ⟨12, by norm_num⟩

end VtdRe

namespace VtdCe

/-- The fields of the first quad of `struct vtd_context_entry`. -/
def present : BitField 64 1 :=
  ⟨0, by norm_num⟩

@[inherit_doc present]
def disableFaultReport : BitField 64 1 :=
  ⟨1, by norm_num⟩

@[inherit_doc present]
def transType : BitField 64 2 :=
  ⟨2, by norm_num⟩

@[inherit_doc present]
def slptptr : BitField 64 52 :=
  ⟨12, by norm_num⟩

/-- The fields of the second quad. -/
def addrWidth : BitField 64 3 :=
  ⟨0, by norm_num⟩

@[inherit_doc addrWidth]
def domainId : BitField 64 16 :=
  ⟨8, by norm_num⟩

end VtdCe

/-- `VTD_PTE_RW`. -/
def vtdPteRw : BitVec 64 :=
  3

/-- `VTD_PTE_ADDR`. -/
def vtdPteAddr : BitVec 64 :=
  genmaskUll 63 12

/-- `VTD_PTE_HUGE`. -/
def vtdPteHuge : BitVec 64 :=
  1#64 <<< 7

/-- `VTD_PAGE_LEVEL`. -/
def vtdPageLevel : ℕ :=
  3

/-- `VTD_CE_AW_39BIT`. -/
def vtdCeAw39bit : BitVec 3 :=
  1

/-- `VTD_CONTEXT_TT_MULTI_LEVEL`. -/
def vtdContextTtMultiLevel : BitVec 2 :=
  0

/-- `PCI_BDF_GET_BUS`. -/
def pciBdfGetBus (bdf : BitVec 16) : BitVec 8 :=
  ((bdf >>> 8) &&& 0xff).setWidth 8

/-- `PCI_BDF_GET_DEVFN`. -/
def pciBdfGetDevfn (bdf : BitVec 16) : BitVec 8 :=
  (bdf &&& 0xff).setWidth 8

/-- The layout of the page tables : `asm/page.h` of the 64-bit build, with three levels. -/
def vtdFormat : PtFormat 64 where
  pageLevel := vtdPageLevel
  pgdirWidth := 9
  presentMask := vtdPteRw
  pageShift_eq := pageShift_64
  pageLevel_pos := by decide
  pgdirWidth_pos := pgdirWidth_64_pos
  fits := by decide
  table_size := table_size_64
  presentMask_ne := by decide
  presentMask_le := by decide

/-- The address of the first quad of entry `i` of a table of 16-byte entries. -/
def vtdQuad1 (table : BitVec 64) (i : BitVec 8) : BitVec 64 :=
  entryAddr table (BitVec.ofNat 64 (2 * i.toNat))

/-- The address of its second quad. -/
def vtdQuad2 (table : BitVec 64) (i : BitVec 8) : BitVec 64 :=
  entryAddr table (BitVec.ofNat 64 (2 * i.toNat + 1))

/-! ## The source -/

/-- `vtd_root_table`, for the value of `DMAR_RTADDR_REG`. -/
def vtdRootTable (rtaddr : BitVec 64) : BitVec 64 :=
  rtaddr &&& ~~~(pageSize - 1)

/-- `vtd_setup_root_table` : the value it writes to `DMAR_RTADDR_REG`. -/
def vtdSetupRootTable (m : Machine 64) : BitVec 64 × Machine 64 :=
  let (root, m) := allocPage m
  (virtToPhys root, m.clearPage root)

/-- `vtd_install_pte`, in the table `root` at a level. -/
def vtdInstallPte.walk (iova pa : BitVec 64) (levelTarget : ℕ) :
    ℕ → BitVec 64 → Machine 64 → Machine 64
  | 0, root, m =>
    m.store (entryAddr root (vtdFormat.pgdirOffset iova 0)) (pa ||| vtdPteRw ||| vtdPteHuge)
  | level + 1, root, m =>
    let slot := entryAddr root (vtdFormat.pgdirOffset iova (level + 1))
    if levelTarget < level + 1 then
      if m.mem slot &&& vtdPteRw = 0 then
        let (page, m) := allocPage m
        let m := (m.clearPage page).store slot (virtToPhys page ||| vtdPteRw)
        vtdInstallPte.walk iova pa levelTarget level (physToVirt (m.mem slot &&& vtdPteAddr)) m
      else
        vtdInstallPte.walk iova pa levelTarget level (physToVirt (m.mem slot &&& vtdPteAddr)) m
    else
      let m := m.store slot (pa ||| vtdPteRw)
      if level + 1 ≠ 1 then m.store slot (m.mem slot ||| vtdPteHuge) else m

/-- `vtd_install_pte`. -/
def vtdInstallPte (root iova pa : BitVec 64) (levelTarget : ℕ) (m : Machine 64) : Machine 64 :=
  vtdInstallPte.walk iova pa levelTarget vtdPageLevel root m

/-- The root entry of a bus : the context table, made if it is missing. A shift of the
52-bit field keeps its width. -/
def vtdMapRange.contextTable (root : BitVec 64) (busN : BitVec 8) (m : Machine 64) :
    BitVec 64 × Machine 64 :=
  let re := vtdQuad1 root busN
  if VtdRe.present.get (m.mem re) = 0 then
    let (ce, m) := allocPage m
    let m := m.clearPage ce
    let m := (m.store re 0).store (vtdQuad2 root busN) 0
    let m := m.store re
      (VtdRe.contextTableP.set (m.mem re) ((virtToPhys ce >>> pageShift 64).setWidth 52))
    let m := m.store re (VtdRe.present.set (m.mem re) 1)
    (ce, m)
  else (physToVirt ((VtdRe.contextTableP.get (m.mem re) <<< pageShift 64).setWidth 64), m)

/-- The context entry of a function : the root of its page tables, made if it is
missing. -/
def vtdMapRange.pageTable (ce : BitVec 64) (sid : BitVec 16) (m : Machine 64) :
    BitVec 64 × Machine 64 :=
  let quad1 := vtdQuad1 ce (pciBdfGetDevfn sid)
  let quad2 := vtdQuad2 ce (pciBdfGetDevfn sid)
  if VtdCe.present.get (m.mem quad1) = 0 then
    let (slptptr, m) := allocPage m
    let m := m.clearPage slptptr
    let m := (m.store quad1 0).store quad2 0
    let m := m.store quad2 (VtdCe.domainId.set (m.mem quad2) sid)
    let m := m.store quad2 (VtdCe.addrWidth.set (m.mem quad2) vtdCeAw39bit)
    let m := m.store quad1
      (VtdCe.slptptr.set (m.mem quad1) ((virtToPhys slptptr >>> pageShift 64).setWidth 52))
    let m := m.store quad1 (VtdCe.transType.set (m.mem quad1) vtdContextTtMultiLevel)
    let m := m.store quad1 (VtdCe.present.set (m.mem quad1) 1)
    let m := m.store quad1 (VtdCe.disableFaultReport.set (m.mem quad1) 1)
    (slptptr, m)
  else (physToVirt ((VtdCe.slptptr.get (m.mem quad1) <<< pageShift 64).setWidth 64), m)

/-- The loop of `vtd_map_range`. -/
def vtdMapRange.loop (slptptr : BitVec 64) :
    ℕ → BitVec 64 → BitVec 64 → BitVec 64 → Machine 64 → Option (Machine 64)
  | 0, _, _, _, _ => none
  | fuel + 1, iova, pa, size, m =>
    if size ≠ 0 then
      let m := vtdInstallPte slptptr iova pa 1 m
      vtdMapRange.loop slptptr fuel (iova + pageSize) (pa + pageSize) (size - pageSize) m
    else some m

/-- `vtd_map_range`. -/
def vtdMapRange (rtaddr : BitVec 64) (sid : BitVec 16) (iova pa size : BitVec 64)
    (m : Machine 64) : Option (Machine 64) :=
  if iova &&& (pageSize - 1) ≠ 0 then none
  else if pa &&& (pageSize - 1) ≠ 0 then none
  else if size &&& (pageSize - 1) ≠ 0 then none
  else
    let (ce, m) := vtdMapRange.contextTable (vtdRootTable rtaddr) (pciBdfGetBus sid) m
    let (slptptr, m) := vtdMapRange.pageTable ce sid m
    vtdMapRange.loop slptptr (2 ^ 64) iova pa size m

/-! ## The hardware walk -/

/-- The walk of the page tables, from a table at a level : the address of the page that
holds `iova`, and where in it `iova` lies. -/
def vtdWalk (cells : BitVec 64 → BitVec 64) (iova : BitVec 64) : ℕ → BitVec 64 → Option (BitVec 64)
  | 0, _ => none
  | level + 1, table =>
    let e := cells (entryAddr table (vtdFormat.pgdirOffset iova (level + 1)))
    if e &&& vtdPteRw = 0 then none
    else if level = 0 ∨ e &&& vtdPteHuge ≠ 0 then
      let offsetMask := (1#64 <<< vtdFormat.levelShift (level + 1)) - 1
      some ((e &&& vtdPteAddr &&& ~~~offsetMask) + (iova &&& offsetMask))
    else vtdWalk cells iova level (e &&& vtdPteAddr)

/-- The context entry that the hardware finds for a source id : its two quads. -/
def vtdContextEntry (cells : BitVec 64 → BitVec 64) (rtaddr : BitVec 64) (sid : BitVec 16) :
    Option (BitVec 64 × BitVec 64) :=
  let re := cells (vtdQuad1 (vtdRootTable rtaddr) (pciBdfGetBus sid))
  if VtdRe.present.get re = 0 then none
  else
    let table := (VtdRe.contextTableP.get re).setWidth 64 <<< 12
    let quad1 := cells (vtdQuad1 table (pciBdfGetDevfn sid))
    if VtdCe.present.get quad1 = 0 then none
    else some (quad1, cells (vtdQuad2 table (pciBdfGetDevfn sid)))

/-- What the hardware makes of an address of a device : root entry, context entry, and
three levels of page tables. Nothing is present above the width of the context entry. -/
def vtdTranslate (cells : BitVec 64 → BitVec 64) (rtaddr : BitVec 64) (sid : BitVec 16)
    (iova : BitVec 64) : Option (BitVec 64) :=
  (vtdContextEntry cells rtaddr sid).bind fun ce =>
    if VtdCe.transType.get ce.1 ≠ vtdContextTtMultiLevel then none
    else if VtdCe.addrWidth.get ce.2 ≠ vtdCeAw39bit then none
    else if 2 ^ 39 ≤ iova.toNat then none
    else vtdWalk cells iova vtdPageLevel ((VtdCe.slptptr.get ce.1).setWidth 64 <<< 12)

/-! ## Bits of the entries -/

theorem getLsbD_vtdPteAddr {i : ℕ} (hi : i < 64) : vtdPteAddr.getLsbD i = decide (12 ≤ i) := by
  unfold vtdPteAddr genmaskUll
  simp only [BitVec.getLsbD_and, BitVec.getLsbD_shiftLeft, BitVec.getLsbD_ushiftRight,
    BitVec.getLsbD_allOnes]
  rw [Bool.eq_iff_iff]
  simp only [hi, decide_true, Bool.true_and, Bool.and_eq_true, Bool.not_eq_true',
    decide_eq_true_eq, decide_eq_false_iff_not]
  omega

theorem getLsbD_vtdPteRw (i : ℕ) : vtdPteRw.getLsbD i = decide (i < 2) := by
  unfold vtdPteRw
  rcases Nat.lt_or_ge i 64 with hi | hi
  · interval_cases i <;> rfl
  · rw [BitVec.getLsbD_of_ge _ _ hi, decide_eq_false (by omega)]

theorem pageAligned_and_vtdPteAddr (e : BitVec 64) : PageAligned (e &&& vtdPteAddr) := by
  refine pageAligned_of_getLsbD fun i hi => ?_
  have hi12 : i < 12 := hi
  rw [BitVec.getLsbD_and, getLsbD_vtdPteAddr (by omega), decide_eq_false (by omega),
    Bool.and_false]

/-- A 52-bit frame number makes a page. -/
theorem pageAligned_frame (x : BitVec 52) : PageAligned (x.setWidth 64 <<< 12) := by
  refine pageAligned_of_getLsbD fun i hi => ?_
  have hi12 : i < 12 := hi
  rw [BitVec.getLsbD_shiftLeft, decide_eq_true hi12, Bool.not_true, Bool.and_false,
    Bool.false_and]

theorem IsFrame.getLsbD_high {p : BitVec 64} (h : IsFrame p) {i : ℕ} (hi : 52 ≤ i) :
    p.getLsbD i = false := by
  rw [← h, BitVec.getLsbD_and]
  rcases Nat.lt_or_ge i 64 with h64 | h64
  · rw [getLsbD_addrMask h64]
    simp [not_lt.mpr hi]
  · simp [BitVec.getLsbD_of_ge _ _ h64]

/-- The frame number of a page gives back the page. -/
theorem IsFrame.frame_shiftLeft {p : BitVec 64} (h : IsFrame p) :
    ((p >>> 12).setWidth 52).setWidth 64 <<< 12 = p := by
  refine BitVec.eq_of_getLsbD_eq fun i hi => ?_
  rw [BitVec.getLsbD_shiftLeft, BitVec.getLsbD_setWidth, BitVec.getLsbD_setWidth,
    BitVec.getLsbD_ushiftRight]
  rcases Nat.lt_or_ge i 12 with h12 | h12
  · simp [h12, h.getLsbD h12]
  · have h52 : i - 12 < 52 := by omega
    have h64 : i - 12 < 64 := by omega
    simp [hi, not_lt.mpr h12, h52, h64, Nat.add_sub_cancel' h12]

/-- A field that holds a frame number is shifted without loss. -/
theorem shiftLeft_of_isFrame {x : BitVec 52} (h : IsFrame (x.setWidth 64 <<< 12)) :
    (x <<< 12).setWidth 64 = x.setWidth 64 <<< 12 := by
  refine BitVec.eq_of_getLsbD_eq fun i hi => ?_
  rcases Nat.lt_or_ge i 52 with h52 | h52
  · rw [BitVec.getLsbD_setWidth, BitVec.getLsbD_shiftLeft, BitVec.getLsbD_shiftLeft,
      BitVec.getLsbD_setWidth]
    have h64 : i - 12 < 64 := by omega
    simp [hi, h52, h64]
  · rw [h.getLsbD_high h52, BitVec.getLsbD_setWidth, BitVec.getLsbD_of_ge _ _ h52, Bool.and_false]

/-- The bits of a link to a new page table. -/
theorem vtdLink_and_addr {p : BitVec 64} (h : PageAligned p) :
    (p ||| vtdPteRw) &&& vtdPteAddr = p := by
  have hlow : ∀ i < 12, p.getLsbD i = false := toNat_mod_two_pow_eq_zero_iff.mp h
  refine BitVec.eq_of_getLsbD_eq fun i hi => ?_
  rw [BitVec.getLsbD_and, BitVec.getLsbD_or, getLsbD_vtdPteAddr hi, getLsbD_vtdPteRw]
  rcases Nat.lt_or_ge i 12 with h12 | h12
  · simp [not_le.mpr h12, hlow i h12]
  · have h2 : ¬i < 2 := by omega
    simp [h12, h2]

theorem vtdLink_present (p : BitVec 64) : (p ||| vtdPteRw) &&& vtdPteRw ≠ 0 := by
  intro h
  have hbit := congrArg (BitVec.getLsbD · 0) h
  simp only [BitVec.getLsbD_and, BitVec.getLsbD_or, getLsbD_vtdPteRw] at hbit
  simp at hbit

theorem vtdLink_small {p : BitVec 64} (h : PageAligned p) :
    (p ||| vtdPteRw) &&& vtdPteHuge = 0 := by
  have hlow : ∀ i < 12, p.getLsbD i = false := toNat_mod_two_pow_eq_zero_iff.mp h
  have hlarge : vtdPteHuge = largeMask 64 := rfl
  refine BitVec.eq_of_getLsbD_eq fun i hi => ?_
  rw [hlarge, BitVec.getLsbD_and, BitVec.getLsbD_or, getLsbD_largeMask hi, getLsbD_vtdPteRw]
  by_cases h7 : i = 7
  · subst h7
    rw [hlow 7 (by norm_num)]
    simp
  · simp [h7]

/-! ## The tables as a tree -/

/-- A source id, and an address of the device. -/
abbrev VtdKey :=
  BitVec 16 × BitVec 64

/-- The entry that a key selects at each depth : the first quads of a root entry and of a
context entry, then an entry at each level. -/
def vtdIndex : ℕ → VtdKey → ℕ
  | 0, v => 2 * (pciBdfGetBus v.1).toNat
  | 1, v => 2 * (pciBdfGetDevfn v.1).toNat
  | d + 2, v => (vtdFormat.pgdirOffset v.2 (vtdPageLevel - d)).toNat

/-- The table that an entry leads to. -/
def vtdNext : ℕ → BitVec 64 → Option (BitVec 64)
  | 0, e =>
    if VtdRe.present.get e = 0 then none
    else some ((VtdRe.contextTableP.get e).setWidth 64 <<< 12)
  | 1, e =>
    if VtdCe.present.get e = 0 then none else some ((VtdCe.slptptr.get e).setWidth 64 <<< 12)
  | d + 2, e => if e &&& vtdPteRw ≠ 0 ∧ d < 2 then some (e &&& vtdPteAddr) else none

theorem vtdIndex_lt (d : ℕ) (v : VtdKey) : vtdIndex d v < 2 ^ 9 := by
  match d with
  | 0 =>
    have := (pciBdfGetBus v.1).isLt
    rw [vtdIndex]
    omega
  | 1 =>
    have := (pciBdfGetDevfn v.1).isLt
    rw [vtdIndex]
    omega
  | d + 2 => exact vtdFormat.toNat_pgdirOffset_lt v.2 _

/-- The tables that `vtd_map_range` builds. -/
def vtdRadix : Radix (BitVec 64) (BitVec 64) VtdKey where
  index := vtdIndex
  slot t i := entryAddr t (BitVec.ofNat 64 i)
  page := pageOf
  next := vtdNext
  page_slot d v ht := vtdFormat.pageOf_entryAddr_ofNat (pageOf_eq_self_iff.mp ht) (vtdIndex_lt d v)
  slot_inj h := vtdFormat.entryAddr_inj (vtdIndex_lt _ _) (vtdIndex_lt _ _) h
  page_next {d e t} h := by
    refine pageOf_eq_self_iff.mpr ?_
    match d with
    | 0 =>
      rw [vtdNext] at h
      split_ifs at h
      cases h
      exact pageAligned_frame _
    | 1 =>
      rw [vtdNext] at h
      split_ifs at h
      cases h
      exact pageAligned_frame _
    | d + 2 =>
      rw [vtdNext] at h
      split_ifs at h
      cases h
      exact pageAligned_and_vtdPteAddr e

section Radix

variable {m m' : Machine 64} {root t p e : BitVec 64} {v v' : VtdKey} {d i j : ℕ}

theorem vtdSlot_page (ht : pageOf t = t) (hi : i < 2 ^ 9) :
    pageOf (entryAddr t (BitVec.ofNat 64 i)) = t :=
  vtdFormat.pageOf_entryAddr_ofNat (pageOf_eq_self_iff.mp ht) hi

theorem vtdSlot_inj (hi : i < 2 ^ 9) (hj : j < 2 ^ 9)
    (h : entryAddr t (BitVec.ofNat 64 i) = entryAddr t (BitVec.ofNat 64 j)) : i = j :=
  vtdFormat.entryAddr_inj hi hj h

theorem vtdQuad1_ne_quad2 (t : BitVec 64) (i : BitVec 8) : vtdQuad1 t i ≠ vtdQuad2 t i := by
  intro h
  have hi := i.isLt
  have hij := vtdSlot_inj (by omega) (by omega) h
  omega

theorem vtdRadix_slot (d : ℕ) : vtdRadix.slot t (vtdRadix.index d v) =
    entryAddr t (BitVec.ofNat 64 (vtdIndex d v)) :=
  rfl

/-- The slot of a level is the one that the walk of the page tables computes. -/
theorem vtdRadix_slot_level (d : ℕ) : vtdRadix.slot t (vtdRadix.index (d + 2) v) =
    entryAddr t (vtdFormat.pgdirOffset v.2 (vtdPageLevel - d)) := by
  rw [vtdRadix_slot, vtdIndex, BitVec.ofNat_toNat, BitVec.setWidth_eq]

/-- Nothing hangs below the page tables of the last level. -/
theorem vtdNext_leaf (e : BitVec 64) : vtdRadix.next 4 e = none :=
  if_neg fun h => absurd h.2 (lt_irrefl 2)

theorem vtdNext_zero (d : ℕ) : vtdNext d 0 = none := by
  match d with
  | 0 =>
    rw [vtdNext, BitField.get_zero]
    exact if_pos rfl
  | 1 =>
    rw [vtdNext, BitField.get_zero]
    exact if_pos rfl
  | d + 2 =>
    rw [vtdNext, if_neg]
    exact fun h => h.1 BitVec.zero_and

theorem vtdTable_five (h : 4 < d) : vtdRadix.table m.mem root v d = none := by
  refine vtdRadix.table_eq_none (d := 5) ?_ h
  rw [Radix.table_succ]
  cases vtdRadix.entry m.mem root v 4 with
  | none => rfl
  | some e => exact vtdNext_leaf e

/-- The index of a root entry or of a context entry is that of its first quad. -/
theorem vtdIndex_quad (hd : d ≤ 1) (v : VtdKey) :
    vtdIndex d v % 2 = 0 ∧ vtdIndex d v + 1 < 2 ^ 9 := by
  match d, hd with
  | 0, _ =>
    have := (pciBdfGetBus v.1).isLt
    rw [vtdIndex]
    omega
  | 1, _ =>
    have := (pciBdfGetDevfn v.1).isLt
    rw [vtdIndex]
    omega

/-- The bus and the function of a source id determine it. -/
theorem sid_eq_of_agree (h : vtdRadix.Agree 2 v v') : v.1 = v'.1 := by
  have hbus : 2 * (pciBdfGetBus v.1).toNat = 2 * (pciBdfGetBus v'.1).toNat := h 0 (by norm_num)
  have hdevfn : 2 * (pciBdfGetDevfn v.1).toNat = 2 * (pciBdfGetDevfn v'.1).toNat :=
    h 1 (by norm_num)
  have hsplit : ∀ bdf : BitVec 16, bdf.toNat =
      (pciBdfGetBus bdf).toNat * 256 + (pciBdfGetDevfn bdf).toNat := by
    intro bdf
    have hmask : (0xff : BitVec 16).toNat = 2 ^ 8 - 1 := rfl
    unfold pciBdfGetBus pciBdfGetDevfn
    rw [BitVec.toNat_setWidth, BitVec.toNat_setWidth, BitVec.toNat_and, BitVec.toNat_and, hmask,
      Nat.and_two_pow_sub_one_eq_mod, Nat.and_two_pow_sub_one_eq_mod, BitVec.toNat_ushiftRight,
      Nat.shiftRight_eq_div_pow]
    have := bdf.isLt
    omega
  refine BitVec.eq_of_toNat_eq ?_
  rw [hsplit, hsplit]
  omega

end Radix

/-! ## The invariant -/

/-- What a present context entry of a source id holds. -/
structure VtdContext (sid : BitVec 16) (quad1 quad2 : BitVec 64) : Prop where
  transType : VtdCe.transType.get quad1 = vtdContextTtMultiLevel
  addrWidth : VtdCe.addrWidth.get quad2 = vtdCeAw39bit
  domainId : VtdCe.domainId.get quad2 = sid

/-- The tables in memory, and the fresh pages on the free list. -/
structure VtdTables (m : Machine 64) (root : BitVec 64) (l : List (BitVec 64)) : Prop where
  tree : vtdRadix.IsTree m.mem root
  list : m.FreeList l
  frame : ∀ p ∈ l, IsFrame p
  fresh : ∀ p ∈ l, p ∉ vtdRadix.tables m.mem root
  linked : ∀ {v d t}, vtdRadix.table m.mem root v (d + 1) = some t → IsFrame t
  small : ∀ {v d e}, 2 ≤ d → d < 4 → vtdRadix.entry m.mem root v d = some e →
    e &&& vtdPteHuge = 0
  context : ∀ {v t}, vtdRadix.table m.mem root v 1 = some t →
    VtdCe.present.get (m.mem (vtdQuad1 t (pciBdfGetDevfn v.1))) ≠ 0 →
    VtdContext v.1 (m.mem (vtdQuad1 t (pciBdfGetDevfn v.1)))
      (m.mem (vtdQuad2 t (pciBdfGetDevfn v.1)))

/-- The page that the tables give for a key. -/
def vtdView (root : BitVec 64) (cells : BitVec 64 → BitVec 64) (v : VtdKey) :
    Option (BitVec 64) :=
  (vtdRadix.entry cells root v 4).bind fun e =>
    if e &&& vtdPteRw = 0 then none else some (e &&& vtdPteAddr)

/-- The tables give what they gave, and the page tables stay where they are. -/
structure VtdSame (root : BitVec 64) (m m' : Machine 64) : Prop where
  view : ∀ v, vtdView root m'.mem v = vtdView root m.mem v
  keep : ∀ {v t}, vtdRadix.table m.mem root v 2 = some t →
    vtdRadix.table m'.mem root v 2 = some t

namespace VtdSame

variable {m m' m'' : Machine 64} {root t p e : BitVec 64} {v : VtdKey} {d : ℕ}

theorem refl (root : BitVec 64) (m : Machine 64) : VtdSame root m m :=
  ⟨fun _ => rfl, fun ht => ht⟩

theorem trans (h : VtdSame root m m') (h' : VtdSame root m' m'') : VtdSame root m m'' :=
  ⟨fun v => (h'.view v).trans (h.view v), fun ht => h'.keep (h.keep ht)⟩

theorem of_entries
    (h : ∀ v d, vtdRadix.entry m'.mem root v d = vtdRadix.entry m.mem root v d) :
    VtdSame root m m' where
  view v := by rw [vtdView, vtdView, h]
  keep {v t} ht := by
    rw [Radix.table_succ, h, ← Radix.table_succ]
    exact ht

/-- A graft of a zeroed page keeps what the tables give. -/
theorem of_graft (hg : vtdRadix.Graft m.mem m'.mem root v d t p e) (hd : d < 4)
    (hzero : ∀ i < 2 ^ 9, m'.mem (entryAddr p (BitVec.ofNat 64 i)) = 0) :
    VtdSame root m m' where
  view u := by
    unfold vtdView
    by_cases hu : vtdRadix.Agree (d + 1) v u
    · have hbefore : vtdRadix.entry m.mem root u 4 = none := by
        rw [Radix.entry, (hg.ends hu).table_eq_none _ hd]
        rfl
      rw [hbefore]
      cases he : vtdRadix.entry m'.mem root u 4 with
      | none => rfl
      | some e' =>
        rcases hg.entry_cases he with hold | ⟨-, ⟨h4, -⟩ | ⟨-, rfl⟩⟩
        · rw [hbefore] at hold
          cases hold
        · exact absurd h4 hd.ne'
        · rw [vtdRadix_slot, hzero _ (vtdIndex_lt _ _), Option.bind_some, Option.bind_none]
          exact if_pos BitVec.zero_and
    · rw [hg.entry_old hu]
  keep {u s} hs := by
    rw [hg.table_old]
    · exact hs
    · rintro ⟨h2, hu⟩
      rw [(hg.ends hu).table_eq_none _ (by omega)] at hs
      cases hs

end VtdSame

namespace VtdTables

variable {m : Machine 64} {root t p e : BitVec 64} {l : List (BitVec 64)} {v v' : VtdKey} {d : ℕ}

theorem pageOf_table (h : VtdTables m root l) (ht : vtdRadix.table m.mem root v d = some t) :
    pageOf t = t :=
  h.tree.page_table ht

theorem pageOf_slot (h : VtdTables m root l) (ht : vtdRadix.table m.mem root v d = some t) :
    pageOf (vtdRadix.slot t (vtdRadix.index d v)) = t :=
  vtdSlot_page (h.pageOf_table ht) (vtdIndex_lt d v)

/-- The second quads of the upper two tables. -/
theorem pageOf_second (h : VtdTables m root l) (ht : vtdRadix.table m.mem root v d = some t)
    (hd : d ≤ 1) : pageOf (entryAddr t (BitVec.ofNat 64 (vtdIndex d v + 1))) = t :=
  vtdSlot_page (h.pageOf_table ht) (vtdIndex_quad hd v).2

theorem pageOf_quad1 (h : VtdTables m root l) (ht : vtdRadix.table m.mem root v 1 = some t) :
    pageOf (vtdQuad1 t (pciBdfGetDevfn v.1)) = t :=
  vtdSlot_page (h.pageOf_table ht) (vtdIndex_lt 1 v)

theorem pageOf_quad2 (h : VtdTables m root l) (ht : vtdRadix.table m.mem root v 1 = some t) :
    pageOf (vtdQuad2 t (pciBdfGetDevfn v.1)) = t :=
  vtdSlot_page (h.pageOf_table ht) (vtdIndex_quad le_rfl v).2

theorem pageOf_free (h : VtdTables m root l) (hp : p ∈ l) : pageOf p = p :=
  pageOf_eq_self_iff.mpr ((h.frame p hp).pageAligned rfl)

theorem free_ne_table (h : VtdTables m root l) (hp : p ∈ l)
    (ht : vtdRadix.table m.mem root v d = some t) : p ≠ t := by
  rintro rfl
  exact h.fresh p hp ⟨v, d, ht⟩

/-- Second quads are no entries of the tree. -/
theorem quad2_unselected (h : VtdTables m root l) (ht : vtdRadix.table m.mem root v d = some t)
    (hd : d ≤ 1) {d' : ℕ} {t' : BitVec 64} (ht' : vtdRadix.table m.mem root v' d' = some t') :
    vtdRadix.slot t' (vtdRadix.index d' v') ≠ entryAddr t (BitVec.ofNat 64 (vtdIndex d v + 1)) := by
  intro hs
  have hpage : t' = t := by
    rw [← h.pageOf_slot ht', hs, h.pageOf_second ht hd]
  subst hpage
  obtain ⟨rfl, -⟩ := h.tree.path ht' ht
  have hij := vtdSlot_inj (vtdIndex_lt d' v') (vtdIndex_quad hd v).2 hs
  have := (vtdIndex_quad hd v).1
  have := (vtdIndex_quad hd v').1
  omega

/-- A write to the second quad of an absent entry. -/
theorem storeQuad2 (h : VtdTables m root l) (ht : vtdRadix.table m.mem root v d = some t)
    (hd : d ≤ 1) (habsent : d = 1 → VtdCe.present.get (m.mem (vtdQuad1 t (pciBdfGetDevfn v.1))) = 0)
    (x : BitVec 64) :
    VtdTables (m.store (entryAddr t (BitVec.ofNat 64 (vtdIndex d v + 1))) x) root l ∧
      ∀ v' d', vtdRadix.entry (m.store (entryAddr t (BitVec.ofNat 64 (vtdIndex d v + 1))) x).mem
        root v' d' = vtdRadix.entry m.mem root v' d' := by
  have heq : ∀ v' d' t', vtdRadix.table m.mem root v' d' = some t' →
      (m.store (entryAddr t (BitVec.ofNat 64 (vtdIndex d v + 1))) x).mem
        (vtdRadix.slot t' (vtdRadix.index d' v')) =
          m.mem (vtdRadix.slot t' (vtdRadix.index d' v')) :=
    fun v' d' t' ht' => Machine.store_mem_of_ne _ (h.quad2_unselected ht hd ht')
  have hpage := h.pageOf_second ht hd
  refine ⟨⟨h.tree.congr_selected heq, ?_, h.frame, ?_, ?_, ?_, ?_⟩,
    vtdRadix.entry_congr_selected heq⟩
  · refine Chain.congr h.list fun p hp => Machine.store_mem_of_ne _ ?_
    rintro rfl
    exact h.free_ne_table hp ht ((h.pageOf_free hp).symm.trans hpage)
  · rw [vtdRadix.tables_congr_selected heq]
    exact h.fresh
  · intro v' d' t' ht'
    rw [vtdRadix.table_congr_selected heq] at ht'
    exact h.linked ht'
  · intro v' d' e hd2 hd4 he
    rw [vtdRadix.entry_congr_selected heq] at he
    exact h.small hd2 hd4 he
  · intro v' t' ht' hpresent
    rw [vtdRadix.table_congr_selected heq] at ht'
    have hquad1 : (m.store (entryAddr t (BitVec.ofNat 64 (vtdIndex d v + 1))) x).mem
      (vtdQuad1 t' (pciBdfGetDevfn v'.1)) = m.mem (vtdQuad1 t' (pciBdfGetDevfn v'.1)) :=
      heq v' 1 t' ht'
    rw [hquad1] at hpresent ⊢
    have hquad2 : vtdQuad2 t' (pciBdfGetDevfn v'.1) ≠
        entryAddr t (BitVec.ofNat 64 (vtdIndex d v + 1)) := by
      intro hs
      have hlt := (vtdIndex_quad (le_refl 1) v').2
      obtain rfl : t' = t := by rw [← h.pageOf_quad2 ht', hs, hpage]
      obtain ⟨rfl, -⟩ := h.tree.path ht' ht
      have hij := vtdSlot_inj hlt (vtdIndex_quad hd v).2 hs
      have hdevfn : pciBdfGetDevfn v'.1 = pciBdfGetDevfn v.1 := by
        rw [vtdIndex, vtdIndex] at hij
        exact BitVec.eq_of_toNat_eq (by omega)
      rw [hdevfn] at hpresent
      exact hpresent (habsent rfl)
    rw [Machine.store_mem_of_ne _ hquad2]
    exact h.context ht' hpresent

/-- Linking a cleared page is a graft of an empty table. -/
theorem link_graft {m' : Machine 64} (h : VtdTables m root (p :: l))
    (ht : vtdRadix.table m.mem root v d = some t)
    (hdead : vtdRadix.next d (m.mem (vtdRadix.slot t (vtdRadix.index d v))) = none)
    (hlink : vtdRadix.next d e = some p)
    (hm' : m' = ((allocPage m).2.clearPage p).store (vtdRadix.slot t (vtdRadix.index d v)) e) :
    vtdRadix.Graft m.mem m'.mem root v d t p e ∧
      ∀ i < 2 ^ 9, m'.mem (entryAddr p (BitVec.ofNat 64 i)) = 0 := by
  have hpp : pageOf p = p := h.pageOf_free List.mem_cons_self
  have hp : PageAligned p := pageOf_eq_self_iff.mp hpp
  have hclear : ∀ i < 2 ^ 9, ((allocPage m).2.clearPage p).mem
      (entryAddr p (BitVec.ofNat 64 i)) = 0 := fun i hi =>
    Machine.clearPage_mem_of_inPage _ ((inPage_iff hp).mpr (vtdSlot_page hpp hi))
  constructor
  · rw [hm']
    refine Radix.Graft.of_clear h.tree ht hdead hpp (h.fresh p List.mem_cons_self) hlink
      (fun a ha => ?_) fun v' => ?_
    · rw [Machine.clearPage_mem_of_not _ fun hin => ha ((inPage_iff hp).mp hin),
        (allocPage_cons h.list).1]
    · rw [vtdRadix_slot, hclear _ (vtdIndex_lt _ _)]
      exact vtdNext_zero _
  · intro i hi
    rw [hm', Machine.store_mem_of_ne, hclear i hi]
    intro hs
    have hpage := vtdSlot_page hpp hi
    rw [hs, h.pageOf_slot ht] at hpage
    exact h.free_ne_table List.mem_cons_self ht hpage.symm

/-- What the context entries hold after a graft of an empty table. -/
theorem context_graft {m' : Machine 64} {u : VtdKey} {s : BitVec 64}
    (h : VtdTables m root (p :: l)) (hg : vtdRadix.Graft m.mem m'.mem root v d t p e)
    (hzero : ∀ i < 2 ^ 9, m'.mem (entryAddr p (BitVec.ofNat 64 i)) = 0)
    (hctx : d = 1 → VtdContext v.1 e (m.mem (vtdQuad2 t (pciBdfGetDevfn v.1))))
    (hs : vtdRadix.table m'.mem root u 1 = some s)
    (hpresent : VtdCe.present.get (m'.mem (vtdQuad1 s (pciBdfGetDevfn u.1))) ≠ 0) :
    VtdContext u.1 (m'.mem (vtdQuad1 s (pciBdfGetDevfn u.1)))
      (m'.mem (vtdQuad2 s (pciBdfGetDevfn u.1))) := by
  have ht := hg.reach
  rcases hg.table_cases hs with ⟨-, -, rfl⟩ | hold
  · have hquad : m'.mem (vtdQuad1 s (pciBdfGetDevfn u.1)) = 0 := hzero _ (vtdIndex_lt 1 u)
    rw [hquad, BitField.get_zero] at hpresent
    exact absurd rfl hpresent
  · have hsp : s ≠ p := (h.free_ne_table List.mem_cons_self hold).symm
    have hquad2 : m'.mem (vtdQuad2 s (pciBdfGetDevfn u.1)) =
        m.mem (vtdQuad2 s (pciBdfGetDevfn u.1)) :=
      hg.frame _ (h.quad2_unselected hold le_rfl ht).symm
        fun hpq => hsp ((h.pageOf_quad2 hold).symm.trans hpq)
    rw [hquad2]
    by_cases hslot : vtdQuad1 s (pciBdfGetDevfn u.1) = vtdRadix.slot t (vtdRadix.index d v)
    · -- The linked entry is this context entry.
      obtain ⟨rfl, hagree⟩ := h.tree.slot_path hold ht hslot
      obtain rfl : s = t := Option.some.inj (hold.symm.trans
        ((vtdRadix.table_eq_of_agree (hagree.mono _ (Nat.le_succ 1))).trans ht))
      rw [hslot, hg.slot, sid_eq_of_agree hagree]
      exact hctx rfl
    · have hquad1 : m'.mem (vtdQuad1 s (pciBdfGetDevfn u.1)) =
          m.mem (vtdQuad1 s (pciBdfGetDevfn u.1)) :=
        hg.frame _ hslot fun hpq => hsp ((h.pageOf_quad1 hold).symm.trans hpq)
      rw [hquad1] at hpresent ⊢
      exact h.context hold hpresent

/-- A fresh page, cleared and linked into an entry that leads nowhere. -/
theorem link {m' : Machine 64} (h : VtdTables m root (p :: l))
    (ht : vtdRadix.table m.mem root v d = some t)
    (hdead : vtdRadix.next d (m.mem (vtdRadix.slot t (vtdRadix.index d v))) = none)
    (hlink : vtdRadix.next d e = some p) (hsmall : 2 ≤ d → e &&& vtdPteHuge = 0)
    (hctx : d = 1 → VtdContext v.1 e (m.mem (vtdQuad2 t (pciBdfGetDevfn v.1))))
    (hm' : m' = ((allocPage m).2.clearPage p).store (vtdRadix.slot t (vtdRadix.index d v)) e) :
    VtdTables m' root l ∧ vtdRadix.Graft m.mem m'.mem root v d t p e ∧
      ∀ i < 2 ^ 9, m'.mem (entryAddr p (BitVec.ofNat 64 i)) = 0 := by
  obtain ⟨hg, hzero⟩ := h.link_graft ht hdead hlink hm'
  obtain ⟨halloc, hlist⟩ := allocPage_cons h.list
  have hpl : p ∉ l := (List.nodup_cons.mp (Chain.nodup h.list)).1
  refine ⟨⟨hg.isTree, ?_, fun q hq => h.frame q (List.mem_cons_of_mem p hq), ?_, ?_, ?_,
    h.context_graft hg hzero hctx⟩, hg, hzero⟩
  · have hfree : m'.freelist = m.mem p := by
      rw [hm', halloc]
      rfl
    unfold Machine.FreeList
    rw [hfree]
    -- The writes go to the fresh page and to a table.
    refine Chain.congr hlist fun q hq => hg.frame q ?_ ?_
    · rintro rfl
      have hqq := h.pageOf_free (List.mem_cons_of_mem p hq)
      rw [h.pageOf_slot ht] at hqq
      exact h.free_ne_table (List.mem_cons_of_mem p hq) ht hqq.symm
    · rw [show vtdRadix.page q = q from h.pageOf_free (List.mem_cons_of_mem p hq)]
      rintro rfl
      exact hpl hq
  · intro q hq
    rw [hg.tables_eq, Set.mem_insert_iff, not_or]
    refine ⟨?_, h.fresh q (List.mem_cons_of_mem p hq)⟩
    rintro rfl
    exact hpl hq
  · intro v' d' t' ht'
    rcases hg.table_cases ht' with ⟨-, -, rfl⟩ | hold
    · exact h.frame t' List.mem_cons_self
    · exact h.linked hold
  · intro v' d' e' hd2 hd4 he
    rcases hg.entry_cases he with he | ⟨-, ⟨rfl, rfl⟩ | ⟨rfl, rfl⟩⟩
    · exact h.small hd2 hd4 he
    · exact hsmall hd2
    · rw [vtdRadix_slot, hzero _ (vtdIndex_lt _ _)]
      exact BitVec.zero_and

/-- A write to an entry of the last level. -/
theorem leaf (h : VtdTables m root l) (ht : vtdRadix.table m.mem root v 4 = some t)
    (e : BitVec 64) :
    VtdTables (m.store (vtdRadix.slot t (vtdRadix.index 4 v)) e) root l ∧
      (∀ u d, d ≤ 4 → vtdRadix.table
        (m.store (vtdRadix.slot t (vtdRadix.index 4 v)) e).mem root u d =
          vtdRadix.table m.mem root u d) ∧
      ∀ u, (vtdRadix.Agree 5 v u →
          vtdRadix.entry (m.store (vtdRadix.slot t (vtdRadix.index 4 v)) e).mem root u 4 = some e) ∧
        (¬vtdRadix.Agree 5 v u →
          vtdRadix.entry (m.store (vtdRadix.slot t (vtdRadix.index 4 v)) e).mem root u 4 =
            vtdRadix.entry m.mem root u 4) := by
  have htables : ∀ u d, d ≤ 4 → vtdRadix.table
      (m.store (vtdRadix.slot t (vtdRadix.index 4 v)) e).mem root u d =
        vtdRadix.table m.mem root u d :=
    fun u d hd => h.tree.table_update ht (Or.inl hd)
  have hframe : ∀ a, pageOf a ≠ t →
      (m.store (vtdRadix.slot t (vtdRadix.index 4 v)) e).mem a = m.mem a := by
    intro a ha
    refine Machine.store_mem_of_ne _ ?_
    rintro rfl
    exact ha (h.pageOf_slot ht)
  refine ⟨⟨h.tree.plant ht (vtdNext_leaf e), ?_, h.frame, ?_, ?_, ?_, ?_⟩, htables, fun u => ?_⟩
  · refine Chain.congr h.list fun p hp => hframe p ?_
    rw [h.pageOf_free hp]
    exact h.free_ne_table hp ht
  · rintro p hp ⟨u, d, hu⟩
    exact h.fresh p hp ⟨u, d, (h.tree.table_plant_cases ht (vtdNext_leaf e) hu).1⟩
  · intro u d s hs
    exact h.linked (h.tree.table_plant_cases ht (vtdNext_leaf e) hs).1
  · intro u d e' hd2 hd4 he
    refine h.small (v := u) hd2 hd4 ?_
    rw [← he]
    exact (h.tree.entry_update ht (Or.inl hd4)).symm
  · intro u s hs hpresent
    rw [htables u 1 (by norm_num)] at hs
    have hst : s ≠ t := by
      rintro rfl
      exact absurd (h.tree.path hs ht).1 (by norm_num)
    have hquad1 := hframe (vtdQuad1 s (pciBdfGetDevfn u.1)) (by rwa [h.pageOf_quad1 hs])
    have hquad2 := hframe (vtdQuad2 s (pciBdfGetDevfn u.1)) (by rwa [h.pageOf_quad2 hs])
    rw [hquad1] at hpresent ⊢
    rw [hquad2]
    exact h.context hs hpresent
  · exact ⟨h.tree.entry_update_self ht, fun hu => h.tree.entry_update ht (Or.inr hu)⟩

end VtdTables

/-! ## Mapping a page -/

section Install

variable {m : Machine 64} {root t : BitVec 64} {l : List (BitVec 64)} {iova pa : BitVec 64}
  {sid : BitVec 16} {d level levelTarget : ℕ}

theorem vtdInstallPte.served_of_walk : ∀ {level : ℕ} {t : BitVec 64} {m : Machine 64},
    (walk iova pa levelTarget level t m).denied = false → m.denied = false
  | 0, _, _, h => h
  | level + 1, _, _, h => by
    rw [walk] at h
    split_ifs at h
    · have hlinked := served_of_walk h
      exact served_of_allocPage hlinked
    · exact served_of_walk h
    · exact h
    · exact h

/-- At most `n` pages were taken, and none was denied. -/
structure VtdTook (n : ℕ) (m m' : Machine 64) (l l' : List (BitVec 64)) : Prop where
  length : l.length ≤ l'.length + n
  denied : m'.denied = m.denied

theorem VtdTook.refl (n : ℕ) (m : Machine 64) (l : List (BitVec 64)) : VtdTook n m m l l :=
  ⟨Nat.le_add_right _ _, rfl⟩

theorem VtdTook.trans {n n' : ℕ} {m m' m'' : Machine 64} {l l' l'' : List (BitVec 64)}
    (h : VtdTook n m m' l l') (h' : VtdTook n' m' m'' l' l'') :
    VtdTook (n + n') m m'' l l'' where
  length := by
    have := h.length
    have := h'.length
    omega
  denied := h'.denied.trans h.denied

/-- Unless it is denied, `alloc_page` takes the first page of the list. -/
theorem VtdTables.exists_cons (h : VtdTables m root l)
    (hsup : (allocPage m).2.denied = false ∨ 0 < l.length) :
    ∃ p rest, l = p :: rest ∧ (allocPage m).1 = p ∧
      VtdTook 1 m (allocPage m).2 l rest := by
  cases l with
  | nil =>
    rw [allocPage_nil h.list] at hsup
    rcases hsup with hden | hlen
    · cases hden
    · cases hlen
  | cons p rest =>
    rw [(allocPage_cons h.list).1]
    exact ⟨p, rest, rfl, rfl, le_rfl, rfl⟩

/-- Above its level, the walk goes one table down. -/
theorem vtdInstallPte.walk_step (h : VtdTables m root l)
    (ht : vtdRadix.table m.mem root (sid, iova) (d + 2) = some t) (hd : d + level = 2)
    (hlevel : 0 < level)
    (hsup : (walk iova pa 1 (level + 1) t m).denied = false ∨ 0 < l.length) :
    ∃ m' l' t', VtdTables m' root l' ∧ VtdSame root m m' ∧ VtdTook 1 m m' l l' ∧
      vtdRadix.table m'.mem root (sid, iova) (d + 3) = some t' ∧
      walk iova pa 1 (level + 1) t m = walk iova pa 1 level t' m' := by
  have hd2 : d < 2 := by omega
  have hslot : entryAddr t (vtdFormat.pgdirOffset iova (level + 1)) =
      vtdRadix.slot t (vtdRadix.index (d + 2) (sid, iova)) := by
    rw [vtdRadix_slot_level, vtdPageLevel, show 3 - d = level + 1 by omega]
  have hentry : vtdRadix.entry m.mem root (sid, iova) (d + 2) =
      some (m.mem (vtdRadix.slot t (vtdRadix.index (d + 2) (sid, iova)))) := by
    rw [Radix.entry, ht, Option.map_some]
  have hnext : ∀ e, vtdRadix.next (d + 2) e = if e &&& vtdPteRw ≠ 0 ∧ d < 2 then
      some (e &&& vtdPteAddr) else none := fun e => rfl
  rw [walk, if_pos (Nat.succ_lt_succ hlevel), hslot] at hsup ⊢
  split_ifs at hsup ⊢ with habsent
  · have hmore : (allocPage m).2.denied = false ∨ 0 < l.length := by
      refine hsup.imp_left fun hden => ?_
      have hlinked := served_of_walk hden
      exact hlinked
    obtain ⟨p, rest, rfl, hp, htook⟩ := h.exists_cons hmore
    have hpa := (h.frame p List.mem_cons_self).pageAligned rfl
    have hlink : vtdRadix.next (d + 2) (p ||| vtdPteRw) = some p := by
      rw [hnext, if_pos ⟨vtdLink_present p, hd2⟩, vtdLink_and_addr hpa]
    obtain ⟨htables, hg, hzero⟩ := h.link ht
      (by rw [hnext, if_neg fun hcon => hcon.1 habsent]) hlink (fun _ => vtdLink_small hpa)
      (fun h1 => absurd h1 (by omega)) rfl
    refine ⟨_, rest, p, htables, .of_graft hg (by omega) hzero,
      ⟨htook.length, htook.denied⟩,
      hg.table_new fun _ _ => rfl, ?_⟩
    simp only [hp, virtToPhys, physToVirt, Machine.store_mem_self, vtdLink_and_addr hpa]
  · refine ⟨m, l, _, h, .refl root m, .refl 1 m l, ?_, rfl⟩
    rw [Radix.table_succ, hentry, Option.bind_some, hnext, if_pos ⟨habsent, hd2⟩]
    rfl

/-- The page of the address is mapped, and no other changes. -/
theorem vtdInstallPte_spec (h : VtdTables m root l)
    (ht : vtdRadix.table m.mem root (sid, iova) 2 = some t) (hpa : PageAligned pa)
    (hsup : (vtdInstallPte t iova pa 1 m).denied = false ∨ 2 ≤ l.length) :
    ∃ l', VtdTables (vtdInstallPte t iova pa 1 m) root l' ∧
      VtdTook 2 m (vtdInstallPte t iova pa 1 m) l l' ∧
      (∀ {v s}, vtdRadix.table m.mem root v 2 = some s →
        vtdRadix.table (vtdInstallPte t iova pa 1 m).mem root v 2 = some s) ∧
      ∀ v, (vtdRadix.Agree 5 (sid, iova) v →
          vtdView root (vtdInstallPte t iova pa 1 m).mem v = some pa) ∧
        (¬vtdRadix.Agree 5 (sid, iova) v →
          vtdView root (vtdInstallPte t iova pa 1 m).mem v = vtdView root m.mem v) := by
  unfold vtdInstallPte at hsup ⊢
  obtain ⟨m₁, l₁, t₁, h₁, hsame₁, htook₁, ht₁, hrun₁⟩ :=
    vtdInstallPte.walk_step h ht (zero_add 2) two_pos (hsup.imp_right two_pos.trans_le)
  rw [vtdPageLevel, hrun₁] at hsup ⊢
  have hlen := htook₁.length
  obtain ⟨m₂, l₂, t₂, h₂, hsame₂, htook₂, ht₂, hrun₂⟩ :=
    vtdInstallPte.walk_step h₁ ht₁ (Nat.add_comm 1 1) one_pos
      (hsup.imp_right fun hle => by omega)
  rw [hrun₂]
  have hslot : entryAddr t₂ (vtdFormat.pgdirOffset iova 1) =
      vtdRadix.slot t₂ (vtdRadix.index 4 (sid, iova)) :=
    (vtdRadix_slot_level (v := (sid, iova)) 2).symm
  have hlast : vtdInstallPte.walk iova pa 1 1 t₂ m₂ =
      m₂.store (vtdRadix.slot t₂ (vtdRadix.index 4 (sid, iova))) (pa ||| vtdPteRw) := by
    rw [vtdInstallPte.walk, if_neg (lt_irrefl _), ← hslot]
    rfl
  rw [hlast]
  obtain ⟨hleaf, htables, hentry⟩ := h₂.leaf ht₂ (pa ||| vtdPteRw)
  have hsame := hsame₁.trans hsame₂
  have htook := htook₁.trans htook₂
  refine ⟨l₂, hleaf, ⟨htook.length, htook.denied⟩,
    fun hs => (htables _ 2 (by norm_num)).trans (hsame.keep hs), fun v => ?_⟩
  constructor
  · intro hv
    unfold vtdView
    rw [(hentry v).1 hv, Option.bind_some, if_neg (vtdLink_present pa), vtdLink_and_addr hpa]
  · intro hv
    rw [← hsame.view v]
    unfold vtdView
    rw [(hentry v).2 hv]

end Install

/-! ## The tables above -/

section Upper

variable {m : Machine 64} {root t p : BitVec 64} {l : List (BitVec 64)} {v : VtdKey} {d : ℕ}

/-- A fresh page, cleared and linked into an absent root entry or context entry, whose two
quads are written. -/
theorem VtdTables.linkQuads {m' : Machine 64} {quad1 quad2 : BitVec 64}
    (h : VtdTables m root (p :: l)) (ht : vtdRadix.table m.mem root v d = some t) (hd : d ≤ 1)
    (hdead : vtdRadix.next d (m.mem (vtdRadix.slot t (vtdRadix.index d v))) = none)
    (habsent : d = 1 → VtdCe.present.get (m.mem (vtdQuad1 t (pciBdfGetDevfn v.1))) = 0)
    (hlink : vtdRadix.next d quad1 = some p) (hctx : d = 1 → VtdContext v.1 quad1 quad2)
    (hm' : m' = (((allocPage m).2.clearPage p).store
      (entryAddr t (BitVec.ofNat 64 (vtdIndex d v + 1))) quad2).store
        (vtdRadix.slot t (vtdRadix.index d v)) quad1) :
    VtdTables m' root l ∧ VtdSame root m m' ∧ vtdRadix.table m'.mem root v (d + 1) = some p := by
  have hpp := h.pageOf_free List.mem_cons_self
  have hp : PageAligned p := pageOf_eq_self_iff.mp hpp
  have hpage := h.pageOf_second ht hd
  have htp : t ≠ p := (h.free_ne_table List.mem_cons_self ht).symm
  have hout : ¬InPage (entryAddr t (BitVec.ofNat 64 (vtdIndex d v + 1))) p :=
    fun hin => htp (hpage.symm.trans ((inPage_iff hp).mp hin))
  have hsel := h.quad2_unselected ht hd ht
  obtain ⟨h₂, hentry⟩ := h.storeQuad2 ht hd habsent quad2
  have ht₂ : vtdRadix.table (m.store (entryAddr t (BitVec.ofNat 64 (vtdIndex d v + 1))) quad2).mem
      root v d = some t := by
    rw [← ht]
    exact vtdRadix.table_congr_selected
      (fun v' d' t' ht' => Machine.store_mem_of_ne _ (h.quad2_unselected ht hd ht')) v d
  have halloc : (allocPage (m.store (entryAddr t (BitVec.ofNat 64 (vtdIndex d v + 1))) quad2)).2 =
      (allocPage m).2.store (entryAddr t (BitVec.ofNat 64 (vtdIndex d v + 1))) quad2 := by
    have hne : p ≠ entryAddr t (BitVec.ofNat 64 (vtdIndex d v + 1)) := by
      rintro rfl
      exact htp (hpage.symm.trans hpp)
    rw [(allocPage_cons h₂.list).1, (allocPage_cons h.list).1, Machine.store_mem_of_ne _ hne]
    rfl
  have hm₂ : m' = ((allocPage (m.store (entryAddr t (BitVec.ofNat 64 (vtdIndex d v + 1)))
      quad2)).2.clearPage p).store (vtdRadix.slot t (vtdRadix.index d v)) quad1 := by
    rw [halloc, Machine.clearPage_store _ hout, hm']
  obtain ⟨htables, hg, hzero⟩ := h₂.link ht₂
    (by rwa [Machine.store_mem_of_ne _ hsel]) hlink (fun h2 => absurd h2 (by omega)) (fun h1 => by
      subst h1
      exact (Machine.store_mem_self m).symm ▸ hctx rfl) hm₂
  exact ⟨htables, (VtdSame.of_entries hentry).trans (.of_graft hg (by omega) hzero),
    hg.table_new fun _ _ => rfl⟩

/-- The bits of a new root entry. -/
def vtdNewRe (p : BitVec 64) : BitVec 64 :=
  VtdRe.present.set (VtdRe.contextTableP.set 0 ((p >>> 12).setWidth 52)) 1

/-- The first quad of a new context entry. -/
def vtdNewCe (p : BitVec 64) : BitVec 64 :=
  VtdCe.disableFaultReport.set (VtdCe.present.set (VtdCe.transType.set
    (VtdCe.slptptr.set 0 ((p >>> 12).setWidth 52)) vtdContextTtMultiLevel) 1) 1

/-- Its second quad. -/
def vtdNewCe2 (sid : BitVec 16) : BitVec 64 :=
  VtdCe.addrWidth.set (VtdCe.domainId.set 0 sid) vtdCeAw39bit

theorem vtdNext_newRe {p : BitVec 64} (hp : IsFrame p) : vtdRadix.next 0 (vtdNewRe p) = some p := by
  have hpresent : VtdRe.present.get (vtdNewRe p) = 1 := BitField.get_set ..
  have hframe : VtdRe.contextTableP.get (vtdNewRe p) = (p >>> 12).setWidth 52 := by
    rw [vtdNewRe, BitField.get_set_of_disjoint (by decide), BitField.get_set]
  refine (if_neg ?_).trans (congrArg some ?_)
  · rw [hpresent]
    decide
  · rw [hframe, hp.frame_shiftLeft]

theorem vtdNext_newCe {p : BitVec 64} (hp : IsFrame p) : vtdRadix.next 1 (vtdNewCe p) = some p := by
  have hpresent : VtdCe.present.get (vtdNewCe p) = 1 := by
    rw [vtdNewCe, BitField.get_set_of_disjoint (by decide), BitField.get_set]
  have hframe : VtdCe.slptptr.get (vtdNewCe p) = (p >>> 12).setWidth 52 := by
    rw [vtdNewCe, BitField.get_set_of_disjoint (by decide),
      BitField.get_set_of_disjoint (by decide), BitField.get_set_of_disjoint (by decide),
      BitField.get_set]
  refine (if_neg ?_).trans (congrArg some ?_)
  · rw [hpresent]
    decide
  · rw [hframe, hp.frame_shiftLeft]

theorem vtdContext_new (p : BitVec 64) (sid : BitVec 16) :
    VtdContext sid (vtdNewCe p) (vtdNewCe2 sid) where
  transType := by
    rw [vtdNewCe, BitField.get_set_of_disjoint (by decide),
      BitField.get_set_of_disjoint (by decide), BitField.get_set]
  addrWidth := BitField.get_set ..
  domainId := by rw [vtdNewCe2, BitField.get_set_of_disjoint (by decide), BitField.get_set]

namespace vtdMapRange

theorem contextTable_absent {busN : BitVec 8}
    (habsent : VtdRe.present.get (m.mem (vtdQuad1 root busN)) = 0) :
    contextTable root busN m = ((allocPage m).1,
      (((allocPage m).2.clearPage (allocPage m).1).store (vtdQuad2 root busN) 0).store
        (vtdQuad1 root busN) (vtdNewRe (allocPage m).1)) := by
  have hne := vtdQuad1_ne_quad2 root busN
  unfold contextTable
  simp only [habsent, if_true, Machine.store_mem_self, Machine.store_mem_of_ne _ hne,
    Machine.store_store, virtToPhys]
  rw [Machine.store_comm _ hne, Machine.store_store]
  rfl

/-- The context table of a bus is there, old or new. -/
theorem contextTable_spec (h : VtdTables m root l) (v : VtdKey)
    (hsup : (contextTable root (pciBdfGetBus v.1) m).2.denied = false ∨ 0 < l.length) :
    ∃ l', VtdTables (contextTable root (pciBdfGetBus v.1) m).2 root l' ∧
      VtdTook 1 m (contextTable root (pciBdfGetBus v.1) m).2 l l' ∧
      VtdSame root m (contextTable root (pciBdfGetBus v.1) m).2 ∧
      vtdRadix.table (contextTable root (pciBdfGetBus v.1) m).2.mem root v 1 =
        some (contextTable root (pciBdfGetBus v.1) m).1 := by
  have hnext : ∀ e, vtdRadix.next 0 e = if VtdRe.present.get e = 0 then none else
      some ((VtdRe.contextTableP.get e).setWidth 64 <<< 12) := fun e => rfl
  by_cases habsent : VtdRe.present.get (m.mem (vtdQuad1 root (pciBdfGetBus v.1))) = 0
  · rw [contextTable_absent habsent] at hsup ⊢
    obtain ⟨p, rest, rfl, hp, htook⟩ := h.exists_cons hsup
    rw [hp]
    obtain ⟨htables, hsame, ht⟩ := h.linkQuads (v := v) (d := 0) rfl zero_le_one
      ((hnext _).trans (if_pos habsent)) (fun h1 => absurd h1 (by norm_num))
      (vtdNext_newRe (h.frame p List.mem_cons_self)) (fun h1 => absurd h1 (by norm_num)) rfl
    exact ⟨rest, htables, ⟨htook.length, htook.denied⟩, hsame, ht⟩
  · have hrun : contextTable root (pciBdfGetBus v.1) m = ((VtdRe.contextTableP.get
        (m.mem (vtdQuad1 root (pciBdfGetBus v.1))) <<< 12).setWidth 64, m) := if_neg habsent
    have htable : vtdRadix.table m.mem root v 1 = some ((VtdRe.contextTableP.get
        (m.mem (vtdQuad1 root (pciBdfGetBus v.1)))).setWidth 64 <<< 12) :=
      (hnext _).trans (if_neg habsent)
    rw [hrun]
    refine ⟨l, h, .refl 1 m l, .refl root m, htable.trans (congrArg some ?_)⟩
    exact (shiftLeft_of_isFrame (h.linked htable)).symm

theorem pageTable_absent {sid : BitVec 16} {ce : BitVec 64}
    (habsent : VtdCe.present.get (m.mem (vtdQuad1 ce (pciBdfGetDevfn sid))) = 0) :
    pageTable ce sid m = ((allocPage m).1,
      (((allocPage m).2.clearPage (allocPage m).1).store (vtdQuad2 ce (pciBdfGetDevfn sid))
        (vtdNewCe2 sid)).store (vtdQuad1 ce (pciBdfGetDevfn sid)) (vtdNewCe (allocPage m).1)) := by
  have hne := vtdQuad1_ne_quad2 ce (pciBdfGetDevfn sid)
  unfold pageTable
  simp only [habsent, if_true, Machine.store_mem_self, Machine.store_mem_of_ne _ hne,
    Machine.store_store, virtToPhys]
  rw [Machine.store_comm _ hne, Machine.store_store]
  rfl

/-- The page tables of a function are there, old or new. -/
theorem pageTable_spec (h : VtdTables m root l) (ht : vtdRadix.table m.mem root v 1 = some t)
    (hsup : (pageTable t v.1 m).2.denied = false ∨ 0 < l.length) :
    ∃ l', VtdTables (pageTable t v.1 m).2 root l' ∧ VtdTook 1 m (pageTable t v.1 m).2 l l' ∧
      VtdSame root m (pageTable t v.1 m).2 ∧
      vtdRadix.table (pageTable t v.1 m).2.mem root v 2 = some (pageTable t v.1 m).1 := by
  have hnext : ∀ e, vtdRadix.next 1 e = if VtdCe.present.get e = 0 then none else
      some ((VtdCe.slptptr.get e).setWidth 64 <<< 12) := fun e => rfl
  by_cases habsent : VtdCe.present.get (m.mem (vtdQuad1 t (pciBdfGetDevfn v.1))) = 0
  · rw [pageTable_absent habsent] at hsup ⊢
    obtain ⟨p, rest, rfl, hp, htook⟩ := h.exists_cons hsup
    rw [hp]
    obtain ⟨htables, hsame, ht'⟩ := h.linkQuads ht le_rfl ((hnext _).trans (if_pos habsent))
      (fun _ => habsent) (vtdNext_newCe (h.frame p List.mem_cons_self))
      (fun _ => vtdContext_new p v.1) rfl
    exact ⟨rest, htables, ⟨htook.length, htook.denied⟩, hsame, ht'⟩
  · have hrun : pageTable t v.1 m = ((VtdCe.slptptr.get
        (m.mem (vtdQuad1 t (pciBdfGetDevfn v.1))) <<< 12).setWidth 64, m) := if_neg habsent
    have htable : vtdRadix.table m.mem root v 2 = some ((VtdCe.slptptr.get
        (m.mem (vtdQuad1 t (pciBdfGetDevfn v.1)))).setWidth 64 <<< 12) := by
      rw [Radix.table_succ, Radix.entry, ht, Option.map_some, Option.bind_some]
      exact (hnext _).trans (if_neg habsent)
    rw [hrun]
    refine ⟨l, h, .refl 1 m l, .refl root m, htable.trans (congrArg some ?_)⟩
    exact (shiftLeft_of_isFrame (h.linked htable)).symm

end vtdMapRange

end Upper

/-! ## The walk of the tree -/

/-- The address that the tables give for a key. -/
def vtdPa (root : BitVec 64) (cells : BitVec 64 → BitVec 64) (v : VtdKey) : Option (BitVec 64) :=
  (vtdView root cells v).map (· + (v.2 &&& (pageSize - 1)))

section Walk

variable {m : Machine 64} {root t rtaddr iova : BitVec 64} {l : List (BitVec 64)} {v : VtdKey}
  {sid : BitVec 16}

/-- A walk that stops above the last level gives nothing. -/
theorem vtdPa_eq_none {d : ℕ} (h : vtdRadix.table m.mem root v d = none) (hd : d ≤ 4) :
    vtdPa root m.mem v = none := by
  unfold vtdPa vtdView
  rw [Radix.entry, vtdRadix.table_eq_none h hd]
  rfl

/-- The hardware walks the page tables of the tree. -/
theorem VtdTables.walk_eq (h : VtdTables m root l) : ∀ (level d : ℕ) (t : BitVec 64),
    d + level = 3 → vtdRadix.table m.mem root v (d + 2) = some t →
    vtdWalk m.mem v.2 level t = vtdPa root m.mem v
  | 0, d, t, hd, ht => by
    rw [vtdTable_five (by omega)] at ht
    cases ht
  | level + 1, d, t, hd, ht => by
    have hslot : entryAddr t (vtdFormat.pgdirOffset v.2 (level + 1)) =
        vtdRadix.slot t (vtdRadix.index (d + 2) v) := by
      rw [vtdRadix_slot_level, vtdPageLevel, show 3 - d = level + 1 by omega]
    have hentry : vtdRadix.entry m.mem root v (d + 2) =
        some (m.mem (vtdRadix.slot t (vtdRadix.index (d + 2) v))) := by
      rw [Radix.entry, ht, Option.map_some]
    have hnext : ∀ e, vtdRadix.next (d + 2) e = if e &&& vtdPteRw ≠ 0 ∧ d < 2 then
        some (e &&& vtdPteAddr) else none := fun e => rfl
    rw [vtdWalk, hslot]
    generalize m.mem (vtdRadix.slot t (vtdRadix.index (d + 2) v)) = e at hentry
    have htable : vtdRadix.table m.mem root v (d + 3) = vtdRadix.next (d + 2) e := by
      rw [Radix.table_succ, hentry, Option.bind_some]
    cases level with
    | zero =>
      obtain rfl : d = 2 := by omega
      have hmask : vtdPteAddr &&& ~~~((1#64 <<< vtdFormat.levelShift (0 + 1)) - 1) =
          vtdPteAddr := by
        decide
      unfold vtdPa vtdView
      rw [hentry, Option.bind_some]
      by_cases habsent : e &&& vtdPteRw = 0
      · rw [if_pos habsent, if_pos habsent]
        rfl
      · rw [if_neg habsent, if_neg habsent, if_pos (Or.inl rfl), Option.map_some]
        simp only [BitVec.and_assoc, hmask]
        rfl
    | succ level =>
      have hsmall := h.small (by omega) (by omega) hentry
      by_cases habsent : e &&& vtdPteRw = 0
      · rw [if_pos habsent, vtdPa_eq_none (d := d + 3) _ (by omega)]
        rw [htable, hnext, if_neg fun hcon => hcon.1 habsent]
      · rw [if_neg habsent, if_neg (by simp [hsmall])]
        refine h.walk_eq (level + 1) (d + 1) _ (by omega) (htable.trans ?_)
        rw [hnext, if_pos ⟨habsent, by omega⟩]

theorem vtdTable_one : vtdRadix.table m.mem root v 1 =
    if VtdRe.present.get (m.mem (vtdQuad1 root (pciBdfGetBus v.1))) = 0 then none
    else some ((VtdRe.contextTableP.get (m.mem (vtdQuad1 root (pciBdfGetBus v.1)))).setWidth 64 <<<
      12) :=
  rfl

theorem vtdTable_two (ht : vtdRadix.table m.mem root v 1 = some t) :
    vtdRadix.table m.mem root v 2 =
      if VtdCe.present.get (m.mem (vtdQuad1 t (pciBdfGetDevfn v.1))) = 0 then none
      else some ((VtdCe.slptptr.get (m.mem (vtdQuad1 t (pciBdfGetDevfn v.1)))).setWidth 64 <<<
        12) := by
  rw [Radix.table, ht]
  rfl

/-- The context entry is one of the tree. -/
theorem vtdContextEntry_eq (hroot : vtdRootTable rtaddr = root)
    (ht : vtdRadix.table m.mem root v 1 = some t) :
    vtdContextEntry m.mem rtaddr v.1 =
      if VtdCe.present.get (m.mem (vtdQuad1 t (pciBdfGetDevfn v.1))) = 0 then none
      else some (m.mem (vtdQuad1 t (pciBdfGetDevfn v.1)),
        m.mem (vtdQuad2 t (pciBdfGetDevfn v.1))) := by
  rw [vtdTable_one] at ht
  split_ifs at ht with habsent
  obtain rfl := Option.some.inj ht
  unfold vtdContextEntry
  rw [hroot, if_neg habsent]

/-- The hardware translates as the tree says. -/
theorem VtdTables.translate_eq (h : VtdTables m root l) (hroot : vtdRootTable rtaddr = root)
    (hv : v.2.toNat < 2 ^ 39) : vtdTranslate m.mem rtaddr v.1 v.2 = vtdPa root m.mem v := by
  unfold vtdTranslate
  cases ht : vtdRadix.table m.mem root v 1 with
  | none =>
    rw [vtdPa_eq_none ht (by norm_num)]
    rw [vtdTable_one] at ht
    unfold vtdContextEntry
    rw [hroot, if_pos]
    · rfl
    · by_contra hpresent
      rw [if_neg hpresent] at ht
      cases ht
  | some t =>
    rw [vtdContextEntry_eq hroot ht]
    have htwo := vtdTable_two ht
    by_cases habsent : VtdCe.present.get (m.mem (vtdQuad1 t (pciBdfGetDevfn v.1))) = 0
    · rw [if_pos habsent] at htwo ⊢
      rw [vtdPa_eq_none htwo (by norm_num)]
      rfl
    · have hctx := h.context ht habsent
      rw [if_neg habsent] at htwo ⊢
      rw [Option.bind_some, if_neg (not_not.mpr hctx.transType),
        if_neg (not_not.mpr hctx.addrWidth), if_neg (not_le.mpr hv)]
      exact h.walk_eq 3 0 _ rfl htwo

/-- Nothing is present above 39 bits. -/
theorem vtdTranslate_eq_none {cells : BitVec 64 → BitVec 64} (h : 2 ^ 39 ≤ iova.toNat) :
    vtdTranslate cells rtaddr sid iova = none := by
  unfold vtdTranslate
  rw [Option.bind_eq_none_iff]
  intro ce _
  split_ifs
  all_goals rfl

end Walk

/-! ## Runs -/

/-- The arguments of a call of `vtd_map_range`. -/
structure VtdCall where
  sid : BitVec 16
  iova : BitVec 64
  pa : BitVec 64
  size : BitVec 64
  iova_aligned : PageAligned iova
  pa_aligned : PageAligned pa
  size_aligned : PageAligned size
  fits : iova.toNat + size.toNat ≤ 2 ^ 39

/-- The call maps the address for the source id. -/
def VtdCall.Covers (c : VtdCall) (sid : BitVec 16) (x : BitVec 64) : Prop :=
  c.sid = sid ∧ c.iova.toNat ≤ x.toNat ∧ x.toNat < c.iova.toNat + c.size.toNat

instance (c : VtdCall) (sid : BitVec 16) (x : BitVec 64) : Decidable (c.Covers sid x) :=
  inferInstanceAs (Decidable (_ ∧ _))

/-- What the last call that covers an address maps it to. -/
def vtdExpected (calls : List VtdCall) (sid : BitVec 16) (x : BitVec 64) : Option (BitVec 64) :=
  (calls.reverse.find? fun c => c.Covers sid x).map fun c => c.pa + (x - c.iova)

/-- A call of `vtd_map_range`. -/
def VtdCall.run (rtaddr : BitVec 64) (m : Machine 64) (c : VtdCall) : Option (Machine 64) :=
  vtdMapRange rtaddr c.sid c.iova c.pa c.size m

/-- A run of calls. -/
def vtdRun (rtaddr : BitVec 64) (calls : List VtdCall) (m : Machine 64) : Option (Machine 64) :=
  calls.foldlM (VtdCall.run rtaddr) m

section Run

variable {m : Machine 64} {root t rtaddr iova pa size slptptr : BitVec 64} {l : List (BitVec 64)}
  {v v' : VtdKey} {sid : BitVec 16}

/-- Below 39 bits, the keys of an entry of the last level are those of a page. -/
theorem vtdAgree_iff (hv : v.2.toNat < 2 ^ 39) (hv' : v'.2.toNat < 2 ^ 39) :
    vtdRadix.Agree 5 v v' ↔ v.1 = v'.1 ∧ v.2.toNat / 2 ^ 12 = v'.2.toNat / 2 ^ 12 := by
  have hindex : ∀ (u : VtdKey) d, vtdRadix.index (d + 2) u =
      u.2.toNat / 2 ^ vtdFormat.levelShift (3 - d) % 2 ^ 9 :=
    fun u d => vtdFormat.toNat_pgdirOffset u.2 (3 - d)
  constructor
  · intro h
    refine ⟨sid_eq_of_agree (h.mono _ (by norm_num)), ?_⟩
    have h2 := h 2 (by norm_num)
    have h3 := h 3 (by norm_num)
    have h4 := h 4 (by norm_num)
    rw [hindex v 0, hindex v' 0] at h2
    rw [hindex v 1, hindex v' 1] at h3
    rw [hindex v 2, hindex v' 2] at h4
    have hs1 : vtdFormat.levelShift (3 - 0) = 30 := rfl
    have hs2 : vtdFormat.levelShift (3 - 1) = 21 := rfl
    have hs3 : vtdFormat.levelShift (3 - 2) = 12 := rfl
    rw [hs1] at h2
    rw [hs2] at h3
    rw [hs3] at h4
    omega
  · rintro ⟨hsid, hpage⟩ k hk
    match k with
    | 0 => exact congrArg (fun sid => 2 * (pciBdfGetBus sid).toNat) hsid
    | 1 => exact congrArg (fun sid => 2 * (pciBdfGetDevfn sid).toNat) hsid
    | d + 2 =>
      rw [hindex, hindex]
      have hshift : ∃ n, vtdFormat.levelShift (3 - d) = 12 + n := ⟨_, Nat.add_comm _ _⟩
      obtain ⟨n, hn⟩ := hshift
      rw [hn, Nat.pow_add, ← Nat.div_div_eq_div_mul, hpage, Nat.div_div_eq_div_mul]

/-- After a page is mapped. -/
theorem vtdInstallPte_pa (h : VtdTables m root l)
    (ht : vtdRadix.table m.mem root (sid, iova) 2 = some t) (hpa : PageAligned pa)
    (hiova : PageAligned iova) (hfits : iova.toNat < 2 ^ 39)
    (hsup : (vtdInstallPte t iova pa 1 m).denied = false ∨ 2 ≤ l.length)
    (hv : v.2.toNat < 2 ^ 39) :
    vtdPa root (vtdInstallPte t iova pa 1 m).mem v =
      if v.1 = sid ∧ iova.toNat ≤ v.2.toNat ∧ v.2.toNat < iova.toNat + 2 ^ 12 then
        some (pa + (v.2 - iova))
      else vtdPa root m.mem v := by
  obtain ⟨-, -, -, -, hview⟩ := vtdInstallPte_spec h ht hpa hsup
  have hagree := @vtdAgree_iff (sid, iova) v hfits hv
  have haligned : iova.toNat % 2 ^ 12 = 0 := hiova
  unfold vtdPa
  split_ifs with hcov
  · obtain ⟨hsid, hlow, hhigh⟩ := hcov
    have hpage : iova.toNat / 2 ^ 12 = v.2.toNat / 2 ^ 12 := by omega
    rw [(hview v).1 (hagree.mpr ⟨hsid.symm, hpage⟩), Option.map_some]
    congr 2
    refine BitVec.eq_of_toNat_eq ?_
    have hmask : (pageSize - 1 : BitVec 64).toNat = 2 ^ 12 - 1 := rfl
    rw [BitVec.toNat_and, hmask, Nat.and_two_pow_sub_one_eq_mod,
      BitVec.toNat_sub_of_le (BitVec.le_def.mpr hlow)]
    omega
  · rw [(hview v).2]
    intro hcon
    obtain ⟨hsid, hpage⟩ := hagree.mp hcon
    have hsid' : sid = v.1 := hsid
    have hpage' : iova.toNat / 2 ^ 12 = v.2.toNat / 2 ^ 12 := hpage
    exact hcov ⟨hsid'.symm, by omega, by omega⟩

theorem toNat_sub_pageSize (h : size.toNat ≠ 0) (hsize : size.toNat % 2 ^ 12 = 0) :
    (size - pageSize).toNat = size.toNat - 2 ^ 12 := by
  have hps : (pageSize : BitVec 64).toNat = 2 ^ 12 := rfl
  rw [BitVec.toNat_sub_of_le, hps]
  rw [BitVec.le_def, hps]
  omega

namespace vtdMapRange

/-- The loop ends, and forgets no denied page. -/
theorem loop_total : ∀ (k fuel : ℕ) (iova pa size : BitVec 64) (m : Machine 64), k < fuel →
    size.toNat = k * 2 ^ 12 → ∃ m', loop slptptr fuel iova pa size m = some m' ∧
      (m'.denied = false → m.denied = false)
  | 0, fuel + 1, iova, pa, size, m, _, hsize => by
    have h0 : size = 0 := BitVec.eq_of_toNat_eq (by simpa using hsize)
    rw [loop, if_neg (not_not.mpr h0)]
    exact ⟨m, rfl, id⟩
  | k + 1, fuel + 1, iova, pa, size, m, hf, hsize => by
    have hne : size ≠ 0 := by
      rintro rfl
      simp at hsize
    have hsub : (size - pageSize).toNat = size.toNat - 2 ^ 12 :=
      toNat_sub_pageSize (by omega) (by omega)
    obtain ⟨m', hrun, hden⟩ := loop_total k fuel (iova + pageSize) (pa + pageSize)
      (size - pageSize) (vtdInstallPte slptptr iova pa 1 m) (by omega) (by omega)
    rw [loop, if_pos hne]
    exact ⟨m', hrun, fun h => vtdInstallPte.served_of_walk (hden h)⟩

/-- The loop maps the range for the source id, and nothing else. -/
theorem loop_spec : ∀ (k fuel : ℕ) {iova pa size : BitVec 64} {m m' : Machine 64}
    {l : List (BitVec 64)}, k < fuel → size.toNat = k * 2 ^ 12 → VtdTables m root l →
    (∀ x, vtdRadix.table m.mem root (sid, x) 2 = some slptptr) → PageAligned iova →
    PageAligned pa → iova.toNat + size.toNat ≤ 2 ^ 39 →
    loop slptptr fuel iova pa size m = some m' → m'.denied = false ∨ 2 * k ≤ l.length →
    ∃ l', VtdTables m' root l' ∧ VtdTook (2 * k) m m' l l' ∧
      (∀ {v s}, vtdRadix.table m.mem root v 2 = some s →
        vtdRadix.table m'.mem root v 2 = some s) ∧
      ∀ v, v.2.toNat < 2 ^ 39 → vtdPa root m'.mem v =
        if v.1 = sid ∧ iova.toNat ≤ v.2.toNat ∧ v.2.toNat < iova.toNat + size.toNat then
          some (pa + (v.2 - iova))
        else vtdPa root m.mem v
  | 0, fuel + 1, iova, pa, size, m, m', l, _, hsize, h, ht, _, _, _, hrun, _ => by
    have h0 : size = 0 := BitVec.eq_of_toNat_eq (by simpa using hsize)
    rw [loop, if_neg (not_not.mpr h0)] at hrun
    obtain rfl := Option.some.inj hrun
    refine ⟨l, h, .refl _ m l, fun hs => hs, fun v _ => (if_neg ?_).symm⟩
    rw [hsize]
    omega
  | k + 1, fuel + 1, iova, pa, size, m, m', l, hf, hsize, h, ht, hiova, hpa, hfits, hrun, hsup => by
    have hne : size ≠ 0 := by
      rintro rfl
      simp at hsize
    have haligned : iova.toNat % 2 ^ 12 = 0 := hiova
    have hsub : (size - pageSize).toNat = size.toNat - 2 ^ 12 :=
      toNat_sub_pageSize (by omega) (by omega)
    have hadd : (iova + pageSize).toNat = iova.toNat + 2 ^ 12 := by
      have hps : (pageSize : BitVec 64).toNat = 2 ^ 12 := rfl
      rw [BitVec.toNat_add, hps, Nat.mod_eq_of_lt (by omega)]
    have hsup₁ : (vtdInstallPte slptptr iova pa 1 m).denied = false ∨ 2 ≤ l.length := by
      refine hsup.imp (fun hden => ?_) fun hle => by omega
      obtain ⟨m'', hrun', hserved⟩ := @loop_total slptptr k fuel (iova + pageSize)
        (pa + pageSize) (size - pageSize) (vtdInstallPte slptptr iova pa 1 m) (by omega) (by omega)
      rw [loop, if_pos hne, hrun'] at hrun
      obtain rfl := Option.some.inj hrun
      exact hserved hden
    rw [loop, if_pos hne] at hrun
    obtain ⟨l₁, h₁, htook₁, hkeep, -⟩ := vtdInstallPte_spec h (ht iova) hpa hsup₁
    have hlen := htook₁.length
    have hstep := fun v (hv : v.2.toNat < 2 ^ 39) =>
      vtdInstallPte_pa (v := v) h (ht iova) hpa hiova (by omega) hsup₁ hv
    obtain ⟨l', h', htook, hkeep', hmap⟩ := loop_spec k fuel (by omega) (by omega) h₁
      (fun x => hkeep (ht x)) (pageAt_one iova ▸ hiova.pageAt 1) (pageAt_one pa ▸ hpa.pageAt 1)
      (by omega) hrun (hsup.imp_right fun hle => by omega)
    refine ⟨l', h', ?_, fun hs => hkeep' (hkeep hs), fun v hv => ?_⟩
    · rw [Nat.mul_succ, Nat.add_comm]
      exact htook₁.trans htook
    have hshift : pa + pageSize + (v.2 - (iova + pageSize)) = pa + (v.2 - iova) := by
      generalize (pageSize : BitVec 64) = s
      grind
    rw [hmap v hv, hstep v hv, hadd, hsub, hshift]
    by_cases hsid : v.1 = sid
    · simp only [hsid, true_and]
      split_ifs with hrest hcov hfirst hcov hcov
      · rfl
      · omega
      · rfl
      · omega
      · omega
      · rfl
    · simp only [hsid, false_and, if_false]

end vtdMapRange

/-! ## A call -/

theorem vtdAgree_two (sid : BitVec 16) (x y : BitVec 64) :
    vtdRadix.Agree 2 (sid, x) (sid, y) := by
  intro k hk
  match k, hk with
  | 0, _ => rfl
  | 1, _ => rfl

theorem vtdMapRange.served_of_contextTable {busN : BitVec 8}
    (h : (contextTable root busN m).2.denied = false) : m.denied = false := by
  by_cases habsent : VtdRe.present.get (m.mem (vtdQuad1 root busN)) = 0
  · rw [contextTable_absent habsent] at h
    exact served_of_allocPage h
  · have hrun : contextTable root busN m = ((VtdRe.contextTableP.get
        (m.mem (vtdQuad1 root busN)) <<< 12).setWidth 64, m) := if_neg habsent
    rw [hrun] at h
    exact h

theorem vtdMapRange.served_of_pageTable (h : (pageTable t sid m).2.denied = false) :
    m.denied = false := by
  by_cases habsent : VtdCe.present.get (m.mem (vtdQuad1 t (pciBdfGetDevfn sid))) = 0
  · rw [pageTable_absent habsent] at h
    exact served_of_allocPage h
  · have hrun : pageTable t sid m = ((VtdCe.slptptr.get
        (m.mem (vtdQuad1 t (pciBdfGetDevfn sid))) <<< 12).setWidth 64, m) := if_neg habsent
    rw [hrun] at h
    exact h

theorem size_eq_mul (h : PageAligned size) : size.toNat = size.toNat / 2 ^ 12 * 2 ^ 12 :=
  (Nat.div_mul_cancel (Nat.dvd_of_mod_eq_zero h)).symm

namespace VtdCall

variable (c : VtdCall) {m' : Machine 64}

/-- No assertion stops a call. -/
theorem run_eq : c.run rtaddr m =
    let (ce, m) := vtdMapRange.contextTable (vtdRootTable rtaddr) (pciBdfGetBus c.sid) m
    let (slptptr, m) := vtdMapRange.pageTable ce c.sid m
    vtdMapRange.loop slptptr (2 ^ 64) c.iova c.pa c.size m := by
  have haligned : ∀ x : BitVec 64, PageAligned x → ¬(x &&& (pageSize - 1) ≠ 0) :=
    fun x hx => not_not.mpr ((and_sub_one_eq_zero_iff x 12).mpr hx)
  unfold run vtdMapRange
  rw [if_neg (haligned _ c.iova_aligned), if_neg (haligned _ c.pa_aligned),
    if_neg (haligned _ c.size_aligned)]

/-- A call returns, and forgets no denied page. -/
theorem run_total (rtaddr : BitVec 64) (m : Machine 64) :
    ∃ m', c.run rtaddr m = some m' ∧ (m'.denied = false → m.denied = false) := by
  have hlt : c.size.toNat / 2 ^ 12 < 2 ^ 64 := lt_of_le_of_lt (Nat.div_le_self _ _) c.size.isLt
  obtain ⟨m', hrun, hden⟩ := vtdMapRange.loop_total _ (2 ^ 64) c.iova c.pa c.size _
    hlt (size_eq_mul c.size_aligned)
  exact ⟨m', c.run_eq.trans hrun, fun h =>
    vtdMapRange.served_of_contextTable (vtdMapRange.served_of_pageTable (hden h))⟩

/-- The pages that a call takes at most. -/
def pages : ℕ :=
  1 + (1 + 2 * (c.size.toNat / 2 ^ 12))

/-- A call maps its range for its source id, and nothing else. -/
theorem run_spec (h : VtdTables m root l) (hroot : vtdRootTable rtaddr = root)
    (hrun : c.run rtaddr m = some m') (hsup : m'.denied = false ∨ c.pages ≤ l.length) :
    ∃ l', VtdTables m' root l' ∧ VtdTook c.pages m m' l l' ∧
      (∀ {v s}, vtdRadix.table m.mem root v 2 = some s →
        vtdRadix.table m'.mem root v 2 = some s) ∧
      (∃ t, vtdRadix.table m'.mem root (c.sid, c.iova) 2 = some t) ∧
      ∀ v, v.2.toNat < 2 ^ 39 → vtdPa root m'.mem v =
        if c.Covers v.1 v.2 then some (c.pa + (v.2 - c.iova)) else vtdPa root m.mem v := by
  rw [run_eq, hroot] at hrun
  obtain ⟨m₁, hm₁⟩ : ∃ m₁, m₁ = vtdMapRange.contextTable root (pciBdfGetBus c.sid) m := ⟨_, rfl⟩
  obtain ⟨m₂, hm₂⟩ : ∃ m₂, m₂ = vtdMapRange.pageTable m₁.1 c.sid m₁.2 := ⟨_, rfl⟩
  have hloop : vtdMapRange.loop m₂.1 (2 ^ 64) c.iova c.pa c.size m₂.2 = some m' := by
    rw [hm₂, hm₁]
    exact hrun
  have hlt : c.size.toNat / 2 ^ 12 < 2 ^ 64 := lt_of_le_of_lt (Nat.div_le_self _ _) c.size.isLt
  have hsize := size_eq_mul c.size_aligned
  unfold pages at hsup
  have hserved₂ : m'.denied = false → m₂.2.denied = false := by
    obtain ⟨m'', hrun', hserved⟩ := @vtdMapRange.loop_total m₂.1 _ (2 ^ 64) c.iova
      c.pa c.size m₂.2 hlt hsize
    obtain rfl := Option.some.inj (hrun'.symm.trans hloop)
    exact hserved
  have hserved₁ : m₂.2.denied = false → m₁.2.denied = false := by
    rw [hm₂]
    exact vtdMapRange.served_of_pageTable
  obtain ⟨l₁, h₁, htook₁, hsame₁, ht₁⟩ := vtdMapRange.contextTable_spec h (c.sid, c.iova)
    (hsup.imp (fun hden => hm₁ ▸ hserved₁ (hserved₂ hden)) fun hle => by omega)
  rw [← hm₁] at h₁ hsame₁ ht₁ htook₁
  have hlen₁ := htook₁.length
  obtain ⟨l₂, h₂, htook₂, hsame₂, ht₂⟩ := vtdMapRange.pageTable_spec h₁ ht₁
    (hsup.imp (fun hden => hm₂ ▸ hserved₂ hden) fun hle => by omega)
  rw [← hm₂] at h₂ hsame₂ ht₂ htook₂
  have hlen₂ := htook₂.length
  have hsame := hsame₁.trans hsame₂
  obtain ⟨l', h', htook, hkeep, hmap⟩ := vtdMapRange.loop_spec _ _ hlt hsize h₂
    (fun x => (vtdRadix.table_eq_of_agree (vtdAgree_two c.sid x c.iova)).trans ht₂)
    c.iova_aligned c.pa_aligned c.fits hloop (hsup.imp_right fun hle => by omega)
  refine ⟨l', h', htook₁.trans (htook₂.trans htook), fun hs => hkeep (hsame.keep hs),
    ⟨_, hkeep ht₂⟩, fun v hv => ?_⟩
  rw [hmap v hv]
  refine if_congr ?_ rfl ?_
  · unfold Covers
    rw [eq_comm]
  · unfold vtdPa
    rw [hsame.view]

end VtdCall

/-! ## All calls -/

/-- The tables after a run of calls. -/
structure VtdMapped (calls : List VtdCall) (m : Machine 64) (root : BitVec 64)
    (l : List (BitVec 64)) : Prop where
  tables : VtdTables m root l
  used : ∀ c ∈ calls, ∃ t, vtdRadix.table m.mem root (c.sid, c.iova) 2 = some t
  pa : ∀ v, v.2.toNat < 2 ^ 39 → vtdPa root m.mem v = vtdExpected calls v.1 v.2

theorem vtdExpected_concat (calls : List VtdCall) (c : VtdCall) (x : BitVec 64) :
    vtdExpected (calls ++ [c]) sid x =
      if c.Covers sid x then some (c.pa + (x - c.iova)) else vtdExpected calls sid x := by
  unfold vtdExpected
  rw [List.reverse_append, List.reverse_singleton, List.singleton_append, List.find?_cons]
  split_ifs with h
  · rw [decide_eq_true h]
    rfl
  · rw [decide_eq_false h]

/-- No call covers an address above 39 bits. -/
theorem vtdExpected_eq_none (calls : List VtdCall) (h : 2 ^ 39 ≤ iova.toNat) :
    vtdExpected calls sid iova = none := by
  unfold vtdExpected
  rw [Option.map_eq_none_iff, List.find?_eq_none]
  rintro c - hc
  obtain ⟨-, -, hlt⟩ := of_decide_eq_true hc
  exact absurd (hlt.trans_le c.fits) (not_lt.mpr h)

theorem vtdRun_concat (calls : List VtdCall) (c : VtdCall) :
    vtdRun rtaddr (calls ++ [c]) m = (vtdRun rtaddr calls m).bind (c.run rtaddr) := by
  unfold vtdRun
  rw [List.foldlM_append]
  simp

/-- A run returns, and forgets no denied page. -/
theorem vtdRun_total (rtaddr : BitVec 64) (calls : List VtdCall) (m : Machine 64) :
    ∃ m', vtdRun rtaddr calls m = some m' ∧ (m'.denied = false → m.denied = false) := by
  induction calls using List.reverseRecOn with
  | nil => exact ⟨m, rfl, id⟩
  | append_singleton calls c ih =>
    obtain ⟨m₁, hrun₁, hden₁⟩ := ih
    obtain ⟨m₂, hrun₂, hden₂⟩ := c.run_total rtaddr m₁
    refine ⟨m₂, ?_, fun h => hden₁ (hden₂ h)⟩
    rw [vtdRun_concat, hrun₁, Option.bind_some, hrun₂]

/-- What one more call does. -/
theorem VtdMapped.call {calls : List VtdCall} {c : VtdCall} {m' : Machine 64}
    (h : VtdMapped calls m root l) (hroot : vtdRootTable rtaddr = root)
    (hrun : c.run rtaddr m = some m') (hsup : m'.denied = false ∨ c.pages ≤ l.length) :
    ∃ l', VtdMapped (calls ++ [c]) m' root l' ∧ VtdTook c.pages m m' l l' := by
  obtain ⟨l', htables, htook, hkeep, hused, hmap⟩ := c.run_spec h.tables hroot hrun hsup
  refine ⟨l', ⟨htables, ?_, ?_⟩, htook⟩
  · intro c' hc'
    rcases List.mem_append.mp hc' with hc' | hc'
    · obtain ⟨t, ht⟩ := h.used c' hc'
      exact ⟨t, hkeep ht⟩
    · obtain rfl := List.mem_singleton.mp hc'
      exact hused
  · intro v hv
    rw [hmap v hv, vtdExpected_concat, h.pa v hv]

/-- What a run does. -/
theorem VtdMapped.run (hroot : vtdRootTable rtaddr = root) (h : VtdMapped [] m root l)
    (calls : List VtdCall) {m' : Machine 64} (hrun : vtdRun rtaddr calls m = some m')
    (hsup : m'.denied = false ∨ (calls.map VtdCall.pages).sum ≤ l.length) :
    ∃ l', VtdMapped calls m' root l' ∧ VtdTook (calls.map VtdCall.pages).sum m m' l l' := by
  induction calls using List.reverseRecOn generalizing m' with
  | nil =>
    obtain rfl := Option.some.inj hrun
    exact ⟨l, h, .refl _ m l⟩
  | append_singleton calls c ih =>
    obtain ⟨m₁, hrun₁, -⟩ := vtdRun_total rtaddr calls m
    rw [vtdRun_concat, hrun₁, Option.bind_some] at hrun
    rw [List.map_append, List.map_singleton, List.sum_append, List.sum_singleton] at hsup ⊢
    have hsup₁ : m₁.denied = false ∨ (calls.map VtdCall.pages).sum ≤ l.length := by
      refine hsup.imp (fun hden => ?_) fun hle => by omega
      obtain ⟨m₂, hrun₂, hserved⟩ := c.run_total rtaddr m₁
      obtain rfl := Option.some.inj (hrun₂.symm.trans hrun)
      exact hserved hden
    obtain ⟨l₁, h₁, htook₁⟩ := ih hrun₁ hsup₁
    have hlen := htook₁.length
    obtain ⟨l₂, h₂, htook₂⟩ := h₁.call hroot hrun (hsup.imp_right fun hle => by omega)
    exact ⟨l₂, h₂, htook₁.trans htook₂⟩

/-- `vtd_setup_root_table` makes an empty root table. -/
theorem vtdSetupRootTable_spec (hl : m.FreeList (root :: l)) (hframe : ∀ p ∈ root :: l, IsFrame p) :
    vtdRootTable (vtdSetupRootTable m).1 = root ∧
      VtdMapped [] (vtdSetupRootTable m).2 root l := by
  have hp : PageAligned root := (hframe root List.mem_cons_self).pageAligned rfl
  have hpp : pageOf root = root := pageOf_eq_self_iff.mpr hp
  obtain ⟨halloc, hlist⟩ := allocPage_cons hl
  have hrun : vtdSetupRootTable m = (root, (allocPage m).2.clearPage root) := by
    unfold vtdSetupRootTable
    rw [halloc]
    rfl
  rw [hrun]
  have hroot : vtdRootTable root = root := by
    refine BitVec.eq_of_toNat_eq ?_
    have hmask : (vtdRootTable root).toNat = root.toNat / 2 ^ 12 * 2 ^ 12 :=
      toNat_and_not_mask root pageShift_lt
    rw [hmask]
    exact (size_eq_mul hp).symm
  -- The table is empty, so it is the whole tree.
  have hbare : ∀ v, vtdRadix.next 0
      (((allocPage m).2.clearPage root).mem (vtdRadix.slot root (vtdRadix.index 0 v))) = none := by
    intro v
    rw [vtdRadix_slot, Machine.clearPage_mem_of_inPage _
      ((inPage_iff hp).mpr (vtdSlot_page hpp (vtdIndex_lt 0 v)))]
    exact vtdNext_zero 0
  have hone : ∀ v d, vtdRadix.table ((allocPage m).2.clearPage root).mem root v (d + 1) = none := by
    intro v d
    refine vtdRadix.table_eq_none (d := 1) ?_ (Nat.le_add_left 1 d)
    exact hbare v
  have hnd := Chain.nodup hl
  refine ⟨hroot, ⟨vtdRadix.isTree_of_bare hpp hbare, ?_, ?_, ?_, ?_, ?_, ?_⟩, ?_, ?_⟩
  · rw [halloc]
    refine Chain.congr hlist fun p hmem => Machine.clearPage_mem_of_not _ fun hin => ?_
    have hpage := pageOf_eq_self_iff.mpr ((hframe p (List.mem_cons_of_mem _ hmem)).pageAligned rfl)
    rw [inPage_iff hp, hpage] at hin
    exact (List.nodup_cons.mp hnd).1 (hin ▸ hmem)
  · exact fun p hmem => hframe p (List.mem_cons_of_mem _ hmem)
  · rintro p hmem ⟨v, d, ht⟩
    obtain ⟨-, rfl⟩ := vtdRadix.table_of_bare hbare ht
    exact (List.nodup_cons.mp hnd).1 hmem
  · intro v d t ht
    rw [hone] at ht
    cases ht
  · intro v d e hd _ he
    obtain ⟨d, rfl⟩ : ∃ k, d = k + 1 := ⟨d - 1, by omega⟩
    rw [Radix.entry, hone] at he
    cases he
  · intro v t ht
    rw [hone v 0] at ht
    cases ht
  · exact fun c hc => absurd hc List.not_mem_nil
  · exact fun v _ => vtdPa_eq_none (hone v 0) (by norm_num)

/-- No page, no root table. -/
theorem vtdSetupRootTable_denied (hl : m.FreeList []) : (vtdSetupRootTable m).2.denied = true := by
  unfold vtdSetupRootTable
  rw [allocPage_nil hl]
  rfl

end Run

namespace VtdDma

variable {m₀ : Machine 64} {l : List (BitVec 64)}

/-- After any run of calls the hardware finds, for every source id and every address, what
the last call of that source id that covered the address mapped it to, and nothing if none
did. One more call leaves the addresses of the other source ids. The context entry of each
source id used is present, 39 bits wide, and carries the source id as its domain. -/
theorem translate_run (hl : m₀.FreeList l) (hframe : ∀ p ∈ l, IsFrame p) (calls : List VtdCall) :
    ∃ m, vtdRun (vtdSetupRootTable m₀).1 calls (vtdSetupRootTable m₀).2 = some m ∧
      (m.denied = false →
        (∀ sid iova, vtdTranslate m.mem (vtdSetupRootTable m₀).1 sid iova =
          vtdExpected calls sid iova) ∧
        (∀ (c : VtdCall) m', c.run (vtdSetupRootTable m₀).1 m = some m' → m'.denied = false →
          ∀ sid ≠ c.sid, ∀ iova, vtdTranslate m'.mem (vtdSetupRootTable m₀).1 sid iova =
            vtdTranslate m.mem (vtdSetupRootTable m₀).1 sid iova) ∧
        ∀ c ∈ calls, ∃ quad1 quad2,
          vtdContextEntry m.mem (vtdSetupRootTable m₀).1 c.sid = some (quad1, quad2) ∧
            VtdCe.present.get quad1 = 1 ∧ VtdContext c.sid quad1 quad2) := by
  obtain ⟨m, hrun, hserved⟩ := vtdRun_total (vtdSetupRootTable m₀).1 calls
    (vtdSetupRootTable m₀).2
  refine ⟨m, hrun, fun hden => ?_⟩
  cases l with
  | nil =>
    rw [vtdSetupRootTable_denied hl] at hserved
    exact absurd (hserved hden) (by simp)
  | cons root l =>
    obtain ⟨hroot, hinit⟩ := vtdSetupRootTable_spec hl hframe
    obtain ⟨l', h, -⟩ := hinit.run hroot calls hrun (Or.inl hden)
    have htranslate : ∀ {calls m l'}, VtdMapped calls m root l' → ∀ sid iova,
        vtdTranslate m.mem (vtdSetupRootTable m₀).1 sid iova = vtdExpected calls sid iova := by
      intro calls m l' h sid iova
      rcases Nat.lt_or_ge iova.toNat (2 ^ 39) with hlt | hge
      · exact (h.tables.translate_eq (v := (sid, iova)) hroot hlt).trans (h.pa (sid, iova) hlt)
      · rw [vtdTranslate_eq_none hge, vtdExpected_eq_none calls hge]
    refine ⟨htranslate h, ?_, ?_⟩
    · intro c m' hcall hden' sid hsid iova
      obtain ⟨l'', h', -⟩ := h.call hroot hcall (Or.inl hden')
      rw [htranslate h', htranslate h, vtdExpected_concat, if_neg fun hcov => hsid hcov.1.symm]
    · intro c hc
      obtain ⟨t, ht⟩ := h.used c hc
      obtain ⟨t₁, ht₁, -⟩ := vtdRadix.exists_table_of_succ ht
      rw [vtdTable_two ht₁] at ht
      split_ifs at ht with habsent
      refine ⟨_, _, (vtdContextEntry_eq (v := (c.sid, c.iova)) hroot ht₁).trans (if_neg habsent),
        ?_, h.tables.context ht₁ habsent⟩
      exact (BitVec.eq_zero_or_eq_one _).resolve_left habsent

/-- With a root page and the pages of every call, no page is denied. -/
theorem run_not_denied (hl : m₀.FreeList l) (hframe : ∀ p ∈ l, IsFrame p) (calls : List VtdCall)
    (hlen : 1 + (calls.map VtdCall.pages).sum ≤ l.length) (hden : m₀.denied = false)
    {m : Machine 64}
    (hrun : vtdRun (vtdSetupRootTable m₀).1 calls (vtdSetupRootTable m₀).2 = some m) :
    m.denied = false := by
  cases l with
  | nil => exact absurd hlen (by simp)
  | cons root l =>
    rw [List.length_cons] at hlen
    obtain ⟨hroot, hinit⟩ := vtdSetupRootTable_spec hl hframe
    obtain ⟨l', -, htook⟩ := hinit.run hroot calls hrun (Or.inr (by omega))
    have hsetup : (vtdSetupRootTable m₀).2.denied = m₀.denied := by
      unfold vtdSetupRootTable
      rw [(allocPage_cons hl).1]
      rfl
    rw [htook.denied, hsetup, hden]

/-- Thirteen free pages. -/
def freshPages : Machine 64 where
  mem a := if a < 0xd000 then a + 0x1000 else 0
  freelist := 0x1000
  denied := false

/-- A page of one function, mapped twice, and a page of another. -/
def threeCalls : List VtdCall :=
  [⟨0x10, 0x5000, 0x100000, 0x1000, rfl, rfl, rfl, by decide⟩,
    ⟨0x10, 0x5000, 0x200000, 0x1000, rfl, rfl, rfl, by decide⟩,
    ⟨0x18, 0x6000, 0x300000, 0x1000, rfl, rfl, rfl, by decide⟩]

theorem freshPages_list : freshPages.FreeList [0x1000, 0x2000, 0x3000, 0x4000, 0x5000, 0x6000,
    0x7000, 0x8000, 0x9000, 0xa000, 0xb000, 0xc000, 0xd000] := by
  simp [Machine.FreeList, freshPages, chain_cons, chain_nil]

theorem freshPages_frame : ∀ p ∈ [0x1000#64, 0x2000, 0x3000, 0x4000, 0x5000, 0x6000, 0x7000,
    0x8000, 0x9000, 0xa000, 0xb000, 0xc000, 0xd000], IsFrame p := by
  simp [IsFrame]
  decide

theorem translate_threeCalls :
    ∃ m, vtdRun (vtdSetupRootTable freshPages).1 threeCalls (vtdSetupRootTable freshPages).2 =
        some m ∧ m.denied = false ∧
      vtdTranslate m.mem (vtdSetupRootTable freshPages).1 0x10 0x5123 = some 0x200123 ∧
      vtdTranslate m.mem (vtdSetupRootTable freshPages).1 0x18 0x6123 = some 0x300123 ∧
      vtdTranslate m.mem (vtdSetupRootTable freshPages).1 0x18 0x5123 = none := by
  obtain ⟨m, hrun, h⟩ := translate_run freshPages_list freshPages_frame threeCalls
  have hden := run_not_denied freshPages_list freshPages_frame threeCalls (by decide) rfl hrun
  obtain ⟨htranslate, -, -⟩ := h hden
  refine ⟨m, hrun, hden, ?_, ?_, ?_⟩
  · exact (htranslate 0x10 0x5123).trans (by decide)
  · exact (htranslate 0x18 0x6123).trans (by decide)
  · exact (htranslate 0x18 0x5123).trans (by decide)


end VtdDma

end AcrnUt
