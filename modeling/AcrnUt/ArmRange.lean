import AcrnUt.ArmMmuRun

/-!
# Ranges of pages on ARM

`mmu_set_range_ptes` maps the virtual range from `virt_offset`, rounded down, to the physical range
from `phys_start`, rounded down, to `phys_end`. It rounds with `PAGE_MASK`, which is an
`unsigned long`, and keeps its place in a `uintptr_t`. In the 32-bit build the first cuts a physical
address above 4 GiB, and the second comes round to 0 after the last page : then the loop makes no
turn, or never ends.

So the range is mapped and nothing else changes if and only if both fit an `unsigned long`, and the
physical addresses fit `PHYS_MASK` (`setRangePtes_iff`).
-/

set_option linter.unusedSectionVars false

namespace AcrnUt

namespace ArmArch

variable {C : ArmArch}

/-! ## The tables of this code -/

/-- The first-level entry of an address is empty, or leads to a table. -/
def Open (C : ArmArch) (m : ArmMachine) (root va : BitVec 64) : Prop :=
  m.mem (C.pgdOffset root va) = 0 ∨ m.mem (C.pgdOffset root va) &&& 3 = pmdTypeTable

/-- Tables that this code builds, with pages and lookups only where no section lies, and what
`alloc_page` has left. -/
inductive Built (C : ArmArch) (root : BitVec 64) : ArmMachine → Prop
  | alloc {m m' : ArmMachine} : C.GoodPages m → C.pgdAlloc m = (root, m') → m'.denied = false →
      Built C root m'
  | sect {m m' : ArmMachine} {virtOffset physStart physEnd : BitVec 64} {prot : PgProt} :
      Built C root m → C.mmuSetRangeSect root virtOffset physStart physEnd prot m = some m' →
      Built C root m'
  | page {m : ArmMachine} {phys vaddr : BitVec 64} {prot : PgProt} : Built C root m →
      C.Open m root vaddr → (C.installPageProt root phys vaddr prot m).2.denied = false →
      Built C root (C.installPageProt root phys vaddr prot m).2
  | lookup {m : ArmMachine} {mem : BitVec 64} : Built C root m → C.Open m root mem →
      (C.virtToPtePhys root mem m).2.denied = false → Built C root (C.virtToPtePhys root mem m).2
  | ptes {m m' : ArmMachine} {virtOffset physStart physEnd : BitVec 64} {prot : PgProt}
      {l : List (BitVec 64 × BitVec 64)} : Built C root m →
      setRangePtes.range C virtOffset physStart physEnd = some l →
      (∀ a ∈ l, C.Open m root a.1) →
      C.mmuSetRangePtes root virtOffset physStart physEnd prot m = some m' → m'.denied = false →
      Built C root m'

/-- The PGDIR entries that hold sections. -/
def sects (C : ArmArch) (m : ArmMachine) (root : BitVec 64) : Set (BitVec 64) :=
  {i | ∃ va, C.pgdIndex va = i ∧ m.mem (C.pgdOffset root va) &&& 3 = pmdTypeSect}

section Built

variable {S S' : Set (BitVec 64)} {m : ArmMachine} {root va : BitVec 64}

theorem ArmTables.mono (h : C.ArmTables S m root) (hS : S ⊆ S') : C.ArmTables S' m root where
  stock := h.stock
  good := h.good
  linked := h.linked
  upper hd he := by
    rcases h.upper hd he with h0 | htype | ⟨hd0, hs, hmem⟩
    · exact Or.inl h0
    · exact Or.inr (Or.inl htype)
    · exact Or.inr (Or.inr ⟨hd0, hs, hS hmem⟩)

theorem ArmTables.restrict (h : C.ArmTables S m root) : C.ArmTables (C.sects m root) m root where
  stock := h.stock
  good := h.good
  linked := h.linked
  upper {va d e} hd he := by
    rcases h.upper hd he with h0 | htype | ⟨rfl, hs, -⟩
    · exact Or.inl h0
    · exact Or.inr (Or.inl htype)
    · refine Or.inr (Or.inr ⟨rfl, hs, va, rfl, ?_⟩)
      have hentry : C.radix.entry m.mem root va 0 = some (m.mem (C.pgdOffset root va)) :=
        entry_of_table rfl
      rw [← Option.some.inj (he.symm.trans hentry)]
      exact hs

theorem Open.not_mem (h : C.Open m root va) : C.pgdIndex va ∉ C.sects m root := by
  rintro ⟨v, hv, hs⟩
  have hoffset : C.pgdOffset root v = C.pgdOffset root va := by
    unfold pgdOffset
    rw [hv]
  rw [hoffset] at hs
  rcases h with h0 | htype
  · rw [h0] at hs
    exact absurd hs (by decide)
  · rw [htype] at hs
    exact absurd hs (by decide)

/-- They keep the invariant. -/
theorem Built.tables (h : C.Built root m) : C.ArmTables Set.univ m root := by
  induction h with
  | alloc hgood halloc hden => exact ArmTables.pgdAlloc hgood halloc hden
  | sect _ hrun ih => exact ih.mmuSetRangeSect hrun fun _ _ _ _ => Set.mem_univ _
  | page _ hopen hden ih =>
    exact (ih.restrict.installPageProt hopen.not_mem hden).mono (Set.subset_univ _)
  | lookup _ hopen hden ih =>
    obtain ⟨t, m', heq, h', -⟩ := ih.restrict.getPte_spec hopen.not_mem hden
    unfold virtToPtePhys
    rw [heq]
    exact h'.mono (Set.subset_univ _)
  | ptes _ hl hopen hrun hden ih =>
    obtain ⟨l', hl', rfl⟩ := Option.map_eq_some_iff.mp hrun
    cases Option.some.inj (hl.symm.trans hl')
    have hrange := ih.restrict.foldl_ptes _ (fun a ha => (hopen a ha).not_mem) hden
    exact hrange.mono (Set.subset_univ _)

end Built

/-! ## What the loop should do -/

/-- The address lies in the `n` pages from `start` on. -/
def InPages (C : ArmArch) (start : BitVec 64) (n : ℕ) (va : BitVec 64) : Prop :=
  start.toNat ≤ va.toNat ∧ va.toNat < start.toNat + n * 2 ^ C.pageShift

instance (start : BitVec 64) (n : ℕ) (va : BitVec 64) : Decidable (C.InPages start n va) :=
  inferInstanceAs (Decidable (_ ∧ _))

/-- The pages that `[physStart, physEnd)`, with its start rounded down, reaches into. -/
def rangePages (C : ArmArch) (physStart physEnd : BitVec 64) : ℕ :=
  (physEnd.toNat - (C.page physStart).toNat + (2 ^ C.pageShift - 1)) / 2 ^ C.pageShift

/-- The `n` pages from `vaddr` on are mapped to those from `paddr` on, with their attributes. -/
def PagesMapped (C : ArmArch) (m : ArmMachine) (root vaddr paddr : BitVec 64) (n : ℕ)
    (prot : PgProt) : Prop :=
  ∀ va, C.InPages vaddr n va →
    C.hwLeaf m.mem root va =
        some (C.pageShift, pageEntry (paddr + (C.page va - vaddr)) prot) ∧
      C.hwWalk m.mem root va = some (paddr + (va - vaddr))

/-- The range is mapped, and every other address translates as before. -/
structure RangeSet (C : ArmArch) (root virtOffset physStart physEnd : BitVec 64) (prot : PgProt)
    (m m' : ArmMachine) : Prop where
  mapped : C.PagesMapped m' root (C.page virtOffset) (C.page physStart)
    (C.rangePages physStart physEnd) prot
  outside : ∀ va, ¬C.InPages (C.page virtOffset) (C.rangePages physStart physEnd) va →
    C.hwLeaf m'.mem root va = C.hwLeaf m.mem root va ∧
      C.hwWalk m'.mem root va = C.hwWalk m.mem root va

/-! ## The pages -/

/-- The address `k` pages on. -/
def nthPage (C : ArmArch) (a : BitVec 64) (k : ℕ) : BitVec 64 :=
  a + BitVec.ofNat 64 (k * 2 ^ C.pageShift)

/-- `n` pages installed, one after another. -/
def installPages (C : ArmArch) (root vaddr paddr : BitVec 64) (prot : PgProt) (n : ℕ)
    (m : ArmMachine) : ArmMachine :=
  (List.range n).foldl
    (fun m k => (C.installPageProt root (C.nthPage paddr k) (C.nthPage vaddr k) prot m).2) m

section Pages

variable {S : Set (BitVec 64)} {m : ArmMachine} {root vaddr paddr va v : BitVec 64} {n : ℕ}
  {prot : PgProt}

theorem installPages_succ : C.installPages root vaddr paddr prot (n + 1) m =
    (C.installPageProt root (C.nthPage paddr n) (C.nthPage vaddr n) prot
      (C.installPages root vaddr paddr prot n m)).2 := by
  unfold installPages
  rw [List.range_succ, List.foldl_append]
  rfl

@[simp] theorem nthPage_zero (a : BitVec 64) : C.nthPage a 0 = a := by
  unfold nthPage
  simp

theorem nthPage_succ (a : BitVec 64) (k : ℕ) :
    C.nthPage a (k + 1) = C.nthPage (a + C.pageSize) k := by
  have hsize : C.pageSize = BitVec.ofNat 64 (2 ^ C.pageShift) := by cases C <;> decide
  unfold nthPage
  rw [Nat.succ_mul, BitVec.ofNat_add, BitVec.add_assoc, hsize,
    BitVec.add_comm (BitVec.ofNat 64 (k * 2 ^ C.pageShift))]

theorem toNat_nthPage {a : BitVec 64} {k : ℕ} (h : a.toNat + k * 2 ^ C.pageShift < 2 ^ 64) :
    (C.nthPage a k).toNat = a.toNat + k * 2 ^ C.pageShift := by
  unfold nthPage
  rw [BitVec.toNat_add, BitVec.toNat_ofNat, Nat.add_mod_mod]
  exact Nat.mod_eq_of_lt h

theorem space_le : 2 ^ (C.pgdirShift + C.pgdBits) ≤ 2 ^ C.ulongBits ∧
    2 ^ C.ulongBits ≤ 2 ^ 64 ∧ 2 ^ (C.pgdirShift + C.pgdBits) < 2 ^ 64 := by
  cases C <;> decide

/-- The last of `n + 1` pages. -/
theorem page_nthPage_iff (hv : C.page vaddr = vaddr)
    (hfits : vaddr.toNat + (n + 1) * 2 ^ C.pageShift ≤ 2 ^ (C.pgdirShift + C.pgdBits)) :
    C.page (C.nthPage vaddr n) = C.nthPage vaddr n ∧
      (C.page (C.nthPage vaddr n) = C.page v ↔
        vaddr.toNat + n * 2 ^ C.pageShift ≤ v.toNat ∧
          v.toNat < vaddr.toNat + (n + 1) * 2 ^ C.pageShift) := by
  have hmod := C.page_eq_self_iff.mp hv
  have hspace := (space_le (C := C)).2.2
  rw [Nat.succ_mul] at hfits ⊢
  have hpos := Nat.two_pow_pos C.pageShift
  have hnth := toNat_nthPage (C := C) (a := vaddr) (k := n) (by omega)
  have hself : C.page (C.nthPage vaddr n) = C.nthPage vaddr n := by
    rw [page_eq_self_iff, hnth, Nat.add_mul_mod_self_right]
    exact hmod
  refine ⟨hself, ?_⟩
  rw [hself, ← BitVec.toNat_inj, toNat_page, hnth]
  clear hself hnth hfits
  cases C <;> simp only [pageShift] at * <;> omega

/-- The leaves after the pages are installed. -/
theorem ArmTables.installPages_spec (h : C.ArmTables S m root) (hv : C.page vaddr = vaddr)
    (hfits : vaddr.toNat + n * 2 ^ C.pageShift ≤ 2 ^ (C.pgdirShift + C.pgdBits))
    (hS : ∀ va, C.InPages vaddr n va → C.pgdIndex va ∉ S)
    (hden : (C.installPages root vaddr paddr prot n m).denied = false) :
    C.ArmTables S (C.installPages root vaddr paddr prot n m) root ∧
      ∀ va, C.hwLeaf (C.installPages root vaddr paddr prot n m).mem root va =
        if C.InPages vaddr n va
        then some (C.pageShift, pageEntry (paddr + (C.page va - vaddr)) prot)
        else C.hwLeaf m.mem root va := by
  induction n with
  | zero =>
    refine ⟨h, fun va => ?_⟩
    rw [if_neg fun hin => absurd (lt_of_le_of_lt hin.1 hin.2) (by simp)]
    rfl
  | succ n ih =>
    rw [installPages_succ] at hden ⊢
    have hpos := Nat.two_pow_pos C.pageShift
    have hsucc : (n + 1) * 2 ^ C.pageShift = n * 2 ^ C.pageShift + 2 ^ C.pageShift :=
      Nat.succ_mul ..
    have hbound := (space_le (C := C)).2.2
    have hnth := toNat_nthPage (C := C) (a := vaddr) (k := n) (by omega)
    have hin : ∀ va, C.InPages vaddr n va → C.InPages vaddr (n + 1) va := fun va hva =>
      ⟨hva.1, hva.2.trans_le (by omega)⟩
    obtain ⟨h₁, hleaf₁⟩ := ih (by omega) (fun va hva => hS va (hin va hva))
      (served_of_installPageProt hden)
    have hmem : C.pgdIndex (C.nthPage vaddr n) ∉ S := hS _ ⟨by omega, by omega⟩
    refine ⟨h₁.installPageProt hmem hden, fun va => ?_⟩
    rcases Nat.lt_or_ge va.toNat (2 ^ (C.pgdirShift + C.pgdBits)) with hva | hva
    · obtain ⟨hself, hpage⟩ := page_nthPage_iff (v := va) hv hfits
      rw [h₁.hwLeaf_installPageProt hmem hden (by omega) hva, hleaf₁]
      by_cases hlast : C.page (C.nthPage vaddr n) = C.page va
      · have hrange := hpage.mp hlast
        have hframe : C.nthPage paddr n = paddr + (C.page va - vaddr) := by
          rw [← hlast, hself]
          unfold nthPage
          rw [BitVec.add_comm vaddr, BitVec.add_sub_cancel]
        rw [if_pos hlast, if_pos ⟨by omega, hrange.2⟩, hframe]
      · rw [if_neg hlast]
        refine if_congr ⟨hin va, fun hva' => ⟨hva'.1, ?_⟩⟩ rfl rfl
        by_contra hge
        exact hlast (hpage.mpr ⟨not_lt.mp hge, hva'.2⟩)
    · rw [hwLeaf_of_le hva, hwLeaf_of_le hva, if_neg fun hc => ?_]
      have := hc.2
      omega

end Pages

/-! ## The loop -/

section Loop

variable {m : ArmMachine} {root vaddr paddr virtEnd virtOffset physStart physEnd : BitVec 64}
  {n fuel : ℕ} {prot : PgProt}

theorem toNat_pageSize : C.pageSize.toNat = 2 ^ C.pageShift := by
  cases C <;> decide

/-- As long as no address comes round, the loop goes through the pages below `virt_end`. -/
theorem range_eq (hlt : ∀ k < n, vaddr.toNat + k * 2 ^ C.pageShift < virtEnd.toNat)
    (hge : virtEnd.toNat ≤ vaddr.toNat + n * 2 ^ C.pageShift)
    (hfits : vaddr.toNat + n * 2 ^ C.pageShift < 2 ^ C.ulongBits) (hfuel : n < fuel) :
    C.range C.pageSize virtEnd fuel vaddr paddr =
      some ((List.range n).map fun k => (C.nthPage vaddr k, C.nthPage paddr k)) := by
  obtain ⟨fuel, rfl⟩ := Nat.exists_eq_succ_of_ne_zero (Nat.ne_zero_of_lt hfuel)
  induction n generalizing vaddr paddr fuel with
  | zero =>
    rw [range, if_neg]
    · rfl
    · rw [BitVec.lt_def]
      omega
  | succ n ih =>
    obtain ⟨fuel, rfl⟩ := Nat.exists_eq_succ_of_ne_zero (show fuel ≠ 0 by omega)
    have hsucc : ∀ k, (k + 1) * 2 ^ C.pageShift = k * 2 ^ C.pageShift + 2 ^ C.pageShift :=
      fun k => Nat.succ_mul k _
    have hbound := (space_le (C := C)).2.1
    have hn := hsucc n
    have hnext : (vaddr + C.pageSize).toNat = vaddr.toNat + 2 ^ C.pageShift := by
      rw [BitVec.toNat_add, toNat_pageSize]
      exact Nat.mod_eq_of_lt (by omega)
    have hulong : C.ulong (vaddr + C.pageSize) = vaddr + C.pageSize :=
      ulong_eq_self_iff.mpr (by omega)
    have hfirst : vaddr < virtEnd := by
      have := hlt 0 n.succ_pos
      rw [BitVec.lt_def]
      omega
    rw [range, if_pos hfirst, hulong, ih (fun k hk => ?_) (by omega) (by omega) fuel (by omega)]
    · rw [List.range_succ_eq_map, List.map_cons, List.map_map, nthPage_zero, nthPage_zero,
        Option.map_some]
      refine congrArg some (congrArg _ (List.map_congr_left fun k _ => ?_))
      rw [Function.comp_apply, Nat.succ_eq_add_one, nthPage_succ, nthPage_succ]
    · have := hlt (k + 1) (Nat.succ_lt_succ hk)
      rw [hsucc] at this
      omega

/-- If `virt_end` lies in the last page beyond its start, every page lies below it. -/
theorem range_eq_none (hend : 2 ^ C.ulongBits < virtEnd.toNat + 2 ^ C.pageShift)
    (hv : C.page vaddr = vaddr) (hlt : vaddr.toNat < 2 ^ C.ulongBits) (fuel : ℕ) :
    C.range C.pageSize virtEnd fuel vaddr paddr = none := by
  induction fuel generalizing vaddr paddr with
  | zero => rfl
  | succ fuel ih =>
    have hmod := C.page_eq_self_iff.mp hv
    have hnext : (C.ulong (vaddr + C.pageSize)).toNat =
        (vaddr.toNat + 2 ^ C.pageShift) % 2 ^ 64 % 2 ^ C.ulongBits := by
      rw [toNat_ulong, BitVec.toNat_add, toNat_pageSize]
    have hfirst : vaddr < virtEnd := by
      rw [BitVec.lt_def]
      cases C <;> simp only [pageShift, ulongBits] at * <;> omega
    rw [range, if_pos hfirst, ih]
    · rfl
    · rw [page_eq_self_iff, hnext]
      cases C <;> simp only [pageShift, ulongBits] at * <;> omega
    · rw [hnext]
      exact Nat.mod_lt _ (Nat.two_pow_pos _)

theorem and_pageMask (a : BitVec 64) : a &&& C.pageMask = C.ulong (C.page a) :=
  and_ulong _ _

theorem toNat_page_le (a : BitVec 64) : (C.page a).toNat ≤ a.toNat := by
  rw [toNat_page]
  exact Nat.div_mul_le_self _ _

/-- `virt_end`, as a number. -/
theorem toNat_virtEnd (hphys : physStart < physEnd) :
    (C.ulong (physEnd - C.ulong (C.page physStart) + C.page virtOffset)).toNat =
      ((C.page virtOffset).toNat + (physEnd.toNat - (C.page physStart).toNat)) %
        2 ^ C.ulongBits := by
  have hlt := BitVec.lt_def.mp hphys
  have hle := toNat_page_le (C := C) physStart
  have hend := physEnd.isLt
  rw [toNat_ulong, BitVec.toNat_add, BitVec.toNat_sub, toNat_ulong]
  cases C <;> simp only [ulongBits] at * <;> omega

/-- The pages of a range are the fewest that reach its end. -/
theorem rangePages_bounds (hphys : physStart < physEnd) :
    physEnd.toNat - (C.page physStart).toNat ≤ C.rangePages physStart physEnd * 2 ^ C.pageShift ∧
      C.rangePages physStart physEnd * 2 ^ C.pageShift <
        physEnd.toNat - (C.page physStart).toNat + 2 ^ C.pageShift ∧
      0 < physEnd.toNat - (C.page physStart).toNat := by
  have hlt := BitVec.lt_def.mp hphys
  have hle := toNat_page_le (C := C) physStart
  unfold rangePages
  cases C <;> simp only [pageShift] at * <;> omega

/-- The address space ends with a page. -/
theorem rangePages_fits (hphys : physStart < physEnd)
    (hfits : (C.page virtOffset).toNat + (physEnd.toNat - (C.page physStart).toNat) ≤
      2 ^ (C.pgdirShift + C.pgdBits)) :
    (C.page virtOffset).toNat + C.rangePages physStart physEnd * 2 ^ C.pageShift ≤
      2 ^ (C.pgdirShift + C.pgdBits) := by
  have hbounds := rangePages_bounds (C := C) hphys
  have hmod := C.page_eq_self_iff.mp (C.page_page virtOffset)
  cases C <;> simp only [pageShift, pgdirShift, pgdBits] at * <;> omega

/-- The loop, from the rounded starts to `virt_end`. -/
theorem mmuSetRangePtes_eq_map (hvirt : virtOffset.toNat < 2 ^ C.ulongBits) :
    C.mmuSetRangePtes root virtOffset physStart physEnd prot m =
      (C.range C.pageSize (C.ulong (physEnd - C.ulong (C.page physStart) + C.page virtOffset))
        (2 ^ 64) (C.page virtOffset) (C.ulong (C.page physStart))).map fun l =>
          l.foldl (fun m a => (C.installPageProt root a.2 a.1 prot m).2) m := by
  have hvaddr : virtOffset &&& C.pageMask = C.page virtOffset := by
    rw [and_pageMask]
    exact ulong_eq_self_iff.mpr ((toNat_page_le virtOffset).trans_lt hvirt)
  unfold mmuSetRangePtes setRangePtes.range
  dsimp only
  rw [hvaddr, and_pageMask]

/-- A range that ends before the last page of an `unsigned long` is installed page by page. -/
theorem mmuSetRangePtes_of_lt (hvirt : virtOffset.toNat < 2 ^ C.ulongBits)
    (hphys : physStart < physEnd)
    (hlt : (C.page virtOffset).toNat + C.rangePages physStart physEnd * 2 ^ C.pageShift <
      2 ^ C.ulongBits) :
    C.mmuSetRangePtes root virtOffset physStart physEnd prot m =
      some (C.installPages root (C.page virtOffset) (C.ulong (C.page physStart)) prot
        (C.rangePages physStart physEnd) m) := by
  have hbounds := rangePages_bounds (C := C) hphys
  have hspace := space_le (C := C)
  have hend : (C.ulong (physEnd - C.ulong (C.page physStart) + C.page virtOffset)).toNat = _ :=
    toNat_virtEnd hphys
  rw [Nat.mod_eq_of_lt (by omega)] at hend
  have hbelow : ∀ k < C.rangePages physStart physEnd,
      (C.page virtOffset).toNat + k * 2 ^ C.pageShift <
        (C.ulong (physEnd - C.ulong (C.page physStart) + C.page virtOffset)).toNat := by
    intro k hk
    have hk' : (k + 1) * 2 ^ C.pageShift ≤ C.rangePages physStart physEnd * 2 ^ C.pageShift :=
      Nat.mul_le_mul_right _ hk
    rw [Nat.succ_mul] at hk'
    omega
  have hcount := Nat.le_mul_of_pos_right (C.rangePages physStart physEnd)
    (Nat.two_pow_pos C.pageShift)
  rw [mmuSetRangePtes_eq_map hvirt, range_eq hbelow (by omega) hlt (by omega), Option.map_some,
    List.foldl_map]
  rfl

/-- If the range ends with the last page, the loop makes no turn. -/
theorem mmuSetRangePtes_of_eq (hvirt : virtOffset.toNat < 2 ^ C.ulongBits)
    (hphys : physStart < physEnd)
    (heq : (C.page virtOffset).toNat + (physEnd.toNat - (C.page physStart).toNat) =
      2 ^ C.ulongBits) :
    C.mmuSetRangePtes root virtOffset physStart physEnd prot m = some m := by
  have hend : (C.ulong (physEnd - C.ulong (C.page physStart) + C.page virtOffset)).toNat = _ :=
    toNat_virtEnd hphys
  rw [heq, Nat.mod_self] at hend
  have hstop : ¬C.page virtOffset <
      C.ulong (physEnd - C.ulong (C.page physStart) + C.page virtOffset) := by
    rw [BitVec.lt_def, hend]
    exact Nat.not_lt_zero _
  rw [mmuSetRangePtes_eq_map hvirt, show 2 ^ 64 = Nat.succ (2 ^ 64 - 1) from rfl, range,
    if_neg hstop]
  rfl

/-- If the range ends in the last page, the loop does not end. -/
theorem mmuSetRangePtes_of_gt (hvirt : virtOffset.toNat < 2 ^ C.ulongBits)
    (hphys : physStart < physEnd)
    (hlt : (C.page virtOffset).toNat + (physEnd.toNat - (C.page physStart).toNat) <
      2 ^ C.ulongBits)
    (hge : 2 ^ C.ulongBits ≤
      (C.page virtOffset).toNat + C.rangePages physStart physEnd * 2 ^ C.pageShift) :
    C.mmuSetRangePtes root virtOffset physStart physEnd prot m = none := by
  have hbounds := rangePages_bounds (C := C) hphys
  have hend : (C.ulong (physEnd - C.ulong (C.page physStart) + C.page virtOffset)).toNat = _ :=
    toNat_virtEnd hphys
  rw [Nat.mod_eq_of_lt hlt] at hend
  have hstart := (toNat_page_le (C := C) virtOffset).trans_lt hvirt
  rw [mmuSetRangePtes_eq_map hvirt, range_eq_none (by omega) (C.page_page virtOffset) hstart]
  rfl

/-- What becomes of the loop : it ends before the last page of an `unsigned long`, or makes no turn,
or does not end. -/
theorem mmuSetRangePtes_cases (hvirt : virtOffset.toNat < 2 ^ C.ulongBits)
    (hphys : physStart < physEnd)
    (hfits : (C.page virtOffset).toNat + (physEnd.toNat - (C.page physStart).toNat) ≤
      2 ^ (C.pgdirShift + C.pgdBits)) :
    ((C.page virtOffset).toNat + C.rangePages physStart physEnd * 2 ^ C.pageShift <
        2 ^ C.ulongBits ∧
      C.mmuSetRangePtes root virtOffset physStart physEnd prot m =
        some (C.installPages root (C.page virtOffset) (C.ulong (C.page physStart)) prot
          (C.rangePages physStart physEnd) m)) ∨
    ((C.page virtOffset).toNat + (physEnd.toNat - (C.page physStart).toNat) = 2 ^ C.ulongBits ∧
      C.mmuSetRangePtes root virtOffset physStart physEnd prot m = some m) ∨
    ((C.page virtOffset).toNat + (physEnd.toNat - (C.page physStart).toNat) < 2 ^ C.ulongBits ∧
      2 ^ C.ulongBits ≤
        (C.page virtOffset).toNat + C.rangePages physStart physEnd * 2 ^ C.pageShift ∧
      C.mmuSetRangePtes root virtOffset physStart physEnd prot m = none) := by
  rcases Nat.lt_or_ge ((C.page virtOffset).toNat +
    C.rangePages physStart physEnd * 2 ^ C.pageShift) (2 ^ C.ulongBits) with hlt | hge
  · exact Or.inl ⟨hlt, mmuSetRangePtes_of_lt hvirt hphys hlt⟩
  rcases (hfits.trans (space_le (C := C)).1).lt_or_eq with hlt | heq
  · exact Or.inr (Or.inr ⟨hlt, hge, mmuSetRangePtes_of_gt hvirt hphys hlt hge⟩)
  · exact Or.inr (Or.inl ⟨heq, mmuSetRangePtes_of_eq hvirt hphys heq⟩)

end Loop

/-! ## The range -/

section Range

variable {S : Set (BitVec 64)} {m : ArmMachine}
  {root vaddr paddr va virtOffset physStart physEnd : BitVec 64} {n : ℕ} {prot : PgProt}

/-- Bits of a `pgprot_t` that lie off the frame of an entry. -/
def AttributesOnly (C : ArmArch) (prot : PgProt) : Prop :=
  prot.val &&& (C.physMask &&& C.pageMaskS32) = 0

instance (prot : PgProt) : Decidable (C.AttributesOnly prot) :=
  inferInstanceAs (Decidable (_ = _))

/-- The address that the hardware makes of an entry for a page. -/
theorem toNat_output (hpage : C.page paddr = paddr) (hprot : C.AttributesOnly prot) :
    (C.output C.pageShift (pageEntry paddr prot) va).toNat =
      paddr.toNat % 2 ^ C.physMaskShift + va.toNat % 2 ^ C.pageShift := by
  have hbits : (pteTypePage ||| pteAf ||| pteShared) &&& (C.physMask &&& C.pageMaskS32) = 0 := by
    cases C <;> decide
  have hframe : paddr &&& (C.physMask &&& C.pageMaskS32) = paddr &&& C.physMask := by
    rw [BitVec.and_comm C.physMask, ← BitVec.and_assoc]
    exact congrArg (· &&& C.physMask) hpage
  have hentry : pageEntry paddr prot &&& C.physMask &&& ~~~((1#64 <<< C.pageShift) - 1) =
      paddr &&& C.physMask := by
    change _ &&& _ &&& C.pageMaskS32 = _
    unfold pageEntry
    rw [BitVec.and_assoc, BitVec.and_or_distrib_right, BitVec.and_or_distrib_right, hbits, hframe,
      show prot.val &&& _ = 0 from hprot]
    simp
  unfold output
  rw [hentry, BitVec.toNat_add, toNat_and_physMask, toNat_and_mask _ C.pageShift_lt]
  cases C <;> simp only [physMaskShift, pageShift] <;> omega

/-- The frame of a page of the range. -/
theorem page_frame (hv : C.page vaddr = vaddr) (hp : C.page paddr = paddr)
    (hva : C.InPages vaddr n va) :
    C.page (paddr + (C.page va - vaddr)) = paddr + (C.page va - vaddr) ∧
      (C.page va - vaddr).toNat + va.toNat % 2 ^ C.pageShift = (va - vaddr).toNat ∧
      (va - vaddr).toNat = va.toNat - vaddr.toNat := by
  have hmodv := C.page_eq_self_iff.mp hv
  have hmodp := C.page_eq_self_iff.mp hp
  have hpage := C.toNat_page va
  have hle := hva.1
  have hlt := va.isLt
  have hltp := paddr.isLt
  have hltv := vaddr.isLt
  rw [page_eq_self_iff, BitVec.toNat_add, BitVec.toNat_sub, BitVec.toNat_sub, hpage]
  cases C <;> simp only [pageShift] at * <;> omega

/-- What the hardware makes of the pages after they are installed. -/
theorem ArmTables.hwWalk_installPages (h : C.ArmTables S m root) (hv : C.page vaddr = vaddr)
    (hp : C.page paddr = paddr)
    (hfits : vaddr.toNat + n * 2 ^ C.pageShift ≤ 2 ^ (C.pgdirShift + C.pgdBits))
    (hS : ∀ va, C.InPages vaddr n va → C.pgdIndex va ∉ S) (hprot : C.AttributesOnly prot)
    (hden : (C.installPages root vaddr paddr prot n m).denied = false)
    (hva : C.InPages vaddr n va) :
    ∃ pa, C.hwWalk (C.installPages root vaddr paddr prot n m).mem root va = some pa ∧
      pa.toNat = (paddr + (C.page va - vaddr)).toNat % 2 ^ C.physMaskShift +
        va.toNat % 2 ^ C.pageShift := by
  have hleaf := (h.installPages_spec hv hfits hS hden).2 va
  rw [if_pos hva] at hleaf
  refine ⟨_, ?_, toNat_output (page_frame hv hp hva).1 hprot⟩
  rw [hwWalk_eq, hleaf, Option.map_some]

theorem page_ulong (a : BitVec 64) : C.page (C.ulong (C.page a)) = C.ulong (C.page a) := by
  have hmod := C.page_eq_self_iff.mp (C.page_page a)
  rw [page_eq_self_iff, toNat_ulong]
  cases C <;> simp only [pageShift, ulongBits] at * <;> omega

/-- Where both fit, the pages that are installed are those of the range. -/
theorem ArmTables.rangeSet (h : C.ArmTables S m root) (hphys : physStart < physEnd)
    (hfits : (C.page virtOffset).toNat + C.rangePages physStart physEnd * 2 ^ C.pageShift ≤
      2 ^ (C.pgdirShift + C.pgdBits))
    (hS : ∀ va, C.InPages (C.page virtOffset) (C.rangePages physStart physEnd) va →
      C.pgdIndex va ∉ S) (hprot : C.AttributesOnly prot)
    (hden : (C.installPages root (C.page virtOffset) (C.page physStart) prot
      (C.rangePages physStart physEnd) m).denied = false)
    (hmask : physEnd.toNat ≤ 2 ^ C.physMaskShift) :
    C.RangeSet root virtOffset physStart physEnd prot m
      (C.installPages root (C.page virtOffset) (C.page physStart) prot
        (C.rangePages physStart physEnd) m) := by
  have hv := C.page_page virtOffset
  have hp := C.page_page physStart
  have hleaf := (h.installPages_spec hv hfits hS hden).2
  constructor
  · intro va hva
    refine ⟨(hleaf va).trans (if_pos hva), ?_⟩
    obtain ⟨pa, hwalk, hpa⟩ := h.hwWalk_installPages hv hp hfits hS hprot hden hva
    obtain ⟨-, hsplit, hdist⟩ := page_frame hv hp hva
    have hbounds := rangePages_bounds (C := C) hphys
    have hle := toNat_page_le (C := C) physStart
    have hlt := BitVec.lt_def.mp hphys
    have hmodp := C.page_eq_self_iff.mp hp
    have hupper := hva.2
    rw [hwalk]
    refine congrArg some (BitVec.eq_of_toNat_eq ?_)
    rw [hpa, BitVec.toNat_add, BitVec.toNat_add]
    cases C <;> simp only [pageShift, physMaskShift] at * <;> omega
  · intro va hva
    have hsame := (hleaf va).trans (if_neg hva)
    refine ⟨hsame, ?_⟩
    rw [hwWalk_eq, hwWalk_eq, hsame]

/-- If the pages that are installed are those of the range, each address translates as both
say. -/
theorem ArmTables.toNat_of_pagesMapped (h : C.ArmTables S m root)
    (hfits : (C.page virtOffset).toNat + n * 2 ^ C.pageShift ≤ 2 ^ (C.pgdirShift + C.pgdBits))
    (hS : ∀ va, C.InPages (C.page virtOffset) n va → C.pgdIndex va ∉ S)
    (hprot : C.AttributesOnly prot)
    (hden : (C.installPages root (C.page virtOffset) (C.ulong (C.page physStart)) prot n
      m).denied = false)
    (hmapped : C.PagesMapped (C.installPages root (C.page virtOffset) (C.ulong (C.page physStart))
      prot n m) root (C.page virtOffset) (C.page physStart) n prot)
    (hva : C.InPages (C.page virtOffset) n va) :
    (C.page physStart + (va - C.page virtOffset)).toNat =
      (C.ulong (C.page physStart) + (C.page va - C.page virtOffset)).toNat % 2 ^ C.physMaskShift +
        va.toNat % 2 ^ C.pageShift := by
  obtain ⟨pa, hpa, hnat⟩ := h.hwWalk_installPages (C.page_page virtOffset)
    (page_ulong (C := C) physStart) hfits hS hprot hden hva
  rw [← hnat, ← Option.some.inj (hpa.symm.trans (hmapped va hva).2)]

/-- If the pages that are installed are those of the range, both fit. -/
theorem ArmTables.fits_of_pagesMapped (h : C.ArmTables S m root) (hphys : physStart < physEnd)
    (hfits : (C.page virtOffset).toNat + C.rangePages physStart physEnd * 2 ^ C.pageShift ≤
      2 ^ (C.pgdirShift + C.pgdBits))
    (hS : ∀ va, C.InPages (C.page virtOffset) (C.rangePages physStart physEnd) va →
      C.pgdIndex va ∉ S) (hprot : C.AttributesOnly prot)
    (hden : (C.installPages root (C.page virtOffset) (C.ulong (C.page physStart)) prot
      (C.rangePages physStart physEnd) m).denied = false)
    (hmapped : C.PagesMapped (C.installPages root (C.page virtOffset) (C.ulong (C.page physStart))
      prot (C.rangePages physStart physEnd) m) root (C.page virtOffset) (C.page physStart)
      (C.rangePages physStart physEnd) prot) :
    physStart.toNat < 2 ^ C.ulongBits ∧ physEnd.toNat ≤ 2 ^ C.physMaskShift := by
  have hwalk : ∀ va, C.InPages _ _ va → _ := fun va =>
    h.toNat_of_pagesMapped hfits hS hprot hden hmapped
  have hbounds := rangePages_bounds (C := C) hphys
  have hulong := toNat_ulong (C := C) (C.page physStart)
  have hpage := C.toNat_page physStart
  have hspace := space_le (C := C)
  have hv := C.page_page virtOffset
  -- The first page gives the start, the last one the end.
  have hpos := Nat.two_pow_pos C.pageShift
  have hmodv := C.page_eq_self_iff.mp hv
  have hmodp := C.page_eq_self_iff.mp (C.page_page physStart)
  have hfirst := hwalk (C.page virtOffset) ⟨le_rfl, by omega⟩
  rw [hv, BitVec.sub_self, BitVec.add_zero, BitVec.add_zero, hmodv, Nat.add_zero, hulong] at hfirst
  have hlow : (C.page physStart).toNat < 2 ^ C.ulongBits :=
    hfirst ▸ (Nat.mod_le _ _).trans_lt (Nat.mod_lt _ (Nat.two_pow_pos _))
  rw [ulong_eq_self_iff.mpr hlow] at hwalk
  obtain ⟨k, hk⟩ : ∃ k, C.rangePages physStart physEnd = k + 1 :=
    Nat.exists_eq_succ_of_ne_zero fun h0 => by
      rw [h0] at hbounds
      omega
  rw [hk] at hbounds hfits hwalk
  have hsucc : (k + 1) * 2 ^ C.pageShift = k * 2 ^ C.pageShift + 2 ^ C.pageShift := Nat.succ_mul ..
  obtain ⟨hself, -⟩ := page_nthPage_iff (v := 0) hv hfits
  have hnth := toNat_nthPage (C := C) (a := C.page virtOffset) (k := k) (by omega)
  have hlast := hwalk (C.nthPage (C.page virtOffset) k) ⟨by omega, by omega⟩
  have hdist : C.nthPage (C.page virtOffset) k - C.page virtOffset =
      BitVec.ofNat 64 (k * 2 ^ C.pageShift) := by
    unfold nthPage
    rw [BitVec.add_comm, BitVec.add_sub_cancel]
  have hframe := toNat_nthPage (C := C) (a := C.page physStart) (k := k) (by omega)
  rw [hself, hdist, hnth] at hlast
  change (C.nthPage (C.page physStart) k).toNat =
    (C.nthPage (C.page physStart) k).toNat % _ + _ at hlast
  rw [hframe] at hlast
  clear hwalk hfirst hden hmapped h hS
  cases C <;> simp only [pageShift, ulongBits, physMaskShift] at * <;> omega

/-- For all tables that this code builds, and every virtual range in the address space that no
section lies in : `mmu_set_range_ptes` returns with the range mapped and every other address as
before, if and only if `phys_start` fits an `unsigned long`, the pages of the range end below the
end of an `unsigned long`, and `phys_end` fits `PHYS_MASK`. A range that ends exactly there is not
touched, and so is fine if it was mapped before. -/
theorem setRangePtes_iff (h : C.Built root m) (hvirt : virtOffset.toNat < 2 ^ C.ulongBits)
    (hphys : physStart < physEnd)
    (hfits : (C.page virtOffset).toNat + (physEnd.toNat - (C.page physStart).toNat) ≤
      2 ^ (C.pgdirShift + C.pgdBits))
    (hopen : ∀ va, C.InPages (C.page virtOffset) (C.rangePages physStart physEnd) va →
      C.Open m root va)
    (hprot : C.AttributesOnly prot)
    (hserved : ∀ m', C.mmuSetRangePtes root virtOffset physStart physEnd prot m = some m' →
      m'.denied = false) :
    (∃ m', C.mmuSetRangePtes root virtOffset physStart physEnd prot m = some m' ∧
      C.RangeSet root virtOffset physStart physEnd prot m m') ↔
      (physStart.toNat < 2 ^ C.ulongBits ∧ physEnd.toNat ≤ 2 ^ C.physMaskShift ∧
        (C.page virtOffset).toNat + C.rangePages physStart physEnd * 2 ^ C.pageShift <
          2 ^ C.ulongBits) ∨
      ((C.page virtOffset).toNat + (physEnd.toNat - (C.page physStart).toNat) =
          2 ^ C.ulongBits ∧
        C.PagesMapped m root (C.page virtOffset) (C.page physStart)
          (C.rangePages physStart physEnd) prot) := by
  have htables := h.tables.restrict
  have hS : ∀ va, C.InPages (C.page virtOffset) (C.rangePages physStart physEnd) va →
      C.pgdIndex va ∉ C.sects m root := fun va hva => (hopen va hva).not_mem
  have hpages := rangePages_fits hphys hfits
  have hbounds := rangePages_bounds (C := C) hphys
  have hcases := @mmuSetRangePtes_cases C m root virtOffset physStart physEnd prot hvirt hphys hfits
  rcases hcases with ⟨hlt, hrun⟩ | ⟨heq, hrun⟩ | ⟨hlt, hge, hrun⟩
  · have hden := hserved _ hrun
    rw [hrun]
    constructor
    · rintro ⟨m', hm', hset⟩
      cases hm'
      obtain ⟨hstart, hmask⟩ :=
        htables.fits_of_pagesMapped hphys hpages hS hprot hden hset.mapped
      exact Or.inl ⟨hstart, hmask, hlt⟩
    · rintro (⟨hstart, hmask, -⟩ | ⟨htop, -⟩)
      · have hulong : C.ulong (C.page physStart) = C.page physStart :=
          ulong_eq_self_iff.mpr ((toNat_page_le _).trans_lt hstart)
        rw [hulong] at hden ⊢
        exact ⟨_, rfl, htables.rangeSet hphys hpages hS hprot hden hmask⟩
      · omega
  · rw [hrun]
    constructor
    · rintro ⟨m', hm', hset⟩
      cases hm'
      exact Or.inr ⟨heq, hset.mapped⟩
    · rintro (⟨-, -, hlt⟩ | ⟨-, hmapped⟩)
      · omega
      · exact ⟨m, rfl, hmapped, fun _ _ => ⟨rfl, rfl⟩⟩
  · rw [hrun]
    constructor
    · rintro ⟨m', hnone, -⟩
      cases hnone
    · rintro (⟨-, -, hlt'⟩ | ⟨htop, -⟩)
      · omega
      · omega

end Range

/-! ## A 32-bit build -/

/-- A new `mmu_idmap`. -/
def emptyTables : ArmMachine :=
  (pgdAlloc arm bootMachine).2

theorem emptyTables_built : Built arm (1#64 <<< 30) emptyTables :=
  Built.alloc bootMachine_good rfl rfl

theorem emptyTables_open (va : BitVec 64) : Open arm emptyTables (1#64 <<< 30) va := by
  left
  change (if _ then (0 : BitVec 64) else 0) = 0
  exact ite_self _

/-- Three pages, the last of them partly. -/
theorem setRangePtes_iff_threePages :
    ∃ m', mmuSetRangePtes arm (1#64 <<< 30) 0x1234 0x5678 0x7001 (pteProt arm) emptyTables =
        some m' ∧
      RangeSet arm (1#64 <<< 30) 0x1234 0x5678 0x7001 (pteProt arm) emptyTables m' := by
  refine (setRangePtes_iff emptyTables_built (by decide) (by decide) (by decide)
    (fun va _ => emptyTables_open va) (by decide) fun m' hrun => ?_).mpr
    (Or.inl ⟨by decide, by decide, by decide⟩)
  cases hrun
  rfl

/-- A page of physical memory at 4 GiB : the cut start maps the page to 0. -/
theorem setRangePtes_above_4g :
    Built arm (1#64 <<< 30) emptyTables ∧ (∀ va, Open arm emptyTables (1#64 <<< 30) va) ∧
      AttributesOnly arm (pteProt arm) ∧
      ∃ m', mmuSetRangePtes arm (1#64 <<< 30) 0x1000 0x100000000 0x100001000 (pteProt arm)
          emptyTables = some m' ∧
        m'.denied = false ∧ hwWalk arm m'.mem (1#64 <<< 30) 0x1000 = some 0 ∧
        ¬RangeSet arm (1#64 <<< 30) 0x1000 0x100000000 0x100001000 (pteProt arm)
          emptyTables m' := by
  refine ⟨emptyTables_built, emptyTables_open, by decide, _, rfl, rfl, ?_, fun hset => ?_⟩
  · decide
  · have hwalk := (hset.mapped 0x1000 (by decide)).2
    revert hwalk
    decide

end ArmArch

end AcrnUt
