import AcrnUt.ArmTables

/-!
# Lookups in the ARM page tables

Calls that keep sections and pages apart keep the tables a tree, with every section under a call
that maps sections.

On an address mapped by pages the walk of `get_pte` meets no empty entry and no section,
so the lookup gives what the hardware gives and changes nothing, as long as the frame
fits `-PAGE_SIZE`, an `unsigned long` : in the 32-bit build, below 4 GiB. On an address
mapped by a section it takes the memory of the section for a table
(`lookup_iff`).
-/

set_option linter.unusedSectionVars false

namespace AcrnUt

namespace ArmArch

variable {C : ArmArch}

section Walk

variable {S : Set (BitVec 64)} {m : ArmMachine} {root t va slot index e : BitVec 64} {d : ℕ}

/-! ## Building the tables -/

theorem and_three_eq_zero {x : BitVec 64} : x &&& 3 = 0 ↔ x.toNat % 4 = 0 := by
  rw [← BitVec.toNat_inj, BitVec.toNat_and]
  exact iff_of_eq (congrArg (· = 0) (Nat.and_two_pow_sub_one_eq_mod x.toNat 2))

/-- The physical addresses of a range keep the low bits clear. -/
theorem range_low {size virtEnd : BitVec 64} (hsize : size &&& 3 = 0) :
    ∀ fuel {vaddr paddr : BitVec 64} {l : List (BitVec 64 × BitVec 64)}, paddr &&& 3 = 0 →
      C.range size virtEnd fuel vaddr paddr = some l → ∀ a ∈ l, a.2 &&& 3 = 0
  | 0, _, _, _, _, h => by cases h
  | fuel + 1, vaddr, paddr, l, hp, h => by
    unfold range at h
    split_ifs at h
    · obtain ⟨l', hl', rfl⟩ := Option.map_eq_some_iff.mp h
      have hp' : paddr + size &&& 3 = 0 := by
        rw [and_three_eq_zero] at hp hsize ⊢
        rw [BitVec.toNat_add]
        omega
      intro a ha
      rcases List.mem_cons.mp ha with rfl | ha
      · exact hp
      · exact range_low hsize fuel hp' hl' a ha
    · cases h
      exact fun a ha => absurd ha List.not_mem_nil

theorem sectEntry_type {paddr : BitVec 64} (h : paddr &&& 3 = 0) (prot : PgProt) :
    sectEntry paddr prot &&& 3 = pmdTypeSect := by
  unfold sectEntry
  rw [BitVec.and_or_distrib_right, BitVec.and_or_distrib_right, h, prot.type_clear]
  decide

/-- The sections of a range. -/
theorem ArmTables.foldl_sect {prot : PgProt} (l : List (BitVec 64 × BitVec 64))
    (hl : ∀ a ∈ l, a.2 &&& 3 = 0 ∧ C.pgdIndex a.1 ∈ S) (h : C.ArmTables S m root) :
    C.ArmTables S
      (l.foldl (fun m a => m.store (C.pgdOffset root a.1) (sectEntry a.2 prot)) m) root := by
  induction l generalizing m with
  | nil => exact h
  | cons a l ih =>
    obtain ⟨hlow, hmem⟩ := hl a (List.mem_cons_self ..)
    have htype := sectEntry_type hlow prot
    refine ih (fun b hb => hl b (List.mem_cons_of_mem a hb)) ?_
    have hroot : C.radix.table m.mem root a.1 0 = some root := rfl
    have hleaf : C.radix.next 0 (sectEntry a.2 prot) = none :=
      if_neg fun hc => absurd (htype.symm.trans hc.2) (by decide)
    have hplant := h.plant hroot hleaf fun _ => ⟨rfl, htype, hmem⟩
    exact hplant

/-- `mmu_set_range_sect` keeps the tables, if `S` has its PGDIR entries. -/
theorem ArmTables.mmuSetRangeSect {m' : ArmMachine} {virtOffset physStart physEnd : BitVec 64}
    {prot : PgProt} (h : C.ArmTables S m root)
    (hrun : C.mmuSetRangeSect root virtOffset physStart physEnd prot m = some m')
    (hS : ∀ l, setRangeSect.range C virtOffset physStart physEnd = some l →
      ∀ a ∈ l, C.pgdIndex a.1 ∈ S) : C.ArmTables S m' root := by
  obtain ⟨l, hl, rfl⟩ := Option.map_eq_some_iff.mp hrun
  refine h.foldl_sect l fun a ha => ⟨?_, hS l hl a ha⟩
  have hlow : (physStart &&& C.pgdirMask) &&& 3 = 0 := by
    rw [BitVec.and_assoc, show C.pgdirMask &&& 3 = 0 by cases C <;> decide]
    exact BitVec.and_zero
  exact range_low (by cases C <;> decide) _ hlow hl a ha

theorem served_of_foldl {prot : PgProt} (l : List (BitVec 64 × BitVec 64))
    (h : (l.foldl (fun m a => (C.installPageProt root a.2 a.1 prot m).2) m).denied = false) :
    m.denied = false := by
  induction l generalizing m with
  | nil => exact h
  | cons a l ih => exact served_of_installPageProt (ih h)

/-- The pages of a range. -/
theorem ArmTables.foldl_ptes {prot : PgProt} (l : List (BitVec 64 × BitVec 64))
    (hl : ∀ a ∈ l, C.pgdIndex a.1 ∉ S) (h : C.ArmTables S m root)
    (hden : (l.foldl (fun m a => (C.installPageProt root a.2 a.1 prot m).2) m).denied = false) :
    C.ArmTables S (l.foldl (fun m a => (C.installPageProt root a.2 a.1 prot m).2) m) root := by
  induction l generalizing m with
  | nil => exact h
  | cons a l ih =>
    have hden₁ : (C.installPageProt root a.2 a.1 prot m).2.denied = false := served_of_foldl l hden
    exact ih (fun b hb => hl b (List.mem_cons_of_mem a hb))
      (h.installPageProt (hl a (List.mem_cons_self ..)) hden₁) hden

theorem served_of_call {c : MmuCall} {m' : ArmMachine} (hrun : c.run C root m = some m')
    (h : m'.denied = false) : m.denied = false := by
  cases c with
  | sect virtOffset physStart physEnd prot =>
    obtain ⟨l, -, rfl⟩ := Option.map_eq_some_iff.mp hrun
    have hkept := List.foldlRecOn (motive := fun m' : ArmMachine => m'.denied = m.denied) l
      (fun m a => m.store (C.pgdOffset root a.1) (sectEntry a.2 prot)) rfl fun m hm a _ => hm
    exact hkept.symm.trans h
  | ptes virtOffset physStart physEnd prot =>
    obtain ⟨l, -, rfl⟩ := Option.map_eq_some_iff.mp hrun
    exact served_of_foldl l h

/-- A call keeps the tables, if `S` tells its PGDIR entries from those of the other kind. -/
theorem ArmTables.call {c : MmuCall} {m' : ArmMachine} (h : C.ArmTables S m root)
    (hrun : c.run C root m = some m') (hden : m'.denied = false)
    (hS : ∀ i, c.Covers C i → (i ∈ S ↔ c.IsSect)) : C.ArmTables S m' root := by
  cases c with
  | sect virtOffset physStart physEnd prot =>
    exact h.mmuSetRangeSect hrun fun l hl a ha => (hS _ ⟨l, hl, a, ha, rfl⟩).mpr trivial
  | ptes virtOffset physStart physEnd prot =>
    obtain ⟨l, hl, rfl⟩ := Option.map_eq_some_iff.mp hrun
    exact h.foldl_ptes l (fun a ha hmem => (hS _ ⟨l, hl, a, ha, rfl⟩).mp hmem) hden

theorem served_of_mmuRun {calls : List MmuCall} {m' : ArmMachine}
    (hrun : mmuRun C root calls m = some m') (h : m'.denied = false) : m.denied = false := by
  induction calls generalizing m with
  | nil =>
    cases hrun
    exact h
  | cons c calls ih =>
    obtain ⟨m₁, hc, hrun⟩ := Option.bind_eq_some_iff.mp hrun
    exact served_of_call hc (ih hrun)

/-- A run keeps the tables. -/
theorem ArmTables.run {calls : List MmuCall} {m' : ArmMachine} (h : C.ArmTables S m root)
    (hrun : mmuRun C root calls m = some m') (hden : m'.denied = false)
    (hS : ∀ c ∈ calls, ∀ i, c.Covers C i → (i ∈ S ↔ c.IsSect)) : C.ArmTables S m' root := by
  induction calls generalizing m with
  | nil =>
    cases hrun
    exact h
  | cons c calls ih =>
    obtain ⟨m₁, hc, hrun⟩ := Option.bind_eq_some_iff.mp hrun
    have hden₁ : m₁.denied = false := served_of_mmuRun hrun hden
    exact ih (h.call hc hden₁ (hS c (List.mem_cons_self ..))) hrun
      fun c' hc' => hS c' (List.mem_cons_of_mem c hc')

/-- The PGDIR entries of the calls that map sections. -/
def sectEntries (C : ArmArch) (calls : List MmuCall) : Set (BitVec 64) :=
  {i | ∃ c ∈ calls, c.IsSect ∧ c.Covers C i}

theorem mem_sectEntries {calls : List MmuCall} (hdisj : MmuDisjoint C calls) {c : MmuCall}
    (hc : c ∈ calls) {i : BitVec 64} (hi : c.Covers C i) :
    i ∈ sectEntries C calls ↔ c.IsSect := by
  constructor
  · rintro ⟨c', hc', hsect, hcov⟩
    by_contra hcon
    exact hdisj c' hc' c hc hsect hcon i ⟨hcov, hi⟩
  · exact fun hsect => ⟨c, hc, hsect, hi⟩

/-- The pages that `alloc_page` hands out can be tables, and are different. -/
structure GoodPages (C : ArmArch) (m : ArmMachine) : Prop where
  nodup : m.pages.Nodup
  good : ∀ p ∈ m.pages, C.GoodPage p

/-- A new first-level table is empty. -/
theorem ArmTables.pgdAlloc {m₁ : ArmMachine} (hgood : C.GoodPages m)
    (halloc : C.pgdAlloc m = (root, m₁)) (hden : m₁.denied = false) : C.ArmTables S m₁ root := by
  unfold ArmArch.pgdAlloc ArmMachine.allocPage at halloc
  cases hl : m.pages with
  | nil =>
    rw [hl] at halloc
    cases halloc
    cases hden
  | cons p l =>
    rw [hl] at halloc
    obtain ⟨rfl, rfl⟩ := Prod.mk.inj halloc
    have hmem : p ∈ m.pages := hl ▸ List.mem_cons_self ..
    have hmem' : ∀ q ∈ l, q ∈ m.pages := fun q hq => hl ▸ List.mem_cons_of_mem p hq
    have hnodup := List.nodup_cons.mp (hl ▸ hgood.nodup)
    have hp : C.page p = p := (hgood.good p hmem).aligned
    have hzero : ∀ v, (({ m with pages := l } : ArmMachine).clearPage C p).mem
        (C.radix.slot p (C.radix.index 0 v)) = 0 := fun v => if_pos (C.radix.page_slot 0 v hp)
    have hbare : ∀ v, C.radix.next 0 ((({ m with pages := l } : ArmMachine).clearPage C p).mem
        (C.radix.slot p (C.radix.index 0 v))) = none := fun v => by
      rw [hzero]
      exact next_zero 0
    refine ⟨⟨C.radix.isTree_of_bare hp hbare, hnodup.2, fun q hq => ?_, ?_⟩, ?_, ?_, ?_⟩
    · exact (hgood.good q (hmem' q hq)).aligned
    · rintro q hq ⟨v, d, ht⟩
      obtain ⟨-, rfl⟩ := C.radix.table_of_bare hbare ht
      exact hnodup.1 hq
    · exact fun q hq => hgood.good q (hmem' q hq)
    · intro va d t ht
      exact absurd (C.radix.table_of_bare hbare ht).1 (Nat.succ_ne_zero d)
    · intro va d e _ he
      obtain ⟨t, ht, rfl⟩ := Option.map_eq_some_iff.mp he
      obtain ⟨rfl, rfl⟩ := C.radix.table_of_bare hbare ht
      exact Or.inl (hzero va)

/-! ## The walk of the hardware -/

/-- The hardware takes a section from the first level alone. -/
theorem hwWalk_of_sect {cells : BitVec 64 → BitVec 64} (h : C.Sect cells root va)
    (hva : va.toNat < 2 ^ (C.pgdirShift + C.pgdBits)) :
    C.hwWalk cells root va = some (C.output C.pgdirShift (cells (C.pgdOffset root va)) va) := by
  unfold Sect at h
  unfold hwWalk
  simp only
  rw [and_one_eq, and_two_eq, h, if_neg (not_le.mpr hva), if_neg (by decide), if_pos (by decide)]

theorem hwWalk_lt {cells : BitVec 64 → BitVec 64} {pa : BitVec 64}
    (h : C.hwWalk cells root va = some pa) : va.toNat < 2 ^ (C.pgdirShift + C.pgdBits) := by
  unfold hwWalk at h
  simp only at h
  split_ifs at h <;> omega

/-- The hardware takes an address from a section, or from a page of the last table. -/
theorem ArmTables.hwWalk_cases {pa : BitVec 64} (h : C.ArmTables S m root)
    (hw : C.hwWalk m.mem root va = some pa) :
    C.Sect m.mem root va ∧ va.toNat < 2 ^ (C.pgdirShift + C.pgdBits) ∨
      ¬C.Sect m.mem root va ∧ ∃ t, C.radix.table m.mem root va C.leaf = some t ∧
        pa = C.output C.pageShift (m.mem (entryAddr t (C.depthIndex C.leaf va))) va := by
  have hva := hwWalk_lt hw
  have hfirst : C.radix.entry m.mem root va 0 = some (m.mem (C.pgdOffset root va)) :=
    entry_of_table rfl
  obtain ⟨d, e, hends, hleaf⟩ := h.exists_leaf va
  rw [hwWalk_eq, hleaf hva] at hw
  unfold leafOf at hw
  split_ifs at hw with hsect hpage
  · obtain ⟨rfl, hs⟩ := hsect
    rw [← Option.some.inj (hfirst.symm.trans hends.1)] at hs
    exact Or.inl ⟨hs, hva⟩
  · obtain ⟨rfl, -⟩ := hpage
    obtain ⟨t, ht, rfl⟩ := Option.map_eq_some_iff.mp hends.1
    rw [radix_slot] at hw
    refine Or.inr ⟨fun hs => ?_, t, ht, (Option.some.inj hw).symm⟩
    -- the walk would end at the section
    have hnone : C.radix.next 0 (m.mem (C.pgdOffset root va)) = none :=
      if_neg fun hc => absurd (hs.symm.trans hc.2) (by decide)
    exact leaf_pos.ne (Radix.Ends.unique _ ⟨hfirst, hnone⟩ hends).1
  · cases hw

/-! ## Lookups -/

/-- Memory off the tables does not matter to them. -/
theorem ArmTables.congr {cells : BitVec 64 → BitVec 64} (h : C.ArmTables S m root)
    (heq : ∀ a, C.page a ∈ C.radix.tables m.mem root → cells a = m.mem a) :
    C.ArmTables S { m with mem := cells } root where
  stock :=
    { tree := h.stock.tree.congr heq
      nodup := h.stock.nodup
      page := h.stock.page
      fresh := fun p hp => by
        rw [h.stock.tree.tables_congr heq]
        exact h.stock.fresh p hp }
  good := h.good
  linked ht := h.linked ((h.stock.tree.table_congr heq _ _).symm.trans ht)
  upper hd he := h.upper hd ((h.stock.tree.entry_congr heq _ _).symm.trans he)

/-- The lookup of an address mapped by a page. -/
theorem ArmTables.virtToPtePhys_of_table (h : C.ArmTables S m root)
    (ht : C.radix.table m.mem root va C.leaf = some t) :
    C.virtToPtePhys root va m =
      ((m.mem (entryAddr t (C.depthIndex C.leaf va)) &&& C.physMask &&& C.ulong (-C.pageSize)) +
        (va &&& (C.pageSize - 1)), m) := by
  unfold virtToPtePhys
  rw [h.getPte_of_table ht]

theorem toNat_and_physMask (e : BitVec 64) :
    (e &&& C.physMask).toNat = e.toNat % 2 ^ C.physMaskShift := by
  unfold physMask
  exact toNat_and_mask e (by cases C <;> decide)

/-- The mask `-PAGE_SIZE` keeps a frame that fits an `unsigned long`, and no other. -/
theorem frame_eq_iff (e : BitVec 64) :
    (e &&& C.physMask &&& C.ulong (-C.pageSize)) + (va &&& (C.pageSize - 1)) =
      C.output C.pageShift e va ↔ (C.output C.pageShift e va).toNat < 2 ^ C.ulongBits := by
  have hmask : C.ulong (-C.pageSize) = C.ulong (~~~((1#64 <<< C.pageShift) - 1)) := by
    cases C <;> decide
  have hphys : (e &&& C.physMask).toNat < 2 ^ C.physMaskShift := by
    rw [toNat_and_physMask]
    exact Nat.mod_lt _ (Nat.two_pow_pos _)
  have hframe := toNat_and_not_mask (e &&& C.physMask) C.pageShift_lt
  have hoff : (va &&& ((1#64 <<< C.pageShift) - 1)).toNat < 2 ^ C.pageShift := by
    rw [toNat_and_mask _ C.pageShift_lt]
    exact Nat.mod_lt _ (Nat.two_pow_pos _)
  unfold output
  rw [hmask, and_ulong, show C.pageSize = 1#64 <<< C.pageShift from rfl, BitVec.add_left_inj,
    ulong_eq_self_iff, BitVec.toNat_add, hframe]
  cases C <;> simp only [physMaskShift, pageShift, ulongBits] at * <;> omega

/-- The assertion of `__phys_to_virt` rests on the lookup. -/
theorem Agrees.assertHolds (h : C.Agrees m root va) : C.AssertHolds m root va := by
  intro hw
  have hlt : C.ulong va = va := by
    refine ulong_eq_self_iff.mpr ((hwWalk_lt hw).trans_le ?_)
    exact Nat.pow_le_pow_right two_pos (by cases C <;> decide)
  unfold physToVirt virtToPhys
  rw [if_pos rfl, if_pos rfl, hlt, h va hw]
  exact if_pos rfl

/-- On pages whose frame fits an `unsigned long` the lookup is right, whatever memory holds
off the tables. -/
theorem ArmTables.agrees {pa : BitVec 64} (h : C.ArmTables S m root)
    (hw : C.hwWalk m.mem root va = some pa) (hsect : ¬C.Sect m.mem root va)
    (hpa : pa.toNat < 2 ^ C.ulongBits) : C.Agrees m root va := by
  intro pa' hw'
  obtain rfl : pa = pa' := Option.some.inj (hw.symm.trans hw')
  obtain ⟨hs, -⟩ | ⟨-, t, ht, rfl⟩ := h.hwWalk_cases hw
  · exact absurd hs hsect
  · rw [h.virtToPtePhys_of_table ht, (frame_eq_iff _).mpr hpa]

/-! ## Sections -/

theorem page_pageVaddr (e : BitVec 64) : C.page (C.pageVaddr e) = C.pageVaddr e := by
  rw [page_eq_self_iff, pageVaddr_eq, toNat_ulong]
  have hframe : (C.hwTable e).toNat = _ := toNat_and_not_mask (e &&& C.physMask) C.pageShift_lt
  rw [hframe]
  cases C <;> simp only [pageShift, ulongBits] <;> omega

/-- The memory of a section, where the lookup expects a table. -/
def sectSlot (C : ArmArch) (m : ArmMachine) (root va : BitVec 64) : BitVec 64 :=
  entryAddr (C.pageVaddr (m.mem (C.pgdOffset root va))) (C.depthIndex 1 va)

/-- The machine with a word of the section changed. -/
def poke (C : ArmArch) (m : ArmMachine) (root va x : BitVec 64) : ArmMachine :=
  m.store (sectSlot C m root va) x

theorem poke_slot (x : BitVec 64) : (poke C m root va x).mem (sectSlot C m root va) = x :=
  Function.update_self ..

/-- The section holds none of the tables, so the change keeps them. -/
theorem poke_table (hio : C.pageVaddr (m.mem (C.pgdOffset root va)) ∉ C.radix.tables m.mem root)
    (x : BitVec 64) {a : BitVec 64} (ha : C.page a ∈ C.radix.tables m.mem root) :
    (poke C m root va x).mem a = m.mem a := by
  refine Function.update_of_ne ?_ _ _
  rintro rfl
  unfold sectSlot at ha
  rw [C.page_entryAddr (page_pageVaddr _) (C.toNat_depthIndex_lt 1 va)] at ha
  exact hio ha

theorem ArmTables.page_pgdOffset (h : C.ArmTables S m root) (va : BitVec 64) :
    C.page (C.pgdOffset root va) ∈ C.radix.tables m.mem root := by
  have hpage : C.page (entryAddr root (C.depthIndex 0 va)) = root :=
    C.page_entryAddr h.stock.tree.page_root (C.toNat_depthIndex_lt 0 va)
  exact (congrArg (· ∈ C.radix.tables m.mem root) hpage).mpr ⟨va, 0, rfl⟩

/-- The lookup follows the section as a table. -/
theorem tableAlloc_poke {x : BitVec 64} (hs : C.Sect m.mem root va)
    (hroot : (poke C m root va x).mem (C.pgdOffset root va) = m.mem (C.pgdOffset root va)) :
    C.tableAlloc (C.pgdOffset root va) (C.depthIndex 1 va) (poke C m root va x) =
      (sectSlot C m root va, poke C m root va x) := by
  have hne : ¬(poke C m root va x).mem (C.pgdOffset root va) = 0 := by
    intro h0
    unfold Sect at hs
    rw [← hroot, h0] at hs
    exact absurd hs (by decide)
  unfold tableAlloc
  rw [if_neg hne, hroot]
  rfl

theorem tableAlloc_slot_ne (h0 : m.mem slot = 0) : (C.tableAlloc slot index m).2.mem slot ≠ 0 := by
  have hor : ∀ x : BitVec 64, x ||| pmdTypeTable ≠ 0 := by
    intro x hx
    have hlink := link_type x
    rw [hx] at hlink
    exact absurd hlink (by decide)
  unfold tableAlloc
  rw [if_pos h0]
  simp only [ArmMachine.store, Function.update_self]
  exact hor _

/-- On an address mapped by a section, what the lookup does depends on the memory of the
section : an empty word it replaces by a link to a new table (32-bit build), and a word it
takes for a page (64-bit build). -/
theorem ArmTables.not_agrees_of_sect (h : C.ArmTables S m root) (hs : C.Sect m.mem root va)
    (hva : va.toNat < 2 ^ (C.pgdirShift + C.pgdBits))
    (hio : C.pageVaddr (m.mem (C.pgdOffset root va)) ∉ C.radix.tables m.mem root) :
    ∃ x, ¬C.Agrees (poke C m root va x) root va := by
  have hroot : ∀ x, (poke C m root va x).mem (C.pgdOffset root va) =
      m.mem (C.pgdOffset root va) := fun x => poke_table hio x (h.page_pgdOffset va)
  have hwalk : ∀ x, C.hwWalk (poke C m root va x).mem root va =
      some (C.output C.pgdirShift (m.mem (C.pgdOffset root va)) va) := by
    intro x
    rw [hwWalk_of_sect (by rwa [Sect, hroot]) hva, hroot]
  by_contra hcon
  rw [not_exists] at hcon
  have hlook : ∀ x, C.virtToPtePhys root va (poke C m root va x) =
      (C.output C.pgdirShift (m.mem (C.pgdOffset root va)) va, poke C m root va x) :=
    fun x => not_not.mp (hcon x) _ (hwalk x)
  have hfirst := fun x => tableAlloc_poke hs (hroot x)
  cases C with
  | arm =>
    have hmem := congrArg (fun r => r.2.mem (sectSlot arm m root va)) (hlook 0)
    have hget : (virtToPtePhys arm root va (poke arm m root va 0)).2 =
        (tableAlloc arm (sectSlot arm m root va) (depthIndex arm 2 va)
          (poke arm m root va 0)).2 := by
      unfold virtToPtePhys
      rw [getPte_eq]
      simp only
      rw [show entryAddr root (depthIndex arm 0 va) = pgdOffset arm root va from rfl, hfirst]
    simp only [hget] at hmem
    exact tableAlloc_slot_ne (poke_slot 0) (hmem.trans (poke_slot 0))
  | arm64 =>
    have hval : ∀ x, (x &&& physMask arm64 &&& ulong arm64 (-pageSize arm64)) +
        (va &&& (pageSize arm64 - 1)) =
          output arm64 (pgdirShift arm64) (m.mem (pgdOffset arm64 root va)) va := by
      intro x
      have hx := congrArg Prod.fst (hlook x)
      unfold virtToPtePhys at hx
      rw [getPte_eq] at hx
      simp only at hx
      rw [show entryAddr root (depthIndex arm64 0 va) = pgdOffset arm64 root va from rfl,
        hfirst] at hx
      simpa only [poke_slot] using hx
    have heq := (hval 0).trans (hval (1#64 <<< 16)).symm
    rw [BitVec.add_left_inj] at heq
    exact absurd heq (by decide)

/-! ## Lookups after any run -/

/-- The hardware walk depends on the tables alone. -/
theorem ArmTables.hwWalk_unique {cells : BitVec 64 → BitVec 64} {pa pa' : BitVec 64}
    (h : C.ArmTables S m root)
    (heq : ∀ a, C.page a ∈ C.radix.tables m.mem root → cells a = m.mem a)
    (hw : C.hwWalk m.mem root va = some pa) (hsect : ¬C.Sect m.mem root va)
    (hw' : C.hwWalk cells root va = some pa') : ¬C.Sect cells root va ∧ pa' = pa := by
  have hroot : cells (C.pgdOffset root va) = m.mem (C.pgdOffset root va) :=
    heq _ (h.page_pgdOffset va)
  have hsect' : ¬C.Sect cells root va := by
    unfold Sect at hsect ⊢
    rwa [hroot]
  obtain ⟨hs, -⟩ | ⟨-, t, ht, rfl⟩ := h.hwWalk_cases hw
  · exact absurd hs hsect
  obtain ⟨hs, -⟩ | ⟨-, t', ht', rfl⟩ := (h.congr heq).hwWalk_cases hw'
  · exact absurd hs hsect'
  rw [h.stock.tree.table_congr heq, ht] at ht'
  cases ht'
  refine ⟨hsect', congrArg (fun e => C.output C.pageShift e va) (heq _ ?_)⟩
  rw [C.page_entryAddr (h.stock.tree.page_table ht) (C.toNat_depthIndex_lt _ va)]
  exact ⟨va, _, ht⟩

/-- Lookups after calls that keep sections and pages apart. Whatever memory holds off the
tables, the lookup of a mapped address gives what the hardware gives and changes nothing,
and the assertion of `__phys_to_virt` holds if the hardware maps the address to itself :
exactly if no section maps the address and the physical address fits an `unsigned long`.
Sections map I/O, so they hold no table. -/
theorem lookup_iff {calls : List MmuCall} {m₀ m₁ : ArmMachine} {pa : BitVec 64}
    (hgood : C.GoodPages m₀) (halloc : C.pgdAlloc m₀ = (root, m₁))
    (hdisj : MmuDisjoint C calls) (hrun : mmuRun C root calls m₁ = some m)
    (hden : m.denied = false) (hwalk : C.hwWalk m.mem root va = some pa)
    (hio : C.Sect m.mem root va →
      C.pageVaddr (m.mem (C.pgdOffset root va)) ∉ C.radix.tables m.mem root) :
    (∀ cells, (∀ a, C.page a ∈ C.radix.tables m.mem root → cells a = m.mem a) →
      C.Agrees { m with mem := cells } root va ∧ C.AssertHolds { m with mem := cells } root va) ↔
      ¬C.Sect m.mem root va ∧ pa.toNat < 2 ^ C.ulongBits := by
  have hden₁ : m₁.denied = false := served_of_mmuRun hrun hden
  have h : C.ArmTables (sectEntries C calls) m root :=
    (ArmTables.pgdAlloc hgood halloc hden₁).run hrun hden fun c hc i hi =>
      mem_sectEntries hdisj hc hi
  constructor
  · intro hall
    have hsect : ¬C.Sect m.mem root va := by
      intro hs
      obtain ⟨x, hx⟩ := h.not_agrees_of_sect hs (hwWalk_lt hwalk) (hio hs)
      exact hx (hall (poke C m root va x).mem fun a ha => poke_table (hio hs) x ha).1
    obtain ⟨hs, -⟩ | ⟨-, t, ht, rfl⟩ := h.hwWalk_cases hwalk
    · exact absurd hs hsect
    refine ⟨hsect, (frame_eq_iff _).mp ?_⟩
    have hlook := (hall m.mem fun _ _ => rfl).1 _ hwalk
    rw [h.virtToPtePhys_of_table ht] at hlook
    exact congrArg Prod.fst hlook
  · rintro ⟨hsect, hpa⟩ cells heq
    have hagrees : C.Agrees { m with mem := cells } root va := by
      intro pa' hw'
      obtain ⟨hsect', rfl⟩ := h.hwWalk_unique heq hwalk hsect hw'
      exact (h.congr heq).agrees hw' hsect' hpa pa' hw'
    exact ⟨hagrees, hagrees.assertHolds⟩

end Walk

/-! ## A 32-bit boot -/

/-- Three pages from 1 GiB on, and devices that read as zero. -/
def bootMachine : ArmMachine :=
  ⟨fun _ => 0, [1#64 <<< 30, 1#64 <<< 30 + 4096, 1#64 <<< 30 + 8192], false⟩

/-- The calls of `setup_mmu`, with one page of RAM. -/
def bootCalls : List MmuCall :=
  [.sect 0 0 (1#64 <<< 30) (sectProt arm),
    .ptes (1#64 <<< 30) (1#64 <<< 30) (1#64 <<< 30 + 4096) (pteProt arm)]

/-- The tables that they build. -/
def bootTables : ArmMachine :=
  (installPageProt arm (1#64 <<< 30) (1#64 <<< 30) (1#64 <<< 30) (pteProt arm)
    ((pgdAlloc arm bootMachine).2.store (pgdOffset arm (1#64 <<< 30) 0)
      (sectEntry 0 (sectProt arm)))).2

theorem bootMachine_good : GoodPages arm bootMachine where
  nodup := by decide
  good p hp := by
    simp only [bootMachine, List.mem_cons, List.not_mem_nil, or_false] at hp
    rcases hp with rfl | rfl | rfl <;> exact ⟨by decide, by decide, by decide⟩

theorem bootTables_run :
    mmuRun arm (1#64 <<< 30) bootCalls (pgdAlloc arm bootMachine).2 = some bootTables := by
  rfl

theorem bootCalls_disjoint : MmuDisjoint arm bootCalls := by
  have hsect : ∀ c ∈ bootCalls, c.IsSect → c.range arm = some [(0, 0)] := by
    intro c hc hs
    simp only [bootCalls, List.mem_cons, List.not_mem_nil, or_false] at hc
    rcases hc with rfl | rfl
    · rfl
    · exact hs.elim
  have hptes : ∀ c ∈ bootCalls, ¬c.IsSect →
      c.range arm = some [(1#64 <<< 30, 1#64 <<< 30)] := by
    intro c hc hs
    simp only [bootCalls, List.mem_cons, List.not_mem_nil, or_false] at hc
    rcases hc with rfl | rfl
    · exact absurd trivial hs
    · rfl
  rintro c hc c' hc' hs hs' i ⟨⟨l, hl, a, ha, rfl⟩, l', hl', a', ha', hi⟩
  rw [hsect c hc hs] at hl
  rw [hptes c' hc' hs'] at hl'
  cases hl
  cases hl'
  rw [List.mem_singleton] at ha ha'
  rw [ha, ha'] at hi
  exact absurd hi (by decide)

/-- An address of the page of RAM. -/
theorem lookup_ram :
    (∀ cells, (∀ a, page arm a ∈ (radix arm).tables bootTables.mem (1#64 <<< 30) →
        cells a = bootTables.mem a) →
      Agrees arm { bootTables with mem := cells } (1#64 <<< 30) (1#64 <<< 30 + 5) ∧
        AssertHolds arm { bootTables with mem := cells } (1#64 <<< 30) (1#64 <<< 30 + 5)) ↔
      ¬Sect arm bootTables.mem (1#64 <<< 30) (1#64 <<< 30 + 5) ∧
        (1#64 <<< 30 + 5).toNat < 2 ^ ulongBits arm :=
  lookup_iff bootMachine_good rfl
    bootCalls_disjoint bootTables_run (by decide) (by decide)
    fun hs => absurd hs (by unfold Sect; decide)

/-- An address of the I/O section : the lookup gives zero and writes a link to a new table
into the device, and the assertion of `__phys_to_virt` stops the identity address. -/
theorem lookup_io :
    GoodPages arm bootMachine ∧
      pgdAlloc arm bootMachine = (1#64 <<< 30, (pgdAlloc arm bootMachine).2) ∧
      MmuDisjoint arm bootCalls ∧
      mmuRun arm (1#64 <<< 30) bootCalls (pgdAlloc arm bootMachine).2 = some bootTables ∧
      bootTables.denied = false ∧
      hwWalk arm bootTables.mem (1#64 <<< 30) 0x9000000 = some 0x9000000 ∧
      ¬Agrees arm bootTables (1#64 <<< 30) 0x9000000 ∧
      physToVirt arm true (1#64 <<< 30) 0x9000000 bootTables = none := by
  have hwalk : hwWalk arm bootTables.mem (1#64 <<< 30) 0x9000000 = some 0x9000000 := by decide
  refine ⟨bootMachine_good, rfl, bootCalls_disjoint, bootTables_run, by decide, hwalk, ?_, rfl⟩
  intro hagrees
  have hlook := congrArg Prod.fst (hagrees _ hwalk)
  revert hlook
  decide

end ArmArch

end AcrnUt
