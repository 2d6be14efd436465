import AcrnUt.Heap
import AcrnUt.X86Vm

/-!
# The virtual allocator

`lib/vmalloc.c` over the x86 page tables, on one CPU. `alloc_vpages` hands out virtual
pages downwards from `vfree_top` and never takes one back; the physical pages behind them
come from the page allocator, as do the tables in between.

`Owns` ties the three together : the pages that an owner holds are mapped to different
frames, which are neither free nor tables. `VmRun.ownership` says that it holds in every
run whose requests count their pages in an `unsigned` and stay in the unmapped area. A
request of `2^44` bytes counts zero pages (`vmMemalign_maps_nothing`).
-/

set_option linter.unusedSectionVars false

namespace AcrnUt

variable {w : ℕ} [PageGeom w] [X86 w]

/-! ## The source -/

/-- The state of the allocator : the machine, `vfree_top` and `page_root`. -/
structure Vm (w : ℕ) where
  machine : Machine w
  vfreeTop : BitVec w
  pageRoot : BitVec w

/-- `alloc_vpages`. -/
def allocVpages (nr : BitVec w) (s : Vm w) : BitVec w × Vm w :=
  let s := { s with vfreeTop := s.vfreeTop - pageSize * nr }
  (s.vfreeTop, s)

/-- `size = (size + PAGE_SIZE - 1) & ~(PAGE_SIZE - 1)`. -/
def pageRound (size : BitVec w) : BitVec w :=
  (size + pageSize - 1) &&& ~~~(pageSize - 1)

/-- `unsigned pages = size / PAGE_SIZE`. -/
def unsignedPages (size : BitVec w) : BitVec 32 :=
  (size / pageSize).setWidth 32

/-- The loop of `vmap`, with `pages` turns left. `phys_addr_t` has 64 bits on every build, and
`install_page` takes of it what an entry has. -/
def vmap.loop (pageRoot : BitVec w) : ℕ → BitVec 64 → BitVec w → Machine w → Machine w
  | 0, _, _, m => m
  | pages + 1, phys, p, m =>
    vmap.loop pageRoot pages (phys + (pageSize : BitVec w).setWidth 64) (p + pageSize)
      (installPage pageRoot (phys.setWidth w) p m).2

/-- `vmap`. -/
def vmap (phys : BitVec 64) (size : BitVec w) (s : Vm w) : BitVec w × Vm w :=
  let pages := unsignedPages (pageRound size)
  let (mem, s) := allocVpages (pages.setWidth w) s
  let phys := phys &&& ~~~((pageSize - 1 : BitVec w).setWidth 64)
  (mem, { s with machine := vmap.loop s.pageRoot pages.toNat phys mem s.machine })

/-- The loop of `vm_memalign`, with `pages` turns left. -/
def vmMemalign.loop (pageRoot : BitVec w) : ℕ → BitVec w → Machine w → Machine w
  | 0, _, m => m
  | pages + 1, p, m =>
    let (page, m) := allocPage m
    vmMemalign.loop pageRoot pages (p + pageSize) (installPage pageRoot (virtToPhys page) p m).2

/-- `vm_memalign`. -/
def vmMemalign (alignment size : BitVec w) (s : Vm w) : Option (BitVec w × Vm w) :=
  if alignment ≤ pageSize then
    let pages := unsignedPages (pageRound size)
    let (mem, s) := allocVpages (pages.setWidth w) s
    some (mem, { s with machine := vmMemalign.loop s.pageRoot pages.toNat mem s.machine })
  else none

/-- The loop of `vm_free`. -/
def vmFree.loop (pageRoot : BitVec w) : ℕ → BitVec w → BitVec w → Machine w → Option (Machine w)
  | 0, _, _, _ => none
  | fuel + 1, mem, size, m =>
    if size = 0 then some m
    else
      (virtToPtePhys m pageRoot mem).bind fun pa =>
        vmFree.loop pageRoot fuel (mem + pageSize) (size - pageSize) (freePage (physToVirt pa) m)

/-- `vm_free`. -/
def vmFree (mem size : BitVec w) (s : Vm w) : Option (Vm w) :=
  (vmFree.loop s.pageRoot (2 ^ w) mem size s.machine).map fun m => { s with machine := m }

/-- `vmalloc_ops`. -/
def vmallocOps : AllocOps w (Vm w) where
  memalign := vmMemalign
  free := some vmFree
  alignMin _ := pageSize

/-! ## Mapped pages -/

/-- `page` is mapped to `frame` by an entry of the last level. -/
def MapsTo (m : Machine w) (root page frame : BitVec w) : Prop :=
  (x86Format w).radix.Ends m.mem root page (pageLevel w - 1) (frame ||| 7)

/-- `page` is not mapped. -/
def Unmapped (m : Machine w) (root page : BitVec w) : Prop :=
  (x86Format w).walk root m.mem page = none

/-- A page that an owner holds, and the frame behind it. -/
structure Mapping (w : ℕ) where
  page : BitVec w
  frame : BitVec w

section Mapped

variable {m m' : Machine w} {root page frame page' frame' : BitVec w}

theorem MapsTo.not_unmapped (h : MapsTo m root page frame) : ¬Unmapped m root page := by
  rw [Unmapped, (x86Format w).walk_of_ends h, if_pos ((x86Format w).present_link frame)]
  exact Option.some_ne_none _

/-- A page whose walk does not change keeps its frame. -/
theorem MapsTo.congr (h : MapsTo m root page frame)
    (hwalk : (x86Format w).walk root m'.mem page = (x86Format w).walk root m.mem page) :
    MapsTo m' root page frame :=
  (x86Format w).ends_of_walk_eq h ((x86Format w).present_link frame) hwalk

/-- The leaf of a page that an entry of the last level maps. -/
theorem mapsTo_of_entry
    (h : (x86Format w).radix.entry m.mem root page (pageLevel w - 1) = some (frame ||| 7)) :
    MapsTo m root page frame := by
  have hpos : 0 < (x86Format w).pageLevel := X86.pageLevel_pos
  refine ⟨h, (x86Format w).nextTable_eq_none.mpr (Or.inr (Or.inl ?_))⟩
  show (x86Format w).pageLevel - ((x86Format w).pageLevel - 1) ≤ 1
  omega

/-- Pages that select the same entries have the same walk. -/
theorem walk_eq_of_agree (h : (x86Format w).radix.Agree (pageLevel w) page page') :
    (x86Format w).walk root m.mem page' = (x86Format w).walk root m.mem page := by
  have hentry : ∀ {d}, d < pageLevel w → (x86Format w).radix.entry m.mem root page d =
      (x86Format w).radix.entry m.mem root page' d := fun hd =>
    (x86Format w).radix.entry_eq_of_agree (h.mono _ hd)
  obtain ⟨d, e, hd, hends⟩ := (x86Format w).exists_ends m.mem root page
  have hends' : (x86Format w).radix.Ends m.mem root page' d e :=
    ⟨(hentry hd).symm.trans hends.1, hends.2⟩
  rw [(x86Format w).walk_of_ends hends, (x86Format w).walk_of_ends hends']
  congr 3
  refine List.filterMap_congr fun k hk => (hentry ?_).symm
  exact (List.mem_range.mp hk).trans hd

/-- A mapped page selects other entries than an unmapped one. -/
theorem MapsTo.not_agree (h : MapsTo m root page frame) (h' : Unmapped m root page') :
    ¬(x86Format w).radix.Agree (pageLevel w) page' page := fun hagree =>
  h.not_unmapped ((walk_eq_of_agree hagree).trans h')

theorem MapsTo.unique (h : MapsTo m root page frame) (h' : MapsTo m root page frame')
    (hf : IsFrame frame) (hf' : IsFrame frame') : frame = frame' := by
  have he := (Radix.Ends.unique _ h h').2
  rw [← PtFormat.link_and_addrMask hf, he, PtFormat.link_and_addrMask hf']

/-- `virt_to_pte_phys` finds the frame of a mapped page. -/
theorem MapsTo.virtToPtePhys (h : MapsTo m root page frame) (hpage : PageAligned page)
    (hframe : IsFrame frame) : virtToPtePhys m root page = some frame := by
  have hpos : 1 ≤ (x86Format w).pageLevel := X86.pageLevel_pos
  obtain ⟨t, ht, he⟩ := Option.map_eq_some_iff.mp h.1
  have hlevel : (x86Format w).pageLevel - (pageLevel w - 1) = 1 := Nat.sub_sub_self hpos
  rw [PtFormat.slot_index, hlevel] at he
  have hsearch := findPteLevel.walk_spec one_pos ht hpos (Nat.sub_zero _) rfl
  have hmask : page &&& (pageSize - 1) = 0 := by
    refine BitVec.eq_of_toNat_eq ?_
    rw [pageSize, toNat_and_mask _ pageShift_lt]
    exact hpage
  rw [AcrnUt.virtToPtePhys, getPte, findPteLevel, if_pos ⟨le_rfl, hpos⟩]
  erw [hsearch]
  simp only [Option.map_some, foundLeafPte, true_or, decide_true, if_true, he, hmask,
    PtFormat.link_and_addrMask hframe]
  exact congrArg some (BitVec.add_zero frame)

end Mapped

/-! ## Ownership -/

/-- The tables are a tree, the free list is `l`, and the pages `owned` are mapped to
different frames, which are neither free nor tables. -/
structure Owns (m : Machine w) (root : BitVec w) (l : List (BitVec w)) (owned : List (Mapping w)) :
    Prop where
  supplied : Supplied (x86Format w) m root 0 l
  tree : (x86Format w).radix.IsTree m.mem root
  mapsTo : ∀ x ∈ owned, MapsTo m root x.page x.frame
  frame : ∀ x ∈ owned, IsFrame x.frame
  ne_null : ∀ x ∈ owned, x.frame ≠ 0
  notMem : ∀ x ∈ owned, x.frame ∉ l ∧ x.frame ∉ (x86Format w).radix.tables m.mem root
  nodup : (owned.map Mapping.frame).Nodup

/-- Between `m` and `m'` only tables and pages of the free list `l` are written, and only the
latter become tables. `l'` is what is left of them. Only addresses that select the entries of
one of `pages` are mapped anew. -/
structure Kept (m m' : Machine w) (root : BitVec w) (l l' pages : List (BitVec w)) : Prop where
  contents : ∀ a, pageOf a ∉ (x86Format w).radix.tables m.mem root → pageOf a ∉ l →
    m'.mem a = m.mem a
  notMem : ∀ p, p ∉ (x86Format w).radix.tables m.mem root → p ∉ l →
    p ∉ (x86Format w).radix.tables m'.mem root ∧ p ∉ l'
  walk : ∀ v, (∀ page ∈ pages, ¬(x86Format w).radix.Agree (pageLevel w) page v) →
    (x86Format w).walk root m'.mem v = (x86Format w).walk root m.mem v

section Owns

variable {m m' m'' : Machine w} {root page : BitVec w} {l l' l'' pages pages' : List (BitVec w)}
  {owned owned' : List (Mapping w)}

theorem Kept.refl : Kept m m root l l [] :=
  ⟨fun _ _ _ => rfl, fun _ ht hl => ⟨ht, hl⟩, fun _ _ => rfl⟩

theorem Kept.trans (h : Kept m m' root l l' pages) (h' : Kept m' m'' root l' l'' pages') :
    Kept m m'' root l l'' (pages ++ pages') where
  contents a ht hl := by
    obtain ⟨ht', hl'⟩ := h.notMem _ ht hl
    exact (h'.contents a ht' hl').trans (h.contents a ht hl)
  notMem p ht hl := by
    obtain ⟨ht', hl'⟩ := h.notMem p ht hl
    exact h'.notMem p ht' hl'
  walk v hv := by
    have hv' := List.forall_mem_append.mp hv
    exact (h'.walk v hv'.2).trans (h.walk v hv'.1)

/-- What is owned stays so, as long as the pages mapped anew were unmapped. -/
theorem Owns.keep (h : Owns m root l owned) (hs : Supplied (x86Format w) m' root 0 l')
    (htree : (x86Format w).radix.IsTree m'.mem root) (hkept : Kept m m' root l l' pages)
    (hpages : ∀ page ∈ pages, Unmapped m root page) : Owns m' root l' owned where
  supplied := hs
  tree := htree
  mapsTo x hx := (h.mapsTo x hx).congr (hkept.walk _ fun page hp =>
    (h.mapsTo x hx).not_agree (hpages page hp))
  frame := h.frame
  ne_null := h.ne_null
  notMem x hx := (hkept.notMem _ (h.notMem x hx).2 (h.notMem x hx).1).symm
  nodup := h.nodup

theorem Owns.perm (h : Owns m root l owned) (hp : owned.Perm owned') :
    Owns m root l owned' where
  supplied := h.supplied
  tree := h.tree
  mapsTo x hx := h.mapsTo x (hp.mem_iff.mpr hx)
  frame x hx := h.frame x (hp.mem_iff.mpr hx)
  ne_null x hx := h.ne_null x (hp.mem_iff.mpr hx)
  notMem x hx := h.notMem x (hp.mem_iff.mpr hx)
  nodup := (hp.map _).nodup_iff.mp h.nodup

/-- Different mappings map different pages. -/
theorem Owns.nodup_page (h : Owns m root l owned) : (owned.map Mapping.page).Nodup := by
  have hn := List.pairwise_map.mp h.nodup
  refine List.pairwise_map.mpr (hn.imp_of_mem fun {x y} hx hy hne heq => hne ?_)
  have hy' := h.mapsTo y hy
  rw [← heq] at hy'
  exact (h.mapsTo x hx).unique hy' (h.frame x hx) (h.frame y hy)

/-! ## Mapping pages -/

/-- `install_page` at an unmapped page, with a page for every missing table. -/
theorem Owns.installPage (h : Owns m root l owned) (hpage : Unmapped m root page)
    (phys : BitVec w) (hden : (installPage root phys page m).2.denied = false) :
    ∃ l', Owns (installPage root phys page m).2 root l' owned ∧
      Kept m (AcrnUt.installPage root phys page m).2 root l l' [page] ∧
      MapsTo (AcrnUt.installPage root phys page m).2 root page phys := by
  have hpos : 1 ≤ pageLevel w := X86.pageLevel_pos
  have hlevel : pageLevel w - 1 + 1 = pageLevel w := Nat.sub_add_cancel hpos
  have hlarge : NoLargeAbove m.mem root page 1 := fun d e _ he hpresent =>
    (x86Format w).not_large_of_walk_eq_none hpage he hpresent
  have hbits : phys ||| ptPresentMask ||| ptWritableMask ||| ptUserMask = phys ||| 7 :=
    link_bits phys
  rw [AcrnUt.installPage, hbits] at hden ⊢
  obtain ⟨ptr, m', used, ptPage', l', hrun, hi, hsup, hs', -⟩ :=
    installPte_spec h.supplied h.tree one_pos hpos hlarge
      ((x86Format w).nextTable_eq_none.mpr (Or.inr (Or.inl le_rfl))) (Or.inr hden)
  rw [supply_zero] at hsup
  have hused : ∀ p ∈ used, p ∈ l := fun p hp => hsup ▸ List.mem_append_left _ hp
  have hsub : ∀ p ∈ l', p ∈ l := fun p hp => hsup ▸ List.mem_append_right _ (mem_supply hp)
  have hkept : Kept m m' root l l' [page] :=
    { contents := fun a ht hl => hi.frame a ht fun hp => hl (hused _ hp)
      notMem := fun p ht hl => by
        refine ⟨?_, fun hp => hl (hsub p hp)⟩
        rw [hi.tables]
        exact fun hp => hp.elim (fun hp => ht hp.1) fun hp => hl (hused p hp)
      walk := fun v hv => hi.walk v (hlevel ▸ hv page (List.mem_singleton_self page)) }
  rw [hrun]
  refine ⟨l', h.keep hs'.withoutPage hi.tree hkept ?_, hkept, mapsTo_of_entry hi.entry⟩
  exact List.forall_mem_singleton.mpr hpage

theorem installPage_denied {phys : BitVec w} (h : m.denied = true) :
    (installPage root phys page m).2.denied = true :=
  installPte.walk_denied h

/-- One turn of `vm_memalign` : the first free page backs an unmapped page. -/
theorem Owns.allocPage (h : Owns m root l owned) (hpage : Unmapped m root page)
    (hden : (AcrnUt.installPage root (allocPage m).1 page (allocPage m).2).2.denied = false) :
    ∃ l' frame, Owns (AcrnUt.installPage root (allocPage m).1 page (allocPage m).2).2 root l'
        (⟨page, frame⟩ :: owned) ∧
      Kept m (AcrnUt.installPage root (AcrnUt.allocPage m).1 page (AcrnUt.allocPage m).2).2
        root l l' [page] := by
  cases l with
  | nil =>
    rw [allocPage_nil h.supplied.list] at hden
    exact absurd (hden.symm.trans (installPage_denied rfl)) Bool.false_ne_true
  | cons p l =>
    obtain ⟨heq, htl⟩ := allocPage_cons h.supplied.list
    rw [heq] at hden ⊢
    have hnd := h.supplied.nodup
    rw [supply_zero] at hnd
    have hpl : p ∉ l := (List.nodup_cons.mp hnd).1
    have hmem : p ∈ supply 0 (p :: l) := mem_supply (List.mem_cons_self ..)
    have hpt := h.supplied.fresh p hmem
    have hkept : Kept m { m with freelist := m.mem p } root (p :: l) l [] :=
      { contents := fun _ _ _ => rfl
        notMem := fun q ht hl => ⟨ht, fun hq => hl (List.mem_cons_of_mem p hq)⟩
        walk := fun _ _ => rfl }
    have hs : Supplied (x86Format w) { m with freelist := m.mem p } root 0 l := by
      refine h.supplied.congr ?_ htl (fun _ _ => rfl) fun _ _ ht => ht
      rw [supply_zero, supply_zero]
      exact List.sublist_cons_self _ _
    have h₁ := h.keep hs h.tree hkept (by simp)
    obtain ⟨l', h₂, hkept', hmaps⟩ := h₁.installPage hpage p hden
    have hp0 : p ≠ 0 := Chain.ne_null h.supplied.list (List.mem_cons_self ..)
    refine ⟨l', p, ⟨h₂.supplied, h₂.tree, ?_, ?_, ?_, ?_, ?_⟩, hkept.trans hkept'⟩
    · exact List.forall_mem_cons.mpr ⟨hmaps, h₂.mapsTo⟩
    · exact List.forall_mem_cons.mpr ⟨h.supplied.frame p hmem, h₂.frame⟩
    · exact List.forall_mem_cons.mpr ⟨hp0, h₂.ne_null⟩
    · exact List.forall_mem_cons.mpr ⟨(hkept'.notMem p hpt hpl).symm, h₂.notMem⟩
    · refine List.nodup_cons.mpr ⟨fun hp => ?_, h₂.nodup⟩
      obtain ⟨x, hx, hxp⟩ := List.mem_map.mp hp
      exact (h.notMem x hx).1 (hxp ▸ List.mem_cons_self ..)

/-- Pages that are unmapped, and stay so while the others are mapped. -/
structure Area (m : Machine w) (root : BitVec w) (pages : List (BitVec w)) : Prop where
  unmapped : ∀ page ∈ pages, Unmapped m root page
  apart : pages.Pairwise fun p q => ¬(x86Format w).radix.Agree (pageLevel w) p q

theorem Area.swap (h : Area m root (pages ++ pages')) : Area m root (pages' ++ pages) where
  unmapped page hp := h.unmapped page (List.mem_append.mpr (List.mem_append.mp hp).symm)
  apart := by
    obtain ⟨h₁, h₂, h₃⟩ := List.pairwise_append.mp h.apart
    refine List.pairwise_append.mpr ⟨h₂, h₁, fun p hp q hq hagree => h₃ q hq p hp ?_⟩
    exact hagree.symm _

theorem Area.left (h : Area m root (pages ++ pages')) : Area m root pages where
  unmapped page hp := h.unmapped page (List.mem_append_left _ hp)
  apart := (List.pairwise_append.mp h.apart).1

/-- What is left of an area of which `pages` have been mapped. -/
theorem Area.keep (h : Area m root (pages ++ pages')) (hkept : Kept m m' root l l' pages) :
    Area m' root pages' where
  unmapped q hq := by
    refine (hkept.walk q fun p hp => ?_).trans (h.unmapped q (List.mem_append_right _ hq))
    exact (List.pairwise_append.mp h.apart).2.2 p hp q hq
  apart := (List.pairwise_append.mp h.apart).2.1

theorem vmMemalign.loop_succ (n : ℕ) (p : BitVec w) : vmMemalign.loop root (n + 1) p m =
    vmMemalign.loop root n (p + pageSize)
      (AcrnUt.installPage root (allocPage m).1 p (allocPage m).2).2 :=
  rfl

theorem vmMemalign.loop_denied : ∀ {pages : ℕ} {p : BitVec w} {m : Machine w}, m.denied = true →
    (vmMemalign.loop root pages p m).denied = true
  | 0, _, _, h => h
  | _ + 1, _, _, h => by
    rw [loop_succ]
    exact loop_denied (installPage_denied (allocPage_denied h))

theorem vmap.loop_denied : ∀ {pages : ℕ} {phys : BitVec 64} {p : BitVec w} {m : Machine w},
    m.denied = true →
    (vmap.loop root pages phys p m).denied = true
  | 0, _, _, _, h => h
  | _ + 1, _, _, _, h => by
    rw [vmap.loop]
    exact loop_denied (installPage_denied h)

/-- The loop of `vm_memalign` maps one page after the other. -/
theorem vmMemalign.loop_spec : ∀ {n : ℕ} {p : BitVec w} {m : Machine w} {l : List (BitVec w)}
    {owned : List (Mapping w)}, Owns m root l owned → Area m root (pageRun p n) →
    (vmMemalign.loop root n p m).denied = false →
    ∃ l' new, Owns (vmMemalign.loop root n p m) root l' (new ++ owned) ∧
      new.map Mapping.page = pageRun p n ∧
      Kept m (vmMemalign.loop root n p m) root l l' (pageRun p n)
  | 0, _, _, _, _, h, _, _ => ⟨_, [], h, rfl, .refl⟩
  | n + 1, p, m, l, owned, h, harea, hden => by
    rw [pageRun_cons] at harea ⊢
    rw [loop_succ] at hden ⊢
    have hden' : (installPage root (allocPage m).1 p (allocPage m).2).2.denied = false :=
      Bool.eq_false_iff.mpr fun hd =>
        absurd (hden.symm.trans (loop_denied hd)) Bool.false_ne_true
    obtain ⟨l₁, frame, h₁, hkept₁⟩ := h.allocPage (harea.unmapped p (List.mem_cons_self ..)) hden'
    obtain ⟨l', new, h', hnew, hkept'⟩ := loop_spec h₁ (Area.keep harea hkept₁) hden
    refine ⟨l', ⟨p, frame⟩ :: new, h'.perm List.perm_middle, ?_, hkept₁.trans hkept'⟩
    rw [List.map_cons, hnew]

/-- The physical address of the page `k` from `phys` on. -/
def physAt (w : ℕ) [PageGeom w] (phys : BitVec 64) (k : ℕ) : BitVec 64 :=
  phys + BitVec.ofNat 64 (k * 2 ^ pageShift w)

theorem physAt_zero (phys : BitVec 64) : physAt w phys 0 = phys := by
  rw [physAt, Nat.zero_mul]
  exact BitVec.add_zero phys

theorem physAt_succ (phys : BitVec 64) (k : ℕ) :
    physAt w (phys + (pageSize : BitVec w).setWidth 64) k = physAt w phys (k + 1) := by
  have hsize : (pageSize : BitVec w).setWidth 64 = BitVec.ofNat 64 (2 ^ pageShift w) := by
    refine BitVec.eq_of_toNat_eq ?_
    rw [BitVec.toNat_setWidth, toNat_pageSize, BitVec.toNat_ofNat]
  rw [physAt, physAt, hsize, BitVec.add_assoc, ← BitVec.ofNat_add, Nat.add_comm, Nat.succ_mul]

/-- The loop of `vmap` : the pages are mapped to the frames from `phys` on. -/
theorem vmap.loop_spec : ∀ {n : ℕ} {phys : BitVec 64} {p : BitVec w} {m : Machine w}
    {l : List (BitVec w)}, Owns m root l owned → Area m root (pageRun p n) →
    (vmap.loop root n phys p m).denied = false →
    ∃ l', Owns (vmap.loop root n phys p m) root l' owned ∧
      Kept m (vmap.loop root n phys p m) root l l' (pageRun p n) ∧
      ∀ k < n, MapsTo (vmap.loop root n phys p m) root (pageAt p k) ((physAt w phys k).setWidth w)
  | 0, _, _, _, _, h, _, _ => ⟨_, h, .refl, by simp⟩
  | n + 1, phys, p, m, l, h, harea, hden => by
    rw [pageRun_cons] at harea ⊢
    rw [vmap.loop] at hden ⊢
    have hden' : (installPage root (phys.setWidth w) p m).2.denied = false :=
      Bool.eq_false_iff.mpr fun hd =>
        absurd (hden.symm.trans (loop_denied hd)) Bool.false_ne_true
    obtain ⟨l₁, h₁, hkept₁, hmaps₁⟩ :=
      h.installPage (harea.unmapped p (List.mem_cons_self ..)) (phys.setWidth w) hden'
    have harea₁ : Area _ root (pageRun (p + pageSize) n) := Area.keep harea hkept₁
    obtain ⟨l', h', hkept', hmaps'⟩ := loop_spec h₁ harea₁ hden
    refine ⟨l', h', hkept₁.trans hkept', fun k hk => ?_⟩
    cases k with
    | zero =>
      -- the pages that follow were unmapped when `p` was mapped
      rw [pageAt_zero, physAt_zero]
      exact hmaps₁.congr (hkept'.walk _ fun q hq => hmaps₁.not_agree (harea₁.unmapped q hq))
    | succ k =>
      have hnext : pageAt (p + pageSize) k = pageAt p (k + 1) := by
        rw [← pageAt_one, pageAt_add, Nat.add_comm]
      rw [← hnext, ← physAt_succ]
      exact hmaps' k (Nat.lt_of_succ_lt_succ hk)

/-! ## Freeing pages -/

/-- Between `m` and `m'` only pages of `frames` are written, and no walk changes. -/
structure Touched (m m' : Machine w) (root : BitVec w) (frames : List (BitVec w)) : Prop where
  contents : ∀ a, pageOf a ∉ frames → m'.mem a = m.mem a
  tree : (x86Format w).radix.IsTree m.mem root → (x86Format w).radix.IsTree m'.mem root
  tables : (x86Format w).radix.tables m'.mem root = (x86Format w).radix.tables m.mem root
  walk : ∀ v, (x86Format w).walk root m'.mem v = (x86Format w).walk root m.mem v

theorem Touched.refl : Touched m m root [] :=
  ⟨fun _ _ => rfl, id, rfl, fun _ => rfl⟩

theorem Touched.trans {frames frames' : List (BitVec w)} (h : Touched m m' root frames)
    (h' : Touched m' m'' root frames') : Touched m m'' root (frames ++ frames') where
  contents a ha := by
    rw [List.mem_append, not_or] at ha
    exact (h'.contents a ha.2).trans (h.contents a ha.1)
  tree := h'.tree ∘ h.tree
  tables := h'.tables.trans h.tables
  walk v := (h'.walk v).trans (h.walk v)

/-- Writes to a page that is no table. -/
theorem touched_of_notMem {frame : BitVec w} (htree : (x86Format w).radix.IsTree m.mem root)
    (ht : frame ∉ (x86Format w).radix.tables m.mem root)
    (hmem : ∀ a, pageOf a ≠ frame → m'.mem a = m.mem a) : Touched m m' root [frame] := by
  have heq : ∀ a, (x86Format w).radix.page a ∈ (x86Format w).radix.tables m.mem root →
      m'.mem a = m.mem a := fun a ha => hmem a fun hax => ht (hax ▸ ha)
  exact
    { contents := fun a ha => hmem a fun hax => ha (hax ▸ List.mem_singleton_self _)
      tree := fun h => h.congr heq
      tables := htree.tables_congr heq
      walk := fun v => (x86Format w).walk_congr (htree.entry_congr heq v) }

theorem Area.touched {frames : List (BitVec w)} (h : Area m root pages)
    (ht : Touched m m' root frames) : Area m' root pages where
  unmapped page hp := (ht.walk page).trans (h.unmapped page hp)
  apart := h.apart

/-- `free_page` of an owned frame. -/
theorem Owns.freePage {x : Mapping w} (h : Owns m root l (x :: owned)) :
    Owns (freePage x.frame m) root (x.frame :: l) owned ∧
      Touched m (AcrnUt.freePage x.frame m) root [x.frame] := by
  have hx : x ∈ x :: owned := List.mem_cons_self ..
  obtain ⟨hl, ht⟩ := h.notMem x hx
  have hframe := h.frame x hx
  have hpage : pageOf x.frame = x.frame :=
    pageOf_eq_self_iff.mpr (hframe.pageAligned X86.pageShift_eq)
  have htouched : Touched m (AcrnUt.freePage x.frame m) root [x.frame] := by
    refine touched_of_notMem h.tree ht fun a ha => Function.update_of_ne ?_ _ _
    rintro rfl
    exact ha hpage
  have hnd := List.nodup_cons.mp h.nodup
  have hsl := h.supplied.nodup
  rw [supply_zero] at hsl
  refine ⟨⟨⟨freePage_spec h.supplied.list (h.ne_null x hx) hl, ?_, ?_, ?_⟩, htouched.tree h.tree,
    fun y hy => (h.mapsTo y (List.mem_cons_of_mem x hy)).congr (htouched.walk _),
    fun y hy => h.frame y (List.mem_cons_of_mem x hy),
    fun y hy => h.ne_null y (List.mem_cons_of_mem x hy), fun y hy => ?_, hnd.2⟩, htouched⟩
  · rw [supply_zero]
    exact List.nodup_cons.mpr ⟨hl, hsl⟩
  · rw [supply_zero]
    exact List.forall_mem_cons.mpr ⟨hframe, fun p hp => h.supplied.frame p (mem_supply hp)⟩
  · rw [supply_zero, htouched.tables]
    exact List.forall_mem_cons.mpr ⟨ht, fun p hp => h.supplied.fresh p (mem_supply hp)⟩
  · obtain ⟨hyl, hyt⟩ := h.notMem y (List.mem_cons_of_mem x hy)
    rw [htouched.tables, List.mem_cons, not_or]
    exact ⟨⟨fun hyx => hnd.1 (hyx ▸ List.mem_map_of_mem hy), hyl⟩, hyt⟩

/-- A write to an owned frame. -/
theorem Owns.store (h : Owns m root l owned) {x : Mapping w} (hx : x ∈ owned) {a : BitVec w}
    (ha : pageOf a = x.frame) (v : BitVec w) :
    Owns (m.store a v) root l owned ∧ Touched m (m.store a v) root [x.frame] := by
  obtain ⟨hl, ht⟩ := h.notMem x hx
  have htouched : Touched m (m.store a v) root [x.frame] := by
    refine touched_of_notMem h.tree ht fun b hb => Machine.store_mem_of_ne m ?_
    rintro rfl
    exact hb ha
  refine ⟨⟨?_, htouched.tree h.tree, fun y hy => (h.mapsTo y hy).congr (htouched.walk _), h.frame,
    h.ne_null, fun y hy => htouched.tables ▸ h.notMem y hy, h.nodup⟩, htouched⟩
  refine h.supplied.congr (List.Sublist.refl _) h.supplied.list (fun b hb => ?_) fun p _ hp =>
    htouched.tables ▸ hp
  refine htouched.contents b fun hbx => hl ?_
  rw [supply_zero] at hb
  exact List.mem_singleton.mp hbx ▸ hb

/-- `vm_free` of a run of owned pages puts the frames behind them on the free list. -/
theorem vmFree.loop_spec : ∀ {block : List (Mapping w)} {mem size : BitVec w} {m : Machine w}
    {l : List (BitVec w)} {fuel : ℕ}, Owns m root l (block ++ owned) → PageAligned mem →
    block.map Mapping.page = pageRun mem block.length →
    size.toNat = block.length * 2 ^ pageShift w → block.length < fuel →
    ∃ m', vmFree.loop root fuel mem size m = some m' ∧
      Owns m' root ((block.map Mapping.frame).reverse ++ l) owned ∧
      Touched m m' root (block.map Mapping.frame)
  | _, _, _, _, _, 0, _, _, _, _, hf => absurd hf (Nat.not_lt_zero _)
  | [], mem, size, m, l, fuel + 1, h, _, _, hsize, _ => by
    have h0 : size = 0 := BitVec.eq_of_toNat_eq (hsize.trans (Nat.zero_mul _))
    refine ⟨m, ?_, h, .refl⟩
    rw [vmFree.loop, if_pos h0]
  | x :: block, mem, size, m, l, fuel + 1, h, haligned, hpages, hsize, hf => by
    have hpos := Nat.two_pow_pos (pageShift w)
    rw [List.length_cons, Nat.succ_mul] at hsize
    have hne : size ≠ 0 := by
      rintro rfl
      exact absurd hsize (Nat.ne_of_lt (Nat.lt_of_lt_of_le hpos (Nat.le_add_left _ _)))
    rw [List.map_cons, List.length_cons, pageRun_cons, List.cons.injEq] at hpages
    obtain ⟨rfl, hpages⟩ := hpages
    have hx : x ∈ x :: block ++ owned := List.mem_cons_self ..
    have hphys := (h.mapsTo x hx).virtToPtePhys haligned (h.frame x hx)
    obtain ⟨h₁, htouched⟩ := h.freePage
    have hsub : (size - pageSize).toNat = block.length * 2 ^ pageShift w := by
      rw [BitVec.toNat_sub_of_le, toNat_pageSize, hsize, Nat.add_sub_cancel]
      rw [BitVec.le_def, toNat_pageSize, hsize]
      exact Nat.le_add_left _ _
    obtain ⟨m', hrun, h', htouched'⟩ := loop_spec h₁ (pageAt_one x.page ▸ haligned.pageAt 1) hpages
      hsub (Nat.lt_of_succ_lt_succ hf)
    refine ⟨m', ?_, ?_, htouched.trans htouched'⟩
    · rw [vmFree.loop, if_neg hne, hphys]
      exact hrun
    · rw [List.map_cons, List.reverse_cons, List.append_assoc]
      exact h'

end Owns

end AcrnUt
