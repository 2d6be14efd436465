import Mathlib.Data.BitVec
import AcrnUt.Vmalloc

/-!
# Runs of the virtual allocator

A run starts from an area of unmapped pages below `vfree_top`, and goes on with requests
that fit it (`VmRun.Fits`), frees of live allocations, and writes of their owners. The
live allocations and the pages left in the area are recorded beside the allocator.

`VmRun.Inv` is kept by every step, and `VmRun.ownership` reads off it what owners rely on.
-/

set_option linter.unusedSectionVars false

namespace AcrnUt

variable {w : ℕ} [PageGeom w] [X86 w]

/-! ## The area -/

/-- Pages less than the span of the tables apart select different entries. -/
theorem PtFormat.not_agree_pageAt (F : PtFormat w) {start : BitVec w} (h : PageAligned start)
    {i j : ℕ} (hij : i < j) (hj : j * 2 ^ pageShift w < 2 ^ F.vaBits) :
    ¬F.radix.Agree F.pageLevel (pageAt start i) (pageAt start j) := by
  intro hagree
  have hbit : ∀ k < F.vaBits, (pageAt start i).getLsbD k = (pageAt start j).getLsbD k := by
    intro k hk
    rcases Nat.lt_or_ge k 12 with h12 | h12
    · have hlow : ∀ n, (pageAt start n).getLsbD k = false := fun n =>
        toNat_mod_two_pow_eq_zero_iff.mp (h.pageAt n) k (F.pageShift_eq ▸ h12)
      rw [hlow, hlow]
    · refine F.getLsbD_of_agree le_rfl hagree ?_ hk
      rwa [Nat.sub_self, Nat.zero_mul, Nat.zero_add]
  have hmod : (pageAt start i).toNat % 2 ^ F.vaBits = (pageAt start j).toNat % 2 ^ F.vaBits := by
    refine Nat.eq_of_testBit_eq fun k => ?_
    rw [Nat.testBit_mod_two_pow, Nat.testBit_mod_two_pow]
    by_cases hk : k < F.vaBits
    · exact congrArg _ (hbit k hk)
    · simp [hk]
  have hdvd : 2 ^ F.vaBits ∣ 2 ^ w := Nat.pow_dvd_pow 2 F.fits
  have hat : ∀ n, (pageAt start n).toNat % 2 ^ F.vaBits =
      (start.toNat + n * 2 ^ pageShift w) % 2 ^ F.vaBits := fun n => by
    rw [pageAt, BitVec.toNat_add, BitVec.toNat_ofNat, Nat.add_mod_mod, Nat.mod_mod_of_dvd _ hdvd]
  rw [hat, hat] at hmod
  have hzero := Nat.sub_mod_eq_zero_of_mod_eq hmod.symm
  have hpos := Nat.two_pow_pos (pageShift w)
  have hlt := Nat.mul_lt_mul_of_pos_right hij hpos
  rw [Nat.mod_eq_of_lt (by omega)] at hzero
  omega

theorem area_pageRun {m : Machine w} {root floor : BitVec w} {n : ℕ} (h : PageAligned floor)
    (hn : n * 2 ^ pageShift w ≤ 2 ^ (x86Format w).vaBits)
    (hun : ∀ p ∈ pageRun floor n, Unmapped m root p) : Area m root (pageRun floor n) where
  unmapped := hun
  apart := by
    refine List.pairwise_map.mpr (List.pairwise_lt_range.imp_of_mem fun {i j} _ hj hij => ?_)
    refine (x86Format w).not_agree_pageAt h hij (lt_of_lt_of_le ?_ hn)
    exact Nat.mul_lt_mul_of_pos_right (List.mem_range.mp hj) (Nat.two_pow_pos _)

/-! ## The pages of a request -/

theorem pageRound_eq (size : BitVec w) : pageRound size = align size pageSize := by
  have h : size + pageSize - 1 = size + (pageSize - 1) := by
    rw [BitVec.sub_eq_add_neg, BitVec.sub_eq_add_neg, BitVec.add_assoc]
  rw [pageRound, align, h]

theorem pageRound_mod (size : BitVec w) : pageRound size % pageSize = 0 := by
  rw [pageAligned_iff, PageAligned, pageRound_eq]
  exact align_mod size pageShift_lt

theorem toNat_unsignedPages {size : BitVec w} (h : pageCount size < 2 ^ 32) :
    (unsignedPages size).toNat = pageCount size := by
  rw [unsignedPages, BitVec.toNat_setWidth, BitVec.toNat_udiv, toNat_pageSize]
  exact Nat.mod_eq_of_lt h

theorem pageSize_mul (n : ℕ) :
    (pageSize : BitVec w) * BitVec.ofNat w n = BitVec.ofNat w (n * 2 ^ pageShift w) := by
  rw [← ofNat_pageSize, ← BitVec.ofNat_mul, Nat.mul_comm]

/-- `alloc_vpages` takes the last pages of the area. -/
theorem pageAt_sub {floor : BitVec w} {room n : ℕ} (h : n ≤ room) :
    pageAt floor room - pageSize * BitVec.ofNat w n = pageAt floor (room - n) := by
  rw [pageSize_mul, BitVec.sub_eq_iff_eq_add]
  have := pageAt_add floor (room - n) n
  rw [Nat.sub_add_cancel h] at this
  exact this.symm

/-! ## Runs -/

/-- An allocation : what `vm_memalign` returned, and the rounded size. -/
structure VmBlock (w : ℕ) where
  mem : BitVec w
  size : BitVec w

/-- The virtual pages of an allocation. -/
def VmBlock.pages (b : VmBlock w) : List (BitVec w) :=
  pageRun b.mem (pageCount b.size)

/-- The allocator, the live allocations, and how many pages are left in the area. -/
structure VmRun (w : ℕ) where
  vm : Vm w
  live : List (VmBlock w)
  room : ℕ

namespace VmRun

/-- The virtual pages of the live allocations. -/
def pages (s : VmRun w) : List (BitVec w) :=
  s.live.flatMap VmBlock.pages

/-- The request rounds up without a wrap, its pages fit an `unsigned`, and they fit the area. -/
def Fits (s : VmRun w) (size : BitVec w) : Prop :=
  size.toNat + (2 ^ pageShift w - 1) < 2 ^ w ∧ pageCount (pageRound size) < 2 ^ 32 ∧
    pageCount (pageRound size) ≤ s.room

/-- What can happen : a request that fits, for which `alloc_page` does not fail, a free of a
live allocation, and a write to one. -/
inductive Step (s : VmRun w) : VmRun w → Prop
  | memalign {alignment size mem : BitVec w} {vm : Vm w} : alignment ≤ pageSize → s.Fits size →
      vmMemalign alignment size s.vm = some (mem, vm) → vm.machine.denied = false →
      Step s ⟨vm, ⟨mem, pageRound size⟩ :: s.live, s.room - pageCount (pageRound size)⟩
  | vmap {phys : BitVec 64} {size mem : BitVec w} {vm : Vm w} : s.Fits size →
      AcrnUt.vmap phys size s.vm = (mem, vm) → vm.machine.denied = false →
      Step s ⟨vm, s.live, s.room - pageCount (pageRound size)⟩
  | free {pre post : List (VmBlock w)} {b : VmBlock w} {vm : Vm w} :
      s.live = pre ++ b :: post → vmFree b.mem b.size s.vm = some vm →
      Step s ⟨vm, pre ++ post, s.room⟩
  | write {page frame a v : BitVec w} : page ∈ s.pages →
      virtToPtePhys s.vm.machine s.vm.pageRoot page = some frame → InPage a frame →
      Step s { s with vm := { s.vm with machine := s.vm.machine.store a v } }

/-- Nothing is live, and the `room` pages from `floor` up to `vfree_top` are unmapped. -/
structure Start (floor : BitVec w) (s : VmRun w) : Prop where
  live : s.live = []
  aligned : PageAligned floor
  top : s.vm.vfreeTop = pageAt floor s.room
  span : s.room * 2 ^ pageShift w ≤ 2 ^ (x86Format w).vaBits
  unmapped : ∀ page ∈ pageRun floor s.room, Unmapped s.vm.machine s.vm.pageRoot page
  tree : (x86Format w).radix.IsTree s.vm.machine.mem s.vm.pageRoot
  supplied : ∃ l, Supplied (x86Format w) s.vm.machine s.vm.pageRoot 0 l

/-- The live allocations own their pages, and the area is unmapped. -/
structure Inv (floor : BitVec w) (s : VmRun w) (l : List (BitVec w)) (owned : List (Mapping w)) :
    Prop where
  owns : Owns s.vm.machine s.vm.pageRoot l owned
  pages : owned.map Mapping.page = s.pages
  blocks : ∀ b ∈ s.live, PageAligned b.mem ∧ b.size % pageSize = 0
  aligned : PageAligned floor
  top : s.vm.vfreeTop = pageAt floor s.room
  area : Area s.vm.machine s.vm.pageRoot (pageRun floor s.room)

variable {floor : BitVec w} {s s' : VmRun w} {l : List (BitVec w)} {owned : List (Mapping w)}

theorem Start.inv (h : s.Start floor) : ∃ l, s.Inv floor l [] := by
  obtain ⟨l, hl⟩ := h.supplied
  refine ⟨l, ⟨hl, h.tree, by simp, by simp, by simp, by simp, List.nodup_nil⟩, ?_, ?_, h.aligned,
    h.top, area_pageRun h.aligned h.span h.unmapped⟩
  · rw [VmRun.pages, h.live]
    rfl
  · rw [h.live]
    exact fun _ hb => absurd hb List.not_mem_nil

/-- A request takes the upper end of the area. -/
theorem Inv.split (h : s.Inv floor l owned) {size : BitVec w} (hfits : s.Fits size) :
    ∃ mem, mem = pageAt floor (s.room - pageCount (pageRound size)) ∧
      allocVpages ((unsignedPages (pageRound size)).setWidth w) s.vm =
        (mem, { s.vm with vfreeTop := mem }) ∧
      (unsignedPages (pageRound size)).toNat = pageCount (pageRound size) ∧
      Area s.vm.machine s.vm.pageRoot (pageRun mem (pageCount (pageRound size)) ++
        pageRun floor (s.room - pageCount (pageRound size))) := by
  obtain ⟨-, hcount, hroom⟩ := hfits
  have hpages := toNat_unsignedPages hcount
  have harea := h.area
  rw [← Nat.sub_add_cancel hroom, pageRun_add] at harea
  refine ⟨_, rfl, ?_, hpages, harea.swap⟩
  have hnr : (unsignedPages (pageRound size)).setWidth w =
      BitVec.ofNat w (pageCount (pageRound size)) := by
    rw [← hpages, BitVec.ofNat_toNat]
  rw [hnr, allocVpages, h.top, pageAt_sub hroom]

/-- `vm_memalign` adds a live allocation. -/
theorem Inv.memalign (h : s.Inv floor l owned) {alignment size mem : BitVec w} {vm : Vm w}
    (hfits : s.Fits size) (hrun : vmMemalign alignment size s.vm = some (mem, vm))
    (hden : vm.machine.denied = false) :
    ∃ l' owned', Inv floor
      ⟨vm, ⟨mem, pageRound size⟩ :: s.live, s.room - pageCount (pageRound size)⟩ l' owned' := by
  obtain ⟨mem', hmem, hvpages, hcount, harea⟩ := h.split hfits
  unfold vmMemalign at hrun
  split_ifs at hrun
  simp only [hvpages, hcount, Option.some.injEq, Prod.mk.injEq] at hrun
  obtain ⟨rfl, rfl⟩ := hrun
  obtain ⟨l', new, howns, hnew, hkept⟩ := vmMemalign.loop_spec h.owns harea.left hden
  refine ⟨l', new ++ owned, howns, ?_, ?_, h.aligned, hmem, harea.keep hkept⟩
  · rw [List.map_append, hnew, h.pages]
    rfl
  · exact List.forall_mem_cons.mpr ⟨⟨hmem ▸ h.aligned.pageAt _, pageRound_mod size⟩, h.blocks⟩

/-- `vmap` only takes pages of the area. -/
theorem Inv.vmap (h : s.Inv floor l owned) {phys : BitVec 64} {size mem : BitVec w} {vm : Vm w}
    (hfits : s.Fits size) (hrun : vmap phys size s.vm = (mem, vm))
    (hden : vm.machine.denied = false) :
    ∃ l', Inv floor ⟨vm, s.live, s.room - pageCount (pageRound size)⟩ l' owned := by
  obtain ⟨mem', hmem, hvpages, hcount, harea⟩ := h.split hfits
  simp only [AcrnUt.vmap, hvpages, hcount, Prod.mk.injEq] at hrun
  obtain ⟨rfl, rfl⟩ := hrun
  obtain ⟨l', howns, hkept, -⟩ := vmap.loop_spec h.owns harea.left hden
  exact ⟨l', howns, h.pages, h.blocks, h.aligned, hmem, harea.keep hkept⟩

/-- `vm_free` of a live allocation : its frames, each once, go to the free list. -/
theorem Inv.free (h : s.Inv floor l owned) {pre post : List (VmBlock w)} {b : VmBlock w}
    (hlive : s.live = pre ++ b :: post) :
    ∃ block rest vm, (block ++ rest).Perm owned ∧ block.map Mapping.page = b.pages ∧
      vmFree b.mem b.size s.vm = some vm ∧
      Inv floor ⟨vm, pre ++ post, s.room⟩ ((block.map Mapping.frame).reverse ++ l) rest ∧
      Touched s.vm.machine vm.machine s.vm.pageRoot (block.map Mapping.frame) := by
  obtain ⟨haligned, hsize⟩ := h.blocks b (by simp [hlive])
  have hpages := h.pages
  rw [VmRun.pages, hlive, List.flatMap_append, List.flatMap_cons, List.map_eq_append_iff] at hpages
  obtain ⟨before, tail, rfl, hbefore, htail⟩ := hpages
  obtain ⟨block, after, rfl, hblock, hafter⟩ := List.map_eq_append_iff.mp htail
  have hperm : (block ++ (before ++ after)).Perm (before ++ (block ++ after)) :=
    List.perm_append_comm_assoc ..
  have hlen : block.length = pageCount b.size := by
    have := congrArg List.length hblock
    rwa [List.length_map, VmBlock.pages, pageRun, List.length_map, List.length_range] at this
  have hcount := pageCount_mul hsize
  have hfuel : block.length < 2 ^ w := by
    rw [hlen]
    refine lt_of_le_of_lt ?_ b.size.isLt
    exact hcount ▸ Nat.le_mul_of_pos_right _ (Nat.two_pow_pos _)
  obtain ⟨m', hrun, howns, htouched⟩ := vmFree.loop_spec (h.owns.perm hperm.symm) haligned
    (hlen ▸ hblock) (hlen ▸ hcount.symm) hfuel
  refine ⟨block, before ++ after, { s.vm with machine := m' }, hperm, hblock, ?_, ?_, htouched⟩
  · rw [vmFree, hrun, Option.map_some]
  · refine ⟨howns, ?_, fun c hc => h.blocks c ?_, h.aligned, h.top, h.area.touched htouched⟩
    · rw [List.map_append, hbefore, hafter, VmRun.pages, List.flatMap_append]
    · rw [hlive]
      rcases List.mem_append.mp hc with hc | hc
      · exact List.mem_append_left _ hc
      · exact List.mem_append_right _ (List.mem_cons_of_mem b hc)

theorem Inv.aligned_page (h : s.Inv floor l owned) {page : BitVec w} (hp : page ∈ s.pages) :
    PageAligned page := by
  obtain ⟨b, hb, hpage⟩ := List.mem_flatMap.mp hp
  obtain ⟨j, -, rfl⟩ := mem_pageRun.mp hpage
  exact (h.blocks b hb).1.pageAt j

theorem Inv.virtToPtePhys (h : s.Inv floor l owned) {x : Mapping w} (hx : x ∈ owned) :
    virtToPtePhys s.vm.machine s.vm.pageRoot x.page = some x.frame :=
  (h.owns.mapsTo x hx).virtToPtePhys
    (h.aligned_page (h.pages ▸ List.mem_map_of_mem hx)) (h.owns.frame x hx)

/-- A write to a live allocation. -/
theorem Inv.write (h : s.Inv floor l owned) {page frame a v : BitVec w} (hp : page ∈ s.pages)
    (hframe : AcrnUt.virtToPtePhys s.vm.machine s.vm.pageRoot page = some frame)
    (ha : InPage a frame) :
    Inv floor { s with vm := { s.vm with machine := s.vm.machine.store a v } } l owned := by
  rw [← h.pages] at hp
  obtain ⟨x, hx, rfl⟩ := List.mem_map.mp hp
  rw [h.virtToPtePhys hx] at hframe
  obtain rfl := Option.some.inj hframe
  have hpa := (h.owns.frame x hx).pageAligned X86.pageShift_eq
  obtain ⟨howns, htouched⟩ := h.owns.store hx ((inPage_iff hpa).mp ha) v
  exact ⟨howns, h.pages, h.blocks, h.aligned, h.top, h.area.touched htouched⟩

theorem Inv.step (h : s.Inv floor l owned) (hs : s.Step s') :
    ∃ l' owned', s'.Inv floor l' owned' := by
  cases hs with
  | memalign _ hfits hrun hden => exact h.memalign hfits hrun hden
  | vmap hfits hrun hden =>
    obtain ⟨l', h'⟩ := h.vmap hfits hrun hden
    exact ⟨l', owned, h'⟩
  | free hlive hrun =>
    obtain ⟨block, rest, vm, -, -, hrun', h', -⟩ := h.free hlive
    rw [hrun] at hrun'
    cases hrun'
    exact ⟨_, rest, h'⟩
  | write hp hframe ha => exact ⟨l, owned, h.write hp hframe ha⟩

/-- The frames behind pages. -/
def Backed (vm : Vm w) (pages frames : List (BitVec w)) : Prop :=
  List.Forall₂ (fun page frame => MapsTo vm.machine vm.pageRoot page frame ∧
    AcrnUt.virtToPtePhys vm.machine vm.pageRoot page = some frame) pages frames

theorem Inv.backed (h : s.Inv floor l owned) {block : List (Mapping w)}
    (hsub : ∀ x ∈ block, x ∈ owned) :
    Backed s.vm (block.map Mapping.page) (block.map Mapping.frame) := by
  rw [Backed, List.forall₂_map_left_iff, List.forall₂_map_right_iff, List.forall₂_same]
  exact fun x hx => ⟨h.owns.mapsTo x (hsub x hx), h.virtToPtePhys (hsub x hx)⟩

/-- In every state that a run reaches, the pages of the live allocations are different, and
mapped to different frames, which `virt_to_pte_phys` finds and which are neither free nor
tables. `vm_free` of a live allocation puts its frames on the free list, each once, and
keeps the frames behind the others and what is in them. -/
theorem ownership {s₀ : VmRun w} (h₀ : s₀.Start floor) (h : Relation.ReflTransGen Step s₀ s) :
    ∃ l frames, s.vm.machine.FreeList l ∧ s.pages.Nodup ∧ Backed s.vm s.pages frames ∧
      frames.Nodup ∧
      (∀ p ∈ frames, p ∉ l ∧
        p ∉ (x86Format w).radix.tables s.vm.machine.mem s.vm.pageRoot) ∧
      ∀ pre b post, s.live = pre ++ b :: post →
        ∃ vm freed, vmFree b.mem b.size s.vm = some vm ∧ Backed s.vm b.pages freed ∧
          vm.machine.FreeList (freed.reverse ++ l) ∧
          ∀ page ∈ (pre ++ post).flatMap VmBlock.pages, ∃ p,
            virtToPtePhys s.vm.machine s.vm.pageRoot page = some p ∧
            virtToPtePhys vm.machine vm.pageRoot page = some p ∧
            ∀ a, InPage a p → vm.machine.mem a = s.vm.machine.mem a := by
  obtain ⟨l, owned, hinv⟩ : ∃ l owned, s.Inv floor l owned := by
    induction h with
    | refl =>
      obtain ⟨l, hl⟩ := h₀.inv
      exact ⟨l, [], hl⟩
    | tail _ hs ih =>
      obtain ⟨l, owned, hinv⟩ := ih
      exact hinv.step hs
  have howns := hinv.owns
  refine ⟨l, owned.map Mapping.frame, howns.supplied.list, hinv.pages ▸ howns.nodup_page,
    hinv.pages ▸ hinv.backed fun _ hx => hx, howns.nodup, ?_, ?_⟩
  · intro p hp
    obtain ⟨x, hx, rfl⟩ := List.mem_map.mp hp
    exact howns.notMem x hx
  · intro pre b post hlive
    obtain ⟨block, rest, vm, hperm, hblock, hrun, hinv', htouched⟩ := hinv.free hlive
    have hblk : ∀ x ∈ block, x ∈ owned := fun x hx =>
      hperm.mem_iff.mp (List.mem_append_left _ hx)
    have hrest : ∀ x ∈ rest, x ∈ owned := fun x hx =>
      hperm.mem_iff.mp (List.mem_append_right _ hx)
    refine ⟨vm, _, hrun, hblock ▸ hinv.backed hblk, hinv'.owns.supplied.list, fun page hp => ?_⟩
    have hp' : page ∈ rest.map Mapping.page := hinv'.pages ▸ hp
    obtain ⟨x, hx, rfl⟩ := List.mem_map.mp hp'
    refine ⟨x.frame, hinv.virtToPtePhys (hrest x hx), hinv'.virtToPtePhys hx, fun a ha => ?_⟩
    have hpa := (howns.frame x (hrest x hx)).pageAligned X86.pageShift_eq
    refine htouched.contents a fun hfreed => ?_
    rw [(inPage_iff hpa).mp ha] at hfreed
    have hnd := (hperm.map Mapping.frame).nodup_iff.mpr howns.nodup
    rw [List.map_append] at hnd
    exact (List.nodup_append.mp hnd).2.2 _ hfreed _ (List.mem_map_of_mem hx) rfl

/-- An area of `room` pages below the top of the address space, over empty tables. -/
def zeroedArea (room : ℕ) : VmRun 64 :=
  ⟨⟨zeroedRoot, 0, 0x1000⟩, [], room⟩

theorem zeroedArea_start {room : ℕ} {floor : BitVec 64} (h : PageAligned floor)
    (htop : 0 = pageAt floor room) (hroom : room * 2 ^ 12 ≤ 2 ^ 48) :
    (zeroedArea room).Start floor where
  live := rfl
  aligned := h
  top := htop
  span := hroom
  unmapped page _ := zeroedRoot_walk _ page
  tree := Radix.isTree_of_bare (by decide : pageOf (0x1000 : BitVec 64) = 0x1000)
    (zeroedRoot_bare _)
  supplied := ⟨_, zeroedRoot_supplied _⟩

/-- In an area of three pages : a page is allocated, a device is mapped, and the page is written,
freed and allocated again. -/
theorem ownership_three_pages :
    ∃ s : VmRun 64, Relation.ReflTransGen Step (zeroedArea 3) s ∧ s.room = 0 ∧
      s.pages = [-0x3000] ∧
      ∃ l frames, s.vm.machine.FreeList l ∧ Backed s.vm s.pages frames ∧ frames.Nodup ∧
        ∀ p ∈ frames, p ∉ l := by
  obtain ⟨vm₁, vm₂, vm₃, vm₄, hmem₁, hden₁, hmap, hden₂, hframe, hfree, hmem₂, hden₃⟩ :
      ∃ vm₁ vm₂ vm₃ vm₄ : Vm 64,
        vmMemalign 8 1 (zeroedArea 3).vm = some (-0x1000, vm₁) ∧ vm₁.machine.denied = false ∧
        AcrnUt.vmap 0xfee00000 1 vm₁ = (-0x2000, vm₂) ∧ vm₂.machine.denied = false ∧
        AcrnUt.virtToPtePhys vm₂.machine vm₂.pageRoot (-0x1000) = some 0x2000 ∧
        vmFree (-0x1000) 0x1000 { vm₂ with machine := vm₂.machine.store 0x2008 7 } = some vm₃ ∧
        vmMemalign 8 1 vm₃ = some (-0x3000, vm₄) ∧ vm₄.machine.denied = false :=
    ⟨_, _, _, _, rfl, by decide, rfl, by decide, by decide, rfl, rfl, by decide⟩
  have hstart : (zeroedArea 3).Start (-0x3000) :=
    zeroedArea_start (by rw [PageAligned]; rfl) (by decide) (by decide)
  have hfits : ∀ s : VmRun 64, 1 ≤ s.room → s.Fits 1 := fun _ h => ⟨by decide, by decide, h⟩
  have h₁ : Step (zeroedArea 3) ⟨vm₁, [⟨-0x1000, 0x1000⟩], 2⟩ :=
    .memalign (by decide) (hfits _ (by decide)) hmem₁ hden₁
  have h₂ : Step ⟨vm₁, [⟨-0x1000, 0x1000⟩], 2⟩ ⟨vm₂, [⟨-0x1000, 0x1000⟩], 1⟩ :=
    .vmap (hfits _ (Nat.le_succ 1)) hmap hden₂
  let vm := { vm₂ with machine := vm₂.machine.store 0x2008 7 }
  have h₃ : Step ⟨vm₂, [⟨-0x1000, 0x1000⟩], 1⟩ ⟨vm, [⟨-0x1000, 0x1000⟩], 1⟩ :=
    .write (List.mem_singleton_self (-0x1000)) hframe (by decide)
  have h₄ : Step ⟨vm, [⟨-0x1000, 0x1000⟩], 1⟩ ⟨vm₃, [], 1⟩ :=
    @Step.free 64 _ _ _ [] [] _ _ rfl hfree
  have h₅ : Step ⟨vm₃, [], 1⟩ ⟨vm₄, [⟨-0x3000, 0x1000⟩], 0⟩ :=
    .memalign (by decide) (hfits _ le_rfl) hmem₂ hden₃
  have hrun := ((((Relation.ReflTransGen.single h₁).tail h₂).tail h₃).tail h₄).tail h₅
  obtain ⟨l, frames, hl, -, hbacked, hnd, hnot, -⟩ := ownership hstart hrun
  exact ⟨_, hrun, rfl, rfl, l, frames, hl, hbacked, hnd, fun p hp => (hnot p hp).1⟩

/-- A request for `2^44` bytes, `2^32` pages, truncates to none : `vm_memalign` returns an
address, and maps nothing there. -/
theorem vmMemalign_maps_nothing :
    ∃ floor mem vm, (zeroedArea (2 ^ 32)).Start floor ∧
      pageCount (pageRound (2 ^ 44 : BitVec 64)) = 2 ^ 32 ∧
      vmMemalign 8 (2 ^ 44) (zeroedArea (2 ^ 32)).vm = some (mem, vm) ∧
      vm.machine.denied = false ∧ Unmapped vm.machine vm.pageRoot mem := by
  have hstart : (zeroedArea (2 ^ 32)).Start (-(2 ^ 44)) :=
    zeroedArea_start (by rw [PageAligned]; rfl) (by decide) (by decide)
  exact ⟨_, _, _, hstart, by decide, rfl, rfl, zeroedRoot_walk _ _⟩

end VmRun

end AcrnUt
