import AcrnUt.VmRun
import AcrnUt.X86Lookup
import Mathlib.Tactic

/-!
# Mapping device memory

`ioremap` of `lib/x86/io.c` over `vmap` of `lib/vmalloc.c`. `vmap` counts its pages from the size
alone, and maps that many from the page of the physical address on; `ioremap` adds the offset in
the page back. The bytes of the request that lie in the counted pages are mapped, if an entry can
hold their frames; what lies beyond is above the old `vfree_top`, and translates as before
(`ioremap_iff`). So a request is covered if its offset and size together stay in the pages
(`ioremapMaps_of_fits`), and the last bytes of one that crosses into a further page are not.

A physical address has 64 bits. The entries of the 32-bit build have 32, and none of the bytes of a
request from 4G on is mapped there.
-/

set_option linter.unusedSectionVars false

namespace AcrnUt

variable {w : ℕ} [PageGeom w] [X86 w]

/-! ## The source -/

/-- `ioremap`. `PAGE_MASK` has the width of a pointer, and cuts off what lies above it. -/
def ioremap (physAddr : BitVec 64) (size : BitVec w) (s : Vm w) : BitVec w × Vm w :=
  let base := physAddr &&& (~~~(pageSize - 1) : BitVec w).setWidth 64
  let offset := physAddr - base
  let (mem, s) := vmap physAddr size s
  (mem + offset.setWidth w, s)

/-- The pages that `vmap` counts. -/
def ioremapPages (size : BitVec w) : ℕ :=
  (unsignedPages (pageRound size)).toNat

/-! ## Translation -/

/-- What the processor makes of an address : nothing if it is not canonical. -/
def cpuPhys (m : Machine w) (root va : BitVec w) : Option (BitVec w) :=
  if (x86Format w).Canonical va then hwPhys m.mem root va else none

/-- What `vmap` finds : tables, and below `vfree_top` the pages that it is going to map, canonical
and unmapped. -/
structure VmapReady (s : Vm w) (n : ℕ) : Prop where
  owns : ∃ l owned, Owns s.machine s.pageRoot l owned
  aligned : PageAligned s.vfreeTop
  area : Area s.machine s.pageRoot (pageRun (s.vfreeTop - pageSize * BitVec.ofNat w n) n)
  canonical : ∀ p ∈ pageRun (s.vfreeTop - pageSize * BitVec.ofNat w n) n, (x86Format w).Canonical p

/-- The bytes of a request are mapped : their addresses have no more bits than a pointer, an entry
can hold the frames of those in the counted pages, and those beyond are mapped already, above
`vfree_top`. -/
structure IoremapMaps (s : Vm w) (phys : BitVec 64) (size : BitVec w) : Prop where
  width : ∀ i < size, (phys + i.setWidth 64).toNat < 2 ^ w
  frame : ∀ i < size,
    phys.toNat % 2 ^ pageShift w + i.toNat < ioremapPages size * 2 ^ pageShift w →
    IsFrame (pageOf ((phys + i.setWidth 64).setWidth w))
  above : ∀ i < size,
    ioremapPages size * 2 ^ pageShift w ≤ phys.toNat % 2 ^ pageShift w + i.toNat →
    cpuPhys s.machine s.pageRoot (s.vfreeTop + BitVec.ofNat w
      (phys.toNat % 2 ^ pageShift w + i.toNat - ioremapPages size * 2 ^ pageShift w)) =
        some ((phys + i.setWidth 64).setWidth w)

section Translation

variable {m m' : Machine w} {root page frame v : BitVec w} {k n : ℕ}

/-- The page of an address is the address without its low bits. -/
theorem and_not_pageSize (a : BitVec w) : a &&& ~~~(pageSize - 1) = pageOf a := by
  refine BitVec.eq_of_toNat_eq ?_
  rw [toNat_pageOf, pageSize, toNat_and_not_mask a pageShift_lt]

/-- A byte of a run of pages, by its page. -/
theorem add_ofNat_eq (p : BitVec w) (j : ℕ) :
    p + BitVec.ofNat w j =
      pageAt p (j / 2 ^ pageShift w) + BitVec.ofNat w (j % 2 ^ pageShift w) := by
  rw [pageAt, BitVec.add_assoc, ← BitVec.ofNat_add, Nat.div_add_mod']

theorem levelShift_one : (x86Format w).levelShift 1 = pageShift w := by
  rw [(x86Format w).pageShift_eq]
  exact congrArg (· + 12) (Nat.zero_mul _)

theorem toNat_add_of_aligned (hp : PageAligned page) (hk : k < 2 ^ pageShift w) :
    (page + BitVec.ofNat w k).toNat = page.toNat + k := by
  have hle := hp.add_le
  rw [BitVec.toNat_add, BitVec.toNat_ofNat, Nat.add_mod_mod, Nat.mod_eq_of_lt (by omega)]

/-- The bytes of a page lie in the block of its size. -/
theorem shift_add (hp : PageAligned page) (hk : k < 2 ^ pageShift w) :
    page >>> pageShift w = (page + BitVec.ofNat w k) >>> pageShift w := by
  rw [shift_eq_iff hp, toNat_add_of_aligned hp hk]
  omega

/-- The bits that grant access are not part of the address. -/
theorem or_seven_and_addrMask (p : BitVec w) : (p ||| 7) &&& addrMask w = p &&& addrMask w := by
  refine BitVec.eq_of_getLsbD_eq fun i hi => ?_
  rw [BitVec.getLsbD_and, BitVec.getLsbD_or, BitVec.getLsbD_and, PtFormat.getLsbD_seven hi,
    getLsbD_addrMask hi]
  by_cases h3 : i < 3
  · simp [show ¬12 ≤ i by omega]
  · simp [h3]

/-- A byte of a page is canonical if the page is. -/
theorem canonical_add (hp : PageAligned page) (hc : (x86Format w).Canonical page)
    (hk : k < 2 ^ pageShift w) : (x86Format w).Canonical (page + BitVec.ofNat w k) := by
  have hshift := shift_add hp hk
  have h12 := (x86Format w).pageShift_eq
  have hbits : 12 < (x86Format w).vaBits :=
    Nat.lt_add_of_pos_left (Nat.mul_pos X86.pageLevel_pos (x86Format w).pgdirWidth_pos)
  have hfits : (x86Format w).vaBits ≤ w := (x86Format w).fits
  have hhigh : ∀ i, 12 ≤ i → page.getLsbD i = (page + BitVec.ofNat w k).getLsbD i := fun i hi =>
    getLsbD_of_shift_eq hshift (h12 ▸ hi)
  unfold PtFormat.Canonical
  refine BitVec.eq_of_getLsbD_eq fun i hi => ?_
  rw [BitVec.getLsbD_signExtend, BitVec.msb_setWidth, BitVec.getLsbD_setWidth]
  by_cases hlow : i < (x86Format w).vaBits
  · simp [hi, hlow]
  · have htop := hc.getLsbD _ (not_lt.mp hlow) hi
    rw [hhigh i (by omega), hhigh _ (by omega)] at htop
    simp only [hi, hlow, Nat.zero_lt_of_lt hbits, decide_true, Bool.true_and, if_false]
    exact htop.symm

/-- A byte of a mapped page translates to the byte of the frame, exactly if an entry can hold the
frame. -/
theorem MapsTo.cpuPhys_iff (h : MapsTo m root page frame) (hp : PageAligned page)
    (hc : (x86Format w).Canonical page) (hk : k < 2 ^ pageShift w) :
    cpuPhys m root (page + BitVec.ofNat w k) = some (frame + BitVec.ofNat w k) ↔
      IsFrame frame := by
  have hpos : 1 ≤ pageLevel w := X86.pageLevel_pos
  have hagree := (x86Format w).agree_of_shift_eq ⟨le_rfl, hpos⟩
    (levelShift_one (w := w) ▸ shift_add hp hk)
  have hends : (x86Format w).radix.Ends m.mem root (page + BitVec.ofNat w k) (pageLevel w - 1)
      (frame ||| 7) :=
    ⟨((x86Format w).radix.entry_eq_of_agree hagree).symm.trans h.1, h.2⟩
  have hoff : (page + BitVec.ofNat w k) &&& (pageSize - 1) = BitVec.ofNat w k := by
    refine BitVec.eq_of_toNat_eq ?_
    rw [pageSize, toNat_and_mask _ pageShift_lt, toNat_add_of_aligned hp hk, Nat.add_mod, hp,
      Nat.zero_add, Nat.mod_mod, Nat.mod_eq_of_lt hk, BitVec.toNat_ofNat,
      Nat.mod_eq_of_lt (hk.trans (Nat.pow_lt_pow_right (by norm_num) pageShift_lt))]
  have hleaf : ∀ e v : BitVec w, leafPhys 1 e v = (e &&& addrMask w) + (v &&& (pageSize - 1)) := by
    intro e v
    refine BitVec.eq_of_getLsbD_eq fun i hi => ?_
    have hlt : (x86Format w).levelShift 1 < w := levelShift_one (w := w) ▸ pageShift_lt
    rw [getLsbD_leafPhys hlt hi, getLsbD_frame_add_offset, levelShift_one,
      (x86Format w).pageShift_eq]
  unfold cpuPhys
  rw [if_pos (canonical_add hp hc hk), hwPhys_of_ends hends ((x86Format w).present_link frame),
    show (x86Format w).pageLevel - (pageLevel w - 1) = 1 from Nat.sub_sub_self hpos, hleaf, hoff,
    Option.some.injEq, or_seven_and_addrMask]
  exact BitVec.add_left_inj _

/-- An address outside a page does not select its entries. -/
theorem not_agree_of_pageOf_ne (hp : PageAligned page) (hc : (x86Format w).Canonical page)
    (hv : (x86Format w).Canonical v) (hne : pageOf v ≠ page) :
    ¬(x86Format w).radix.Agree (pageLevel w) page v := by
  intro hagree
  have hpos : 0 < pageLevel w := X86.pageLevel_pos
  have hshift := (x86Format w).shift_eq_of_agree le_rfl hagree fun i hi hw =>
    hc.getLsbD_eq _ hv hpos le_rfl hagree hi hw
  rw [Nat.sub_self, Nat.zero_add, levelShift_one, shift_eq_iff hp] at hshift
  refine hne ((inPage_iff hp).mp ?_)
  rw [InPage, BitVec.toNat_sub_of_le (BitVec.le_def.mpr hshift.1)]
  omega

end Translation

/-! ## The bytes of a request -/

section Request

variable {s : Vm w} {phys : BitVec 64} {size : BitVec w} {i n : ℕ}

theorem toNat_sub_pageOf (a : BitVec w) : (a - pageOf a).toNat = a.toNat % 2 ^ pageShift w := by
  have hle : (pageOf a).toNat ≤ a.toNat := by
    rw [toNat_pageOf]
    exact Nat.div_mul_le_self _ _
  rw [BitVec.toNat_sub_of_le (BitVec.le_def.mpr hle), toNat_pageOf]
  have := Nat.div_add_mod' a.toNat (2 ^ pageShift w)
  omega

/-- The offset in the page is in the bits of a pointer. -/
theorem offset_eq (phys : BitVec 64) :
    phys.setWidth w - pageOf (phys.setWidth w) =
      BitVec.ofNat w (phys.toNat % 2 ^ pageShift w) := by
  have hdvd : 2 ^ pageShift w ∣ 2 ^ w := pageSize_dvd
  have hlt : 2 ^ pageShift w < 2 ^ w := Nat.pow_lt_pow_right (by norm_num) pageShift_lt
  have hmod := Nat.mod_lt phys.toNat (Nat.two_pow_pos (pageShift w))
  refine BitVec.eq_of_toNat_eq ?_
  rw [toNat_sub_pageOf, BitVec.toNat_setWidth, Nat.mod_mod_of_dvd _ hdvd, BitVec.toNat_ofNat,
    Nat.mod_eq_of_lt (hmod.trans hlt)]

/-- What `ioremap` does, by the pages that `vmap` counts. -/
theorem ioremap_eq (hw : w ≤ 64) (phys : BitVec 64) (size : BitVec w) (s : Vm w) :
    ioremap phys size s =
      (s.vfreeTop - pageSize * BitVec.ofNat w (ioremapPages size) +
          BitVec.ofNat w (phys.toNat % 2 ^ pageShift w),
        { s with
          vfreeTop := s.vfreeTop - pageSize * BitVec.ofNat w (ioremapPages size)
          machine := vmap.loop s.pageRoot (ioremapPages size)
            (phys &&& ~~~((pageSize - 1 : BitVec w).setWidth 64))
            (s.vfreeTop - pageSize * BitVec.ofNat w (ioremapPages size)) s.machine }) := by
  have hbase : (phys &&& (~~~(pageSize - 1) : BitVec w).setWidth 64).setWidth w =
      pageOf (phys.setWidth w) := by
    rw [BitVec.setWidth_and, BitVec.setWidth_setWidth_of_le _ hw, BitVec.setWidth_eq,
      and_not_pageSize]
  have hoffset : (phys - (phys &&& (~~~(pageSize - 1) : BitVec w).setWidth 64)).setWidth w =
      BitVec.ofNat w (phys.toNat % 2 ^ pageShift w) := by
    rw [← offset_eq, ← hbase, eq_comm, BitVec.sub_eq_iff_eq_add, ← BitVec.setWidth_add _ _ hw,
      BitVec.sub_add_cancel]
  unfold ioremap vmap allocVpages ioremapPages
  simp only [hoffset, BitVec.ofNat_toNat]

/-- The frames that `vmap` installs are the pages from that of the physical address on. -/
theorem physAt_setWidth (hw : w ≤ 64) (phys : BitVec 64) (k : ℕ) :
    (physAt w (phys &&& ~~~((pageSize - 1 : BitVec w).setWidth 64)) k).setWidth w =
      pageAt (pageOf (phys.setWidth w)) k := by
  rw [physAt, pageAt, BitVec.setWidth_add _ _ hw, BitVec.setWidth_and, BitVec.setWidth_not hw,
    BitVec.setWidth_setWidth_of_le _ hw, BitVec.setWidth_eq, and_not_pageSize,
    BitVec.setWidth_ofNat_of_le hw]

/-- A byte of the request that lies in a counted page. -/
theorem ioremap_inside {m : Machine w} {root mem base : BitVec w} {j : ℕ}
    (haligned : PageAligned mem) (hbase : PageAligned base)
    (hcanonical : ∀ p ∈ pageRun mem n, (x86Format w).Canonical p)
    (hmaps : ∀ k < n, MapsTo m root (pageAt mem k) (pageAt base k))
    (hj : j < n * 2 ^ pageShift w) :
    cpuPhys m root (mem + BitVec.ofNat w j) = some (base + BitVec.ofNat w j) ↔
      IsFrame (pageOf (base + BitVec.ofNat w j)) := by
  have hpos := Nat.two_pow_pos (pageShift w)
  have hk : j / 2 ^ pageShift w < n := Nat.div_lt_of_lt_mul (by rwa [Nat.mul_comm])
  have hmod := Nat.mod_lt j hpos
  rw [add_ofNat_eq mem, add_ofNat_eq base, (hbase.pageAt _).pageOf_add hmod]
  exact (hmaps _ hk).cpuPhys_iff (haligned.pageAt _) (hcanonical _ (mem_pageRun.mpr ⟨_, hk, rfl⟩))
    hmod

/-- A byte beyond the counted pages. -/
theorem ioremap_outside {m m' : Machine w} {root mem : BitVec w} {l l' : List (BitVec w)} {j : ℕ}
    (haligned : PageAligned mem) (hcanonical : ∀ p ∈ pageRun mem n, (x86Format w).Canonical p)
    (hkept : Kept m m' root l l' (pageRun mem n)) (hj : n * 2 ^ pageShift w ≤ j)
    (hlt : 0 < n → j < 2 ^ w) :
    cpuPhys m' root (mem + BitVec.ofNat w j) = cpuPhys m root (mem + BitVec.ofNat w j) := by
  unfold cpuPhys
  split_ifs with hv
  · unfold hwPhys
    rw [hkept.walk _ fun p hp => ?_]
    obtain ⟨k, hk, rfl⟩ := mem_pageRun.mp hp
    refine not_agree_of_pageOf_ne (haligned.pageAt k) (hcanonical _ hp) hv fun hpage => ?_
    rw [add_ofNat_eq mem, (haligned.pageAt _).pageOf_add (Nat.mod_lt j (Nat.two_pow_pos _))]
      at hpage
    have hlt := hlt (Nat.zero_lt_of_lt hk)
    have hdiv := Nat.div_mul_le_self j (2 ^ pageShift w)
    have hkn : k * 2 ^ pageShift w < n * 2 ^ pageShift w :=
      Nat.mul_lt_mul_of_pos_right hk (Nat.two_pow_pos _)
    obtain rfl := pageAt_inj (by omega) (by omega) hpage
    have hlow := Nat.div_add_mod' j (2 ^ pageShift w)
    have hnk : (j / 2 ^ pageShift w + 1) * 2 ^ pageShift w ≤ n * 2 ^ pageShift w :=
      Nat.mul_le_mul_right _ hk
    have hmod := Nat.mod_lt j (Nat.two_pow_pos (pageShift w))
    rw [Nat.succ_mul] at hnk
    omega
  · rfl

/-- The bytes of a request for which pages are counted do not wrap. -/
theorem offset_add_lt {i : BitVec w} (hi : i < size) (hpages : 0 < ioremapPages size) :
    phys.toNat % 2 ^ pageShift w + i.toNat < 2 ^ w := by
  have hpos := Nat.two_pow_pos (pageShift w)
  have hmod := Nat.mod_lt phys.toNat hpos
  have hi : i.toNat < size.toNat := hi
  by_contra hcon
  have hsize := size.isLt
  have hpage : 2 ^ pageShift w < 2 ^ w := Nat.pow_lt_pow_right (by norm_num) pageShift_lt
  have hround : pageRound size = 0 := by
    refine BitVec.eq_of_toNat_eq ?_
    rw [pageRound_eq, pageSize, toNat_align_eq _ pageShift_lt]
    have hwrap : (size.toNat + (2 ^ pageShift w - 1)) % 2 ^ w < 2 ^ pageShift w := by
      rw [Nat.mod_eq_sub_mod (by omega), Nat.mod_eq_of_lt (by omega)]
      omega
    rw [Nat.div_eq_of_lt hwrap, Nat.zero_mul]
    rfl
  have hzero : ioremapPages size = 0 := by
    unfold ioremapPages unsignedPages
    rw [hround, BitVec.toNat_setWidth, BitVec.toNat_udiv]
    simp
  omega

/-- The pages that `vmap` takes are aligned. -/
theorem aligned_sub {top : BitVec w} (h : PageAligned top) (n : ℕ) :
    PageAligned (top - pageSize * BitVec.ofNat w n) := by
  have hdvd : ∀ {x : BitVec w}, PageAligned x ↔ 2 ^ pageShift w ∣ x.toNat := fun {x} =>
    (Nat.dvd_iff_mod_eq_zero).symm
  rw [hdvd] at h ⊢
  rw [pageSize_mul, BitVec.toNat_sub, BitVec.toNat_ofNat]
  refine (Nat.dvd_mod_iff pageSize_dvd).mpr (Nat.dvd_add (Nat.dvd_sub pageSize_dvd ?_) h)
  exact (Nat.dvd_mod_iff pageSize_dvd).mpr (Nat.dvd_mul_left _ n)

/-- A word is a 64-bit address if the address has no more bits, and is the word. -/
theorem map_setWidth_iff (hw : w ≤ 64) {x : Option (BitVec w)} {y : BitVec 64} :
    x.map (·.setWidth 64) = some y ↔ y.toNat < 2 ^ w ∧ x = some (y.setWidth w) := by
  have hpow : 2 ^ w ≤ 2 ^ 64 := Nat.pow_le_pow_right (by norm_num) hw
  rw [Option.map_eq_some_iff]
  constructor
  · rintro ⟨a, rfl, rfl⟩
    refine ⟨?_, by rw [BitVec.setWidth_setWidth_of_le _ hw, BitVec.setWidth_eq]⟩
    rw [BitVec.toNat_setWidth, Nat.mod_eq_of_lt (a.isLt.trans_le hpow)]
    exact a.isLt
  · rintro ⟨hlt, rfl⟩
    refine ⟨_, rfl, BitVec.eq_of_toNat_eq ?_⟩
    rw [BitVec.toNat_setWidth, BitVec.toNat_setWidth, Nat.mod_eq_of_lt hlt,
      Nat.mod_eq_of_lt (hlt.trans_le hpow)]

/-- What the bytes of a request translate to after `ioremap` : in a counted page, to the byte of the
request if an entry can hold its frame, and beyond, to what they did before. -/
theorem ioremap_bytes (hw : w ≤ 64) (hready : VmapReady s (ioremapPages size))
    (hden : (ioremap phys size s).2.machine.denied = false) {i : BitVec w} (hi : i < size) :
    (phys.toNat % 2 ^ pageShift w + i.toNat < ioremapPages size * 2 ^ pageShift w →
      (cpuPhys (ioremap phys size s).2.machine (ioremap phys size s).2.pageRoot
          ((ioremap phys size s).1 + i) = some ((phys + i.setWidth 64).setWidth w) ↔
        IsFrame (pageOf ((phys + i.setWidth 64).setWidth w)))) ∧
    (ioremapPages size * 2 ^ pageShift w ≤ phys.toNat % 2 ^ pageShift w + i.toNat →
      cpuPhys (ioremap phys size s).2.machine (ioremap phys size s).2.pageRoot
          ((ioremap phys size s).1 + i) =
        cpuPhys s.machine s.pageRoot (s.vfreeTop + BitVec.ofNat w
          (phys.toNat % 2 ^ pageShift w + i.toNat - ioremapPages size * 2 ^ pageShift w))) := by
  obtain ⟨l, owned, howns⟩ := hready.owns
  rw [ioremap_eq hw] at hden ⊢
  simp only at hden ⊢
  obtain ⟨l', -, hkept, hmaps⟩ := vmap.loop_spec howns hready.area hden
  simp only [physAt_setWidth hw] at hmaps
  have haligned := aligned_sub hready.aligned (ioremapPages size)
  have hbyte : BitVec.ofNat w (phys.toNat % 2 ^ pageShift w) + i =
      BitVec.ofNat w (phys.toNat % 2 ^ pageShift w + i.toNat) := by
    rw [BitVec.ofNat_add, BitVec.ofNat_toNat _ i, BitVec.setWidth_eq]
  have hphys : (phys + i.setWidth 64).setWidth w = pageOf (phys.setWidth w) +
      BitVec.ofNat w (phys.toNat % 2 ^ pageShift w + i.toNat) := by
    rw [BitVec.setWidth_add _ _ hw, BitVec.setWidth_setWidth_of_le _ hw, BitVec.setWidth_eq,
      ← hbyte, ← offset_eq, ← BitVec.add_assoc, BitVec.add_comm (pageOf _), BitVec.sub_add_cancel]
  rw [BitVec.add_assoc, hbyte]
  refine ⟨fun hin => ?_, fun hout => ?_⟩
  · rw [hphys]
    exact ioremap_inside haligned (pageAligned_pageOf _) hready.canonical hmaps hin
  · rw [ioremap_outside haligned hready.canonical hkept hout (offset_add_lt hi)]
    obtain ⟨d, hd⟩ := Nat.exists_eq_add_of_le hout
    rw [hd, Nat.add_sub_cancel_left, BitVec.ofNat_add, pageSize_mul, ← BitVec.add_assoc,
      BitVec.sub_add_cancel]

/-- `ioremap` covers a request, byte by byte, exactly if the addresses have no more bits than a
pointer, an entry can hold the frames of the pages that it counts from the size, and what lies
beyond them was mapped already. -/
theorem ioremap_iff (hw : w ≤ 64) (hready : VmapReady s (ioremapPages size))
    (hden : (ioremap phys size s).2.machine.denied = false) :
    (∀ i < size, (cpuPhys (ioremap phys size s).2.machine (ioremap phys size s).2.pageRoot
      ((ioremap phys size s).1 + i)).map (·.setWidth 64) = some (phys + i.setWidth 64)) ↔
        IoremapMaps s phys size := by
  constructor
  · refine fun h => ⟨fun i hi => ?_, fun i hi hin => ?_, fun i hi hout => ?_⟩
    · exact ((map_setWidth_iff hw).mp (h i hi)).1
    · exact ((ioremap_bytes hw hready hden hi).1 hin).mp ((map_setWidth_iff hw).mp (h i hi)).2
    · rw [← (ioremap_bytes hw hready hden hi).2 hout]
      exact ((map_setWidth_iff hw).mp (h i hi)).2
  · intro h i hi
    refine (map_setWidth_iff hw).mpr ⟨h.width i hi, ?_⟩
    rcases Nat.lt_or_ge (phys.toNat % 2 ^ pageShift w + i.toNat)
      (ioremapPages size * 2 ^ pageShift w) with hin | hout
    · exact ((ioremap_bytes hw hready hden hi).1 hin).mpr (h.frame i hi hin)
    · rw [(ioremap_bytes hw hready hden hi).2 hout]
      exact h.above i hi hout

/-- A request is covered if its offset and size together stay in the pages of its size, all of them
below `2^52` and of no more bits than a pointer. -/
theorem ioremapMaps_of_fits (hw : w ≤ 64) (hround : size.toNat + (2 ^ pageShift w - 1) < 2 ^ w)
    (hcount : pageCount (pageRound size) < 2 ^ 32)
    (hfits : phys.toNat % 2 ^ pageShift w + size.toNat ≤
      (size.toNat + (2 ^ pageShift w - 1)) / 2 ^ pageShift w * 2 ^ pageShift w)
    (hphys : phys.toNat + size.toNat ≤ 2 ^ 52) (hwidth : phys.toNat + size.toNat ≤ 2 ^ w) :
    IoremapMaps s phys size := by
  have hpages : ioremapPages size * 2 ^ pageShift w =
      (size.toNat + (2 ^ pageShift w - 1)) / 2 ^ pageShift w * 2 ^ pageShift w := by
    rw [ioremapPages, toNat_unsignedPages hcount, pageCount_mul (pageRound_mod size), pageRound_eq,
      pageSize, toNat_align pageShift_lt hround]
  have h12 : pageShift w = 12 := (x86Format w).pageShift_eq
  have hpow : 2 ^ w ≤ 2 ^ 64 := Nat.pow_le_pow_right (by norm_num) hw
  have hsum : ∀ i < size, (phys + i.setWidth 64).toNat = phys.toNat + i.toNat := fun i hi => by
    have hi : i.toNat < size.toNat := hi
    rw [BitVec.toNat_add, BitVec.toNat_setWidth, Nat.mod_eq_of_lt (i.isLt.trans_le hpow),
      Nat.mod_eq_of_lt (by omega)]
  refine ⟨fun i hi => ?_, fun i hi _ => ?_, fun i hi hout => ?_⟩
  · rw [hsum i hi]
    have hi : i.toNat < size.toNat := hi
    omega
  · refine isFrame_of_lt (h12 ▸ pageAligned_pageOf _) ?_
    rw [toNat_pageOf, BitVec.toNat_setWidth, hsum i hi]
    have hi : i.toNat < size.toNat := hi
    refine (Nat.div_mul_le_self _ _).trans_lt ((Nat.mod_le _ _).trans_lt ?_)
    omega
  · have hi : i.toNat < size.toNat := hi
    omega

/-- In every run of the allocator, requests whose counted pages fit the area find it ready. -/
theorem VmRun.Inv.vmapReady {r : VmRun w} {floor : BitVec w} {l : List (BitVec w)}
    {owned : List (Mapping w)} (h : r.Inv floor l owned) (hroom : n ≤ r.room)
    (hcanonical : ∀ p ∈ pageRun floor r.room, (x86Format w).Canonical p) : VmapReady r.vm n := by
  have hsplit : pageRun floor r.room =
      pageRun floor (r.room - n) ++ pageRun (pageAt floor (r.room - n)) n := by
    rw [← pageRun_add, Nat.sub_add_cancel hroom]
  have hmem : r.vm.vfreeTop - pageSize * BitVec.ofNat w n = pageAt floor (r.room - n) := by
    rw [h.top, pageAt_sub hroom]
  have harea := h.area
  rw [hsplit] at harea hcanonical
  refine ⟨⟨l, owned, h.owns⟩, h.top ▸ h.aligned.pageAt _, ?_, ?_⟩
  · rw [hmem]
    exact harea.swap.left
  · rw [hmem]
    exact fun p hp => hcanonical p (List.mem_append_right _ hp)

end Request

/-! ## Empty tables -/

/-- The allocator over empty tables, with the area at the end of the address space. -/
def emptyVm : Vm 64 :=
  ⟨zeroedRoot, 0, 0x1000⟩

theorem emptyVm_ready : VmapReady emptyVm 1 := by
  have hstart : (VmRun.zeroedArea 1).Start (-0x1000) :=
    VmRun.zeroedArea_start (by rw [PageAligned]; rfl) (by decide) (by decide)
  obtain ⟨l, hinv⟩ := hstart.inv
  refine hinv.vmapReady le_rfl fun p hp => ?_
  obtain ⟨k, hk, rfl⟩ := mem_pageRun.mp hp
  obtain rfl : k = 0 := Nat.lt_one_iff.mp hk
  decide

/-- The last byte of 1K of registers in one page. -/
theorem ioremap_page : (cpuPhys (ioremap 0xfed00010 0x400 emptyVm).2.machine
    (ioremap 0xfed00010 0x400 emptyVm).2.pageRoot
      ((ioremap 0xfed00010 0x400 emptyVm).1 + 0x3ff)).map (·.setWidth 64) =
        some (0xfed00010 + 0x3ff) :=
  (ioremap_iff (by decide) emptyVm_ready (by decide)).mpr
    (ioremapMaps_of_fits (by decide) (by decide) (by decide) (by decide) (by decide) (by decide))
      0x3ff (by decide)

/-- A page of registers from the middle of a page on : the second half of them is not mapped. -/
theorem ioremap_crossing :
    VmapReady emptyVm (ioremapPages (0x1000 : BitVec 64)) ∧
      (ioremap 0xfed00800 0x1000 emptyVm).2.machine.denied = false ∧
      cpuPhys (ioremap 0xfed00800 0x1000 emptyVm).2.machine
        (ioremap 0xfed00800 0x1000 emptyVm).2.pageRoot
        ((ioremap 0xfed00800 0x1000 emptyVm).1 + 0x7ff) = some (0xfed00800 + 0x7ff) ∧
      cpuPhys (ioremap 0xfed00800 0x1000 emptyVm).2.machine
        (ioremap 0xfed00800 0x1000 emptyVm).2.pageRoot
        ((ioremap 0xfed00800 0x1000 emptyVm).1 + 0x800) = none :=
  ⟨emptyVm_ready, by decide, by decide, by decide⟩

end AcrnUt
