import AcrnUt.Bytes
import AcrnUt.VirtqueueAlloc
import Mathlib.Order.CompletePartialOrder
import Mathlib.Tactic

/-!
# Where the parts of a ring lie

`vring_init` of `lib/virtio.c` cuts the memory of a queue of `num` descriptors into three parts :

* the descriptor table, `16 * num` bytes at `p`;
* the available ring, `2 * (num + 3)` bytes behind it : flags, index, entries and the event index;
* the used ring, `8 * num + 6` bytes, from the next multiple of `align` on.

They do not overlap (`vringInit_disjoint`). From a `p` that is a multiple of `align` they take the
bytes of the `vring_size` in the comment of `lib/virtio-mmio.h` (`vringEnd_eq`), which for 128
descriptors are less than the two pages that `vm_setup_vq` allocates.
-/

set_option linter.unusedSectionVars false

namespace AcrnUt

variable {w : ℕ}

/-! ## The source -/

/-- `u64`. -/
def u64Type : CType :=
  ⟨8, 8⟩

/-- `struct vring_desc` : `addr`, `len`, `flags`, `next`. -/
def vringDescType : CType :=
  .struct [u64Type, u32Type, u16Type, u16Type]

/-- `offsetof(struct vring_avail, ring)`, behind `flags` and `idx`. -/
def vringAvailRing : ℕ :=
  CType.flexOffset [u16Type, u16Type] u16Type

/-- `struct vring_used_elem` : `id`, `len`. -/
def vringUsedElemType : CType :=
  .struct [u32Type, u32Type]

/-- `offsetof(struct vring_used, ring)`, behind `flags` and `idx`. -/
def vringUsedRing : ℕ :=
  CType.flexOffset [u16Type, u16Type] vringUsedElemType

/-- `struct vring`. -/
structure Vring (w : ℕ) where
  num : BitVec 32
  desc : BitVec w
  avail : BitVec w
  used : BitVec w

/-- `vring_init`. -/
def vringInit (num : BitVec 32) (p align : BitVec w) : Vring w :=
  let avail := p + num.setWidth w * BitVec.ofNat w vringDescType.size
  -- `&vr->avail->ring[num]`
  let ring := avail + BitVec.ofNat w vringAvailRing + num.setWidth w * BitVec.ofNat w u16Type.size
  { num := num
    desc := p
    avail := avail
    used := (ring + BitVec.ofNat w u16Type.size + align - 1) &&& ~~~(align - 1) }

/-- `vring_size`, as the comment gives it. -/
def vringSize (num : BitVec 32) (align : BitVec w) : BitVec 32 :=
  (((BitVec.ofNat w vringDescType.size * num.setWidth w
        + BitVec.ofNat w u16Type.size * (3 + num).setWidth w + align - 1) &&& ~~~(align - 1))
      + BitVec.ofNat w u16Type.size * 3
      + BitVec.ofNat w vringUsedElemType.size * num.setWidth w).setWidth 32

/-! ## The parts -/

namespace Vring

/-- The bytes of the descriptors. -/
def descTable (v : Vring w) : Set (BitVec w) :=
  byteRange v.desc (vringDescType.size * v.num.toNat)

/-- The bytes of the available ring, with the event index behind its entries. -/
def availRing (v : Vring w) : Set (BitVec w) :=
  byteRange v.avail (vringAvailRing + u16Type.size * v.num.toNat + u16Type.size)

/-- The bytes of the used ring, with the event index behind its entries. -/
def usedRing (v : Vring w) : Set (BitVec w) :=
  byteRange v.used (vringUsedRing + vringUsedElemType.size * v.num.toNat + u16Type.size)

/-- The three parts. -/
def parts (v : Vring w) : List (Set (BitVec w)) :=
  [v.descTable, v.availRing, v.usedRing]

end Vring

theorem vringDescType_size : vringDescType.size = 16 :=
  rfl

theorem vringAvailRing_eq : vringAvailRing = 4 :=
  rfl

theorem vringUsedElemType_size : vringUsedElemType.size = 8 :=
  rfl

theorem vringUsedRing_eq : vringUsedRing = 4 :=
  rfl

theorem u16Type_size : u16Type.size = 2 :=
  rfl

theorem Vring.parts_eq (v : Vring w) : v.parts = [byteRange v.desc (16 * v.num.toNat),
    byteRange v.avail (2 * (v.num.toNat + 3)), byteRange v.used (8 * v.num.toNat + 6)] := by
  have havail : vringAvailRing + u16Type.size * v.num.toNat + u16Type.size
      = 2 * (v.num.toNat + 3) := by
    rw [vringAvailRing_eq, u16Type_size]
    omega
  have hused : vringUsedRing + vringUsedElemType.size * v.num.toNat + u16Type.size
      = 8 * v.num.toNat + 6 := by
    rw [vringUsedRing_eq, vringUsedElemType_size, u16Type_size]
    omega
  rw [parts, descTable, availRing, usedRing, havail, hused, vringDescType_size]

/-- The bytes from `p` to the end of the event index of the available ring. -/
def availEnd (num : ℕ) : ℕ :=
  16 * num + 2 * (num + 3)

/-- The end of the used ring, as a number. -/
def vringEnd (p num a : ℕ) : ℕ :=
  alignUp a (p + availEnd num) + (8 * num + 6)

/-- `vring_size`, as a number. -/
def vringBytes (num a : ℕ) : ℕ :=
  alignUp a (availEnd num) + (8 * num + 6)

section Layout

variable {num : BitVec 32} {p : BitVec w} {k : ℕ}

/-- Rounding up behind a multiple. -/
theorem alignUp_add {a x y : ℕ} (ha : 0 < a) (h : a ∣ x) : alignUp a (x + y) = x + alignUp a y := by
  obtain ⟨c, rfl⟩ := h
  unfold alignUp
  rw [Nat.add_assoc, Nat.mul_add_div ha, Nat.add_mul, Nat.mul_comm c]

theorem dvd_alignUp (a x : ℕ) : a ∣ alignUp a x :=
  Nat.dvd_mul_left ..

/-- From a multiple of `align` on, a ring takes the bytes of `vring_size`. -/
theorem vringEnd_eq {x n a : ℕ} (ha : 0 < a) (h : a ∣ x) :
    vringEnd x n a = x + vringBytes n a := by
  rw [vringEnd, vringBytes, alignUp_add ha h, Nat.add_assoc]

/-- A sum whose rounding fits does not come round while it is rounded. -/
theorem add_mask_lt {x : ℕ} (hk : k < w) (h : alignUp (2 ^ k) x < 2 ^ w) :
    x + (2 ^ k - 1) < 2 ^ w := by
  have hpos := Nat.two_pow_pos k
  obtain ⟨c, hc⟩ := dvd_alignUp (2 ^ k) x
  obtain ⟨d, hd⟩ := Nat.pow_dvd_pow 2 hk.le
  have hle := le_alignUp hpos x
  rw [hc] at h hle
  rw [hd] at h ⊢
  have hcd : c + 1 ≤ d := Nat.lt_of_mul_lt_mul_left h
  have hmul := Nat.mul_le_mul_left (2 ^ k) hcd
  rw [Nat.mul_succ] at hmul
  omega

/-- The start of the used ring is the end of the available ring, rounded up. -/
theorem vringInit_used_eq (num : BitVec 32) (p a : BitVec w) :
    (vringInit num p a).used = align (p + BitVec.ofNat w (availEnd num.toNat)) a := by
  have hsum : p + num.setWidth w * BitVec.ofNat w vringDescType.size
      + BitVec.ofNat w vringAvailRing + num.setWidth w * BitVec.ofNat w u16Type.size
      + BitVec.ofNat w u16Type.size = p + BitVec.ofNat w (availEnd num.toNat) := by
    rw [← BitVec.ofNat_toNat w num, ← BitVec.ofNat_mul, ← BitVec.ofNat_mul, BitVec.add_assoc p,
      BitVec.add_assoc p, BitVec.add_assoc p, ← BitVec.ofNat_add, ← BitVec.ofNat_add,
      ← BitVec.ofNat_add, vringDescType_size, vringAvailRing_eq, u16Type_size, availEnd]
    congr 2
    omega
  unfold vringInit align
  rw [← hsum]
  exact congrArg (· &&& ~~~(a - 1)) (add_sub_assoc _ a 1)

theorem vringInit_avail_eq (num : BitVec 32) (p a : BitVec w) :
    (vringInit num p a).avail = p + BitVec.ofNat w (16 * num.toNat) := by
  rw [vringInit, ← BitVec.ofNat_toNat w num, ← BitVec.ofNat_mul, vringDescType_size, Nat.mul_comm]

theorem toNat_vringInit_used (hk : k < w)
    (hfits : vringEnd p.toNat num.toNat (2 ^ k) ≤ 2 ^ w) :
    (vringInit num p (1#w <<< k)).used.toNat
      = alignUp (2 ^ k) (p.toNat + availEnd num.toNat) := by
  have hpos := Nat.two_pow_pos k
  have hle := le_alignUp hpos (p.toNat + availEnd num.toNat)
  rw [vringEnd] at hfits
  have hmask := add_mask_lt hk (by omega : alignUp (2 ^ k) (p.toNat + availEnd num.toNat) < 2 ^ w)
  have hsum : (p + BitVec.ofNat w (availEnd num.toNat)).toNat
      = p.toNat + availEnd num.toNat := by
    rw [BitVec.toNat_add, BitVec.toNat_ofNat, Nat.add_mod_mod, Nat.mod_eq_of_lt (by omega)]
  rw [vringInit_used_eq, toNat_align hk (by rwa [hsum]), hsum]
  rfl

/-- The used ring by its offset. -/
theorem toNat_used_sub (hk : k < w) (hfits : vringEnd p.toNat num.toNat (2 ^ k) ≤ 2 ^ w) :
    ((vringInit num p (1#w <<< k)).used - p).toNat
      = alignUp (2 ^ k) (p.toNat + availEnd num.toNat) - p.toNat := by
  have hused := toNat_vringInit_used hk hfits
  have hle := le_alignUp (Nat.two_pow_pos k) (p.toNat + availEnd num.toNat)
  rw [BitVec.toNat_sub_of_le (BitVec.le_def.mpr (by rw [hused]; omega)), hused]

/-- The parts by their offsets from `p`. -/
theorem vringInit_parts (hk : k < w) (hfits : vringEnd p.toNat num.toNat (2 ^ k) ≤ 2 ^ w) :
    ∃ c d : BitVec w, c.toNat = 16 * num.toNat ∧
      d.toNat = alignUp (2 ^ k) (p.toNat + availEnd num.toNat) - p.toNat ∧
      (vringInit num p (1#w <<< k)).parts = [byteRange (p + 0) (16 * num.toNat),
        byteRange (p + c) (2 * (num.toNat + 3)), byteRange (p + d) (8 * num.toNat + 6)] := by
  refine ⟨BitVec.ofNat w (16 * num.toNat), (vringInit num p (1#w <<< k)).used - p, ?_,
    toNat_used_sub hk hfits, ?_⟩
  · have hle := le_alignUp (Nat.two_pow_pos k) (p.toNat + availEnd num.toNat)
    rw [vringEnd] at hfits
    rw [availEnd] at hle hfits
    rw [BitVec.toNat_ofNat, Nat.mod_eq_of_lt (by omega)]
  · have hused : p + ((vringInit num p (1#w <<< k)).used - p)
        = (vringInit num p (1#w <<< k)).used := add_sub_cancel _ _
    rw [Vring.parts_eq, hused, vringInit_avail_eq, add_zero]
    rfl

/-- The parts of a ring whose end fits the address space do not overlap. -/
theorem vringInit_disjoint (hk : k < w) (hfits : vringEnd p.toNat num.toNat (2 ^ k) ≤ 2 ^ w) :
    (vringInit num p (1#w <<< k)).parts.Pairwise Disjoint := by
  obtain ⟨c, d, hc, hd, hparts⟩ := vringInit_parts hk hfits
  have hle := le_alignUp (Nat.two_pow_pos k) (p.toNat + availEnd num.toNat)
  have hzero : (0 : BitVec w).toNat = 0 := BitVec.toNat_zero
  rw [vringEnd] at hfits
  rw [availEnd] at hle hd hfits
  rw [hparts]
  simp only [List.pairwise_cons, List.mem_cons, List.not_mem_nil, or_false, forall_eq_or_imp,
    forall_eq, IsEmpty.forall_iff, implies_true, List.Pairwise.nil, and_true]
  refine ⟨⟨?_, ?_⟩, ?_⟩
  · exact Set.disjoint_left.mpr (byteRange_disjoint (by omega) (by omega))
  · exact Set.disjoint_left.mpr (byteRange_disjoint (by omega) (by omega))
  · exact Set.disjoint_left.mpr (byteRange_disjoint (by omega) (by omega))

/-- They lie between `p` and the end of the used ring. -/
theorem vringInit_subset {n : ℕ} (hk : k < w) (hfits : vringEnd p.toNat num.toNat (2 ^ k) ≤ 2 ^ w)
    (hn : vringEnd p.toNat num.toNat (2 ^ k) ≤ p.toNat + n) :
    ∀ part ∈ (vringInit num p (1#w <<< k)).parts, part ⊆ byteRange p n := by
  obtain ⟨c, d, hc, hd, hparts⟩ := vringInit_parts hk hfits
  have hle := le_alignUp (Nat.two_pow_pos k) (p.toNat + availEnd num.toNat)
  have hzero : (0 : BitVec w).toNat = 0 := BitVec.toNat_zero
  rw [vringEnd] at hn
  rw [availEnd] at hle hd hn
  rw [hparts]
  simp only [List.mem_cons, List.not_mem_nil, or_false, forall_eq_or_imp, forall_eq]
  exact ⟨byteRange_subset (by omega), byteRange_subset (by omega), byteRange_subset (by omega)⟩

/-- `vring_size` is the number, if that fits its `unsigned`. -/
theorem toNat_vringSize (hw : 32 ≤ w) (hk : k < w) (hfits : vringBytes num.toNat (2 ^ k) < 2 ^ 32) :
    (vringSize num (1#w <<< k)).toNat = vringBytes num.toNat (2 ^ k) := by
  have hpos := Nat.two_pow_pos k
  have hword : 2 ^ 32 ≤ 2 ^ w := Nat.pow_le_pow_right two_pos hw
  have hle := le_alignUp hpos (availEnd num.toNat)
  rw [vringBytes] at hfits
  have hmask := add_mask_lt hk (by omega : alignUp (2 ^ k) (availEnd num.toNat) < 2 ^ w)
  have hthree : ((3 : BitVec 32) + num).toNat = 3 + num.toNat := by
    rw [availEnd] at hle
    rw [BitVec.toNat_add]
    exact Nat.mod_eq_of_lt (by omega : 3 + num.toNat < 2 ^ 32)
  have hinner : BitVec.ofNat w vringDescType.size * num.setWidth w
      + BitVec.ofNat w u16Type.size * (3 + num).setWidth w
      = BitVec.ofNat w (availEnd num.toNat) := by
    rw [← BitVec.ofNat_toNat w num, ← BitVec.ofNat_toNat w (3 + num), hthree, ← BitVec.ofNat_mul,
      ← BitVec.ofNat_mul, ← BitVec.ofNat_add, vringDescType_size, u16Type_size, availEnd,
      Nat.add_comm 3]
  have hnat : (BitVec.ofNat w (availEnd num.toNat)).toNat = availEnd num.toNat := by
    rw [BitVec.toNat_ofNat, Nat.mod_eq_of_lt (by omega)]
  have hround : ((BitVec.ofNat w (availEnd num.toNat) + 1#w <<< k - 1)
      &&& ~~~(1#w <<< k - 1)) = BitVec.ofNat w (alignUp (2 ^ k) (availEnd num.toNat)) := by
    rw [add_sub_assoc]
    refine BitVec.eq_of_toNat_eq ?_
    rw [BitVec.toNat_ofNat, Nat.mod_eq_of_lt (by omega)]
    have halign := toNat_align hk (by rwa [hnat])
    rwa [hnat] at halign
  have hthree' : (3 : BitVec w) = BitVec.ofNat w 3 := rfl
  unfold vringSize
  rw [hinner, hround, hthree', ← BitVec.ofNat_toNat w num, ← BitVec.ofNat_mul, ← BitVec.ofNat_mul,
    ← BitVec.ofNat_add, ← BitVec.ofNat_add, u16Type_size, vringUsedElemType_size,
    BitVec.toNat_setWidth, BitVec.toNat_ofNat, vringBytes]
  rw [Nat.mod_eq_of_lt (by omega : _ < 2 ^ w), Nat.mod_eq_of_lt (by omega)]
  omega

/-- With the two pages that `vm_setup_vq` takes, 128 descriptors fit. -/
theorem vringBytes_le {n : ℕ} (hn : n ≤ 128) : vringBytes n (2 ^ 12) ≤ 2 * 2 ^ 12 := by
  have hround : alignUp (2 ^ 12) (availEnd n) ≤ 2 ^ 12 := by
    refine alignUp_le (Nat.two_pow_pos 12) ?_ dvd_rfl
    rw [availEnd]
    omega
  rw [vringBytes]
  omega

/-- A ring in the two pages of `alloc_pages(1)`. -/
theorem vringInit_twoPages [PageGeom w] {m m' : Machine w} {l : List (BitVec w)} {queue : BitVec w}
    (hpage : pageShift w = 12) (hnum : num.toNat ≤ 128) (hl : m.FreeList l)
    (hrun : allocPages 1 m = some (queue, m')) (hqueue : queue ≠ 0) :
    (vringInit num queue pageSize).parts.Pairwise Disjoint ∧
      ∀ part ∈ (vringInit num queue pageSize).parts, part ⊆ byteRange queue (2 * 2 ^ 12) := by
  have hk : 12 < w := hpage ▸ pageShift_lt
  have hone : (1 : BitVec w).toNat = 1 := BitVec.toNat_one (by omega)
  obtain ⟨r, m₁, hrun', hcut⟩ := allocPages_spec hl (by rw [hone]; omega)
  rw [hrun] at hrun'
  cases hrun'
  have hblock : Block 1 queue := by
    rcases hcut with ⟨h0, -⟩ | ⟨-, -, hblock, -⟩
    · exact absurd h0 hqueue
    · rwa [hone] at hblock
  have hend := hblock.end_le
  have hmod := hblock.2
  rw [hpage] at hend hmod
  have hdvd : 2 ^ 12 ∣ queue.toNat :=
    (pow_dvd_pow 2 (Nat.le_add_left 12 1)).trans (Nat.dvd_of_mod_eq_zero hmod)
  have hbytes := vringBytes_le hnum
  have heq := vringEnd_eq (n := num.toNat) (Nat.two_pow_pos 12) hdvd
  have hfits : vringEnd queue.toNat num.toNat (2 ^ 12) ≤ 2 ^ w := by omega
  rw [pageSize, hpage]
  exact ⟨vringInit_disjoint hk hfits, vringInit_subset hk hfits (by omega)⟩

/-- A ring whose end fits the address space : the parts lie from `p` on with
their sizes, they do not overlap, and the used ring lies at a multiple of `align`. For a `p` that is
a multiple of `align` this is one relative to `p`, and the end of the used ring is at most
`vring_size` behind `p`. For 128 descriptors and pages this is within the two pages of
`vm_setup_vq`. -/
theorem vringInit_spec [PageGeom w] (hw : 32 ≤ w) (num : BitVec 32) :
    (∀ (p : BitVec w) (k : ℕ), k < w → vringEnd p.toNat num.toNat (2 ^ k) ≤ 2 ^ w →
      let v := vringInit num p (1#w <<< k)
      v.parts = [byteRange p (16 * num.toNat), byteRange v.avail (2 * (num.toNat + 3)),
        byteRange v.used (8 * num.toNat + 6)] ∧
      v.parts.Pairwise Disjoint ∧
      (∀ part ∈ v.parts,
        part ⊆ byteRange p (vringEnd p.toNat num.toNat (2 ^ k) - p.toNat)) ∧
      v.used.toNat % 2 ^ k = 0 ∧
      (p.toNat % 2 ^ k = 0 → (v.used - p).toNat % 2 ^ k = 0 ∧
        (vringBytes num.toNat (2 ^ k) < 2 ^ 32 →
          (v.used - p).toNat + (8 * num.toNat + 6) ≤ (vringSize num (1#w <<< k)).toNat))) ∧
    (pageShift w = 12 → num.toNat ≤ 128 →
      ∀ (m m' : Machine w) (l : List (BitVec w)) (queue : BitVec w), m.FreeList l →
        allocPages 1 m = some (queue, m') → queue ≠ 0 →
        let v := vringInit num queue pageSize
        v.parts.Pairwise Disjoint ∧ ∀ part ∈ v.parts, part ⊆ byteRange queue (2 * 2 ^ 12)) := by
  refine ⟨fun p k hk hfits => ?_, fun hpage hnum m m' l queue hl hrun hqueue =>
    vringInit_twoPages hpage hnum hl hrun hqueue⟩
  have hpos := Nat.two_pow_pos k
  have hused := toNat_vringInit_used hk hfits
  have hsub := toNat_used_sub hk hfits
  have hend : p.toNat ≤ vringEnd p.toNat num.toNat (2 ^ k) := by
    have hle := le_alignUp hpos (p.toNat + availEnd num.toNat)
    rw [vringEnd]
    omega
  refine ⟨Vring.parts_eq _, vringInit_disjoint hk hfits,
    vringInit_subset hk hfits (Nat.add_sub_of_le hend).ge, ?_, fun hp => ?_⟩
  · rw [hused]
    exact Nat.mod_eq_zero_of_dvd (dvd_alignUp _ _)
  · rw [alignUp_add hpos (Nat.dvd_of_mod_eq_zero hp), Nat.add_sub_cancel_left] at hsub
    refine ⟨?_, fun hsize => ?_⟩
    · rw [hsub]
      exact Nat.mod_eq_zero_of_dvd (dvd_alignUp _ _)
    · rw [hsub, toNat_vringSize hw hk hsize]
      rfl

end Layout

/-- Of 128 descriptors at `0x4000` the used ring ends 5126 bytes behind it. -/
theorem vringInit_spec_pages :
    (vringInit 128 (0x4000 : BitVec 64) (1#64 <<< 12)).parts.Pairwise Disjoint ∧
      ((vringInit 128 (0x4000 : BitVec 64) (1#64 <<< 12)).used - 0x4000).toNat + 1030
        ≤ (vringSize 128 (1#64 <<< 12)).toNat := by
  obtain ⟨hlayout, -⟩ := vringInit_spec (w := 64) (by norm_num) 128
  obtain ⟨-, hdisjoint, -, -, hsize⟩ := hlayout 0x4000 12 (by norm_num) (by decide)
  exact ⟨hdisjoint, (hsize (by decide)).2 (by decide)⟩

end AcrnUt
