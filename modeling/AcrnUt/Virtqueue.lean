import AcrnUt.Chain
import Mathlib.Tactic

/-!
# Virtqueues

`lib/virtio.c` on a queue with `w`-bit pointers. The rings are the arrays that `vring_init`
places in the queue's pages; an index of an array is a natural number. `none` stands for a
failed assertion or a run that never returns.

Free descriptors are linked through `next` from `free_head`. The last of them keeps the link
it had, so the list is as long as `num_free` says, not until a null link. The 16-bit indices
of the rings count entries modulo `2^16`, and an entry's slot is its index modulo the size of
the ring, a power of two (`slot_ofNat`).
-/

set_option linter.unusedSectionVars false

namespace AcrnUt

variable {w : ℕ}

/-! ## The source -/

/-- `VRING_DESC_F_NEXT`. -/
def vringDescFNext : BitVec 16 :=
  1

/-- `struct vring_desc`. -/
structure VringDesc where
  addr : BitVec 64
  len : BitVec 32
  flags : BitVec 16
  next : BitVec 16

/-- `struct vring_used_elem`. -/
structure VringUsedElem where
  id : BitVec 32
  len : BitVec 32

/-- `struct vring_virtqueue`, with the rings it points to. The flags of the rings are not
used. -/
structure VringVirtqueue (w : ℕ) where
  num : BitVec 32
  numFree : BitVec 32
  freeHead : BitVec 32
  numAdded : BitVec 32
  lastUsedIdx : BitVec 16
  data : ℕ → BitVec w
  desc : ℕ → VringDesc
  availIdx : BitVec 16
  availRing : ℕ → BitVec 16
  usedIdx : BitVec 16
  usedRing : ℕ → VringUsedElem

/-- The loop of `vring_init_virtqueue`, from `i`. -/
def vringInitVirtqueue.loop : ℕ → ℕ → VringVirtqueue w → VringVirtqueue w
  | 0, i, vq => { vq with data := Function.update vq.data i 0 }
  | left + 1, i, vq =>
    vringInitVirtqueue.loop left (i + 1) { vq with
      desc := Function.update vq.desc i { vq.desc i with next := BitVec.ofNat 16 (i + 1) }
      data := Function.update vq.data i 0 }

/-- `vring_init_virtqueue`, over zeroed pages and a structure whose `data` is arbitrary. -/
def vringInitVirtqueue (num : BitVec 32) (data : ℕ → BitVec w) : VringVirtqueue w :=
  vringInitVirtqueue.loop (num - 1).toNat 0
    { num := num, numFree := num, freeHead := 0, numAdded := 0, lastUsedIdx := 0, data := data,
      desc := fun _ => ⟨0, 0, 0, 0⟩, availIdx := 0, availRing := fun _ => 0, usedIdx := 0,
      usedRing := fun _ => ⟨0, 0⟩ }

/-- `virtqueue_add_outbuf` up to its barrier, once it has found a free descriptor. -/
def virtqueueAddOutbuf.fill (virtToPhys : BitVec w → BitVec 64) (buf : BitVec w)
    (len : BitVec 32) (vq : VringVirtqueue w) : VringVirtqueue w :=
  let head := vq.freeHead
  let desc := Function.update vq.desc head.toNat
    { vq.desc head.toNat with flags := 0, addr := virtToPhys buf, len := len }
  let avail := vq.availIdx.setWidth 32 &&& (vq.num - 1)
  { vq with
    numFree := vq.numFree - 1
    desc := desc
    freeHead := (desc head.toNat).next.setWidth 32
    data := Function.update vq.data head.toNat buf
    availRing := Function.update vq.availRing avail.toNat (head.setWidth 16) }

/-- `virtqueue_add_outbuf` after its barrier. -/
def virtqueueAddOutbuf.publish (vq : VringVirtqueue w) : VringVirtqueue w :=
  { vq with availIdx := vq.availIdx + 1, numAdded := vq.numAdded + 1 }

/-- `virtqueue_add_outbuf`. -/
def virtqueueAddOutbuf (virtToPhys : BitVec w → BitVec 64) (buf : BitVec w) (len : BitVec 32)
    (vq : VringVirtqueue w) : Option (Int × VringVirtqueue w) :=
  if buf = 0 then none
  else if len = 0 then none
  else if vq.numFree = 0 then some (-1, vq)
  else some (0, virtqueueAddOutbuf.publish (virtqueueAddOutbuf.fill virtToPhys buf len vq))

/-- The loop of `detach_buf` : the end of the chain of a buffer, and `num_free` there. A chain
visits no descriptor twice, so there are fewer than `2^16 + 1` turns. -/
def detachBuf.loop (desc : ℕ → VringDesc) : ℕ → BitVec 32 → BitVec 32 →
    Option (BitVec 32 × BitVec 32)
  | 0, _, _ => none
  | fuel + 1, i, numFree =>
    if (desc i.toNat).flags &&& vringDescFNext ≠ 0 then
      detachBuf.loop desc fuel ((desc i.toNat).next.setWidth 32) (numFree + 1)
    else some (i, numFree)

/-- `detach_buf`. -/
def detachBuf (head : BitVec 32) (vq : VringVirtqueue w) : Option (VringVirtqueue w) :=
  let data := Function.update vq.data head.toNat 0
  (detachBuf.loop vq.desc (2 ^ 16 + 1) head vq.numFree).map fun (i, numFree) => { vq with
    data := data
    desc := Function.update vq.desc i.toNat
      { vq.desc i.toNat with next := vq.freeHead.setWidth 16 }
    freeHead := head
    numFree := numFree + 1 }

/-- `virtqueue_get_buf` : the buffer, `*len`, and the queue. -/
def virtqueueGetBuf (vq : VringVirtqueue w) :
    Option (BitVec w × BitVec 32 × VringVirtqueue w) :=
  let lastUsed := (vq.lastUsedIdx.setWidth 32 &&& (vq.num - 1)).setWidth 16
  let i := (vq.usedRing lastUsed.toNat).id
  let len := (vq.usedRing lastUsed.toNat).len
  let ret := vq.data i.toNat
  (detachBuf i vq).map fun vq => (ret, len, { vq with lastUsedIdx := vq.lastUsedIdx + 1 })

/-! ## Slots -/

section Slots

variable {k : ℕ}

/-- An index's slot is the count behind it modulo the size of the ring. -/
theorem slot_ofNat (hk : k ≤ 15) (n : ℕ) :
    ((BitVec.ofNat 16 n).setWidth 32 &&& (BitVec.ofNat 32 (2 ^ k) - 1)).toNat = n % 2 ^ k := by
  have hlt : 2 ^ k ≤ 2 ^ 15 := Nat.pow_le_pow_right (by decide) hk
  have hpos := Nat.two_pow_pos k
  have hmask : (BitVec.ofNat 32 (2 ^ k) - 1).toNat = 2 ^ k - 1 := by
    rw [BitVec.toNat_sub_of_le, BitVec.toNat_ofNat, Nat.mod_eq_of_lt (by omega)]
    · rfl
    · rw [BitVec.le_def, BitVec.toNat_ofNat, Nat.mod_eq_of_lt (by omega)]
      exact hpos
  have hdvd : 2 ^ k ∣ 2 ^ 16 := Nat.pow_dvd_pow 2 (by omega)
  have hn : ((BitVec.ofNat 16 n).setWidth 32).toNat = n % 2 ^ 16 := by
    rw [BitVec.toNat_setWidth, BitVec.toNat_ofNat]
    exact Nat.mod_eq_of_lt (lt_trans (Nat.mod_lt n (by decide)) (by decide))
  rw [BitVec.toNat_and, hmask, Nat.and_two_pow_sub_one_eq_mod, hn, Nat.mod_mod_of_dvd _ hdvd]

theorem slot_ofNat_setWidth (hk : k ≤ 15) (n : ℕ) :
    (((BitVec.ofNat 16 n).setWidth 32 &&& (BitVec.ofNat 32 (2 ^ k) - 1)).setWidth 16).toNat =
      n % 2 ^ k := by
  have hlt : 2 ^ k ≤ 2 ^ 15 := Nat.pow_le_pow_right (by decide) hk
  have hmod := Nat.mod_lt n (Nat.two_pow_pos k)
  rw [BitVec.toNat_setWidth, slot_ofNat hk]
  exact Nat.mod_eq_of_lt (by omega)

/-- Entries less than a ring apart have different slots. -/
theorem slot_ne {i j N : ℕ} (hij : i < j) (hj : j - i < N) : i % N ≠ j % N := by
  intro h
  have hzero := Nat.sub_mod_eq_zero_of_mod_eq h.symm
  rw [Nat.mod_eq_of_lt hj] at hzero
  omega

/-- Counts less than `2^16` apart have different indices. -/
theorem ofNat_ne {i j : ℕ} (hij : i < j) (hj : j - i < 2 ^ 16) :
    BitVec.ofNat 16 i ≠ BitVec.ofNat 16 j := by
  intro h
  have h' := congrArg BitVec.toNat h
  rw [BitVec.toNat_ofNat, BitVec.toNat_ofNat] at h'
  exact slot_ne hij hj h'

theorem ofNat_add_one (n : ℕ) : BitVec.ofNat 16 n + 1 = BitVec.ofNat 16 (n + 1) :=
  (BitVec.ofNat_add ..).symm

end Slots

/-! ## The start of the free list -/

theorem seg_range' {next : ℕ → ℕ} : ∀ {n i : ℕ}, (∀ j, i ≤ j → j + 1 < i + n → next j = j + 1) →
    ∃ q, Seg next i (List.range' i n) q
  | 0, i, _ => ⟨i, rfl⟩
  | 1, i, _ => ⟨next i, rfl, rfl⟩
  | n + 2, i, h => by
    obtain ⟨q, hq⟩ := @seg_range' next (n + 1) (i + 1) fun j hj hlt => h j (by omega) (by omega)
    refine ⟨q, rfl, ?_⟩
    rw [h i le_rfl (by omega)]
    exact hq

/-- The loop of `vring_init_virtqueue` links the descriptors from `i` on. -/
theorem vringInitVirtqueue.loop_spec : ∀ (left i : ℕ) (vq : VringVirtqueue w),
    ∃ desc data, vringInitVirtqueue.loop left i vq = { vq with desc := desc, data := data } ∧
      (∀ j, (desc j).flags = (vq.desc j).flags) ∧ (∀ j < i, desc j = vq.desc j) ∧
      ∀ j, i ≤ j → j < i + left → (desc j).next = BitVec.ofNat 16 (j + 1)
  | 0, i, vq => ⟨_, _, rfl, fun _ => rfl, fun _ _ => rfl, fun j hj hlt => absurd hj (by omega)⟩
  | left + 1, i, vq => by
    obtain ⟨desc, data, heq, hflags, hframe, hnext⟩ := loop_spec left (i + 1) { vq with
      desc := Function.update vq.desc i { vq.desc i with next := BitVec.ofNat 16 (i + 1) }
      data := Function.update vq.data i 0 }
    refine ⟨desc, data, heq, fun j => ?_, fun j hj => ?_, fun j hj hlt => ?_⟩
    · rw [hflags]
      dsimp only
      by_cases hji : j = i
      · rw [hji, Function.update_self]
      · rw [Function.update_of_ne hji]
    · rw [hframe j (Nat.lt_succ_of_lt hj)]
      exact Function.update_of_ne hj.ne _ _
    · rcases hj.lt_or_eq with hj | rfl
      · exact hnext j hj (by omega)
      · rw [hframe i (Nat.lt_succ_self i)]
        dsimp only
        rw [Function.update_self]

end AcrnUt
