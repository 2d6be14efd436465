import AcrnUt.CLayout
import AcrnUt.Heap
import AcrnUt.VirtqueuePoll

/-!
# The private part of a virtqueue

`vm_setup_vq` of `lib/virtio-mmio.c` allocates a `struct vring_virtqueue` with
`calloc(1, sizeof(*vq))`. The structure ends in the flexible array `data[]`, which is no part of its
size, and `vring_init_virtqueue`, `virtqueue_add_outbuf` and `detach_buf` store to one element of it
for each descriptor. On arm and on arm64 the object ends where `data[]` begins, so these stores lie
behind it, in every run (`VqObject.data_outside`).

`VqObject` is a queue with the address and the size of its object, and the indices in `data[]` that
it has stored to : the functions change no other element (`init_data`, `exec_data`). The device may
put into the used ring whatever it likes.
-/

set_option linter.unusedSectionVars false

namespace AcrnUt

variable {w : ℕ} {σ : Type*}

/-! ## The layout -/

/-- A pointer. -/
def ptrType (w : ℕ) : CType :=
  ⟨w / 8, w / 8⟩

/-- `u16` and `unsigned int`. -/
def u16Type : CType :=
  ⟨2, 2⟩

@[inherit_doc u16Type] def u32Type : CType :=
  ⟨4, 4⟩

/-- `struct virtqueue` : `callback`, `name`, `vdev`, `index`, `num_free`, `priv`. -/
def virtqueueType (w : ℕ) : CType :=
  .struct [ptrType w, ptrType w, ptrType w, u32Type, u32Type, ptrType w]

/-- `struct vring` : `num`, `desc`, `avail`, `used`. -/
def vringType (w : ℕ) : CType :=
  .struct [u32Type, ptrType w, ptrType w, ptrType w]

/-- The members of `struct vring_virtqueue` before `data[]` : `vq`, `vring`, `free_head`,
`num_added`, `last_used_idx`, `notify`. -/
def vringVirtqueueMembers (w : ℕ) : List CType :=
  [virtqueueType w, vringType w, u32Type, u32Type, u16Type, ptrType w]

/-- `struct vring_virtqueue`. -/
def vringVirtqueueType (w : ℕ) : CType :=
  .flexStruct (vringVirtqueueMembers w) (ptrType w)

/-- `offsetof(struct vring_virtqueue, data)`. -/
def dataOffset (w : ℕ) : ℕ :=
  CType.flexOffset (vringVirtqueueMembers w) (ptrType w)

/-! ## The source -/

/-- A virtio-mmio device : what it answers at an offset, after the writes it has seen. -/
structure VmDevice where
  answer : List (ℕ × BitVec 32) → ℕ → BitVec 32
  writes : List (ℕ × BitVec 32)

namespace VmDevice

/-- `readl`. -/
def readl (dev : VmDevice) (offset : ℕ) : BitVec 32 :=
  dev.answer dev.writes offset

/-- `writel`. -/
def writel (dev : VmDevice) (val : BitVec 32) (offset : ℕ) : VmDevice :=
  { dev with writes := dev.writes ++ [(offset, val)] }

end VmDevice

/-- A queue with the address of its `struct vring_virtqueue`, the size that was asked of `calloc`,
and the indices of the elements of `data[]` that were stored to, in order, as the address arithmetic
extends them. -/
structure VqObject (w : ℕ) where
  ptr : BitVec w
  size : BitVec w
  vq : VringVirtqueue w
  stored : List (BitVec w)

/-- The indices that the loop of `vring_init_virtqueue` stores to, from `i`. -/
def vringInitVirtqueue.stored (w : ℕ) : ℕ → BitVec 32 → List (BitVec w)
  | 0, i => [i.setWidth w]
  | left + 1, i => i.setWidth w :: vringInitVirtqueue.stored w left (i + 1)

/-- `VIRTIO_MMIO_QUEUE_NUM_MIN`. -/
def virtioMmioQueueNumMin : BitVec 32 :=
  128

/-- `vm_setup_vq`. `none` stands for a failed assertion, and a null result is `none` too, in the
place of the queue. -/
def vmSetupVq [PageGeom w] (ops : AllocOps w σ) (allocPages : BitVec w → σ → Option (BitVec w × σ))
    (virtToPfn : BitVec w → BitVec 32) (data : ℕ → BitVec w) (index : BitVec 32) (dev : VmDevice)
    (s : σ) : Option (Option (VqObject w) × VmDevice × σ) := do
  let num := virtioMmioQueueNumMin
  let size := BitVec.ofNat w (vringVirtqueueType w).size
  let r ← calloc ops 1 size s
  let (queue, s) ← allocPages 1 r.state
  if r.ptr = 0 ∨ queue = 0 then none
  else
    let dev := dev.writel index 0x030
    if dev.readl 0x034 < num then none
    else if dev.readl 0x040 ≠ 0 then some (none, dev, s)
    else
      let dev := dev.writel num 0x038
      let dev := dev.writel (BitVec.setWidth 32 (pageSize : BitVec w)) 0x03c
      let dev := dev.writel (virtToPfn queue) 0x040
      some (some {
        ptr := r.ptr
        size := size
        vq := vringInitVirtqueue num data
        stored := vringInitVirtqueue.stored w (num - 1).toNat 0 }, dev, s)

/-- A call on the queue, or what the device makes of the used ring. -/
inductive VqCall (w : ℕ)
  | addOutbuf (buf : BitVec w) (len : BitVec 32)
  | getBuf
  | device (usedIdx : BitVec 16) (usedRing : ℕ → VringUsedElem)

namespace VqCall

/-- The queue after a call that returns. -/
def exec (virtToPhys : BitVec w → BitVec 64) : VqCall w → VringVirtqueue w →
    Option (VringVirtqueue w)
  | addOutbuf buf len, vq => (virtqueueAddOutbuf virtToPhys buf len vq).map (·.2)
  | getBuf, vq => (virtqueueGetBuf vq).map (·.2.2)
  | device usedIdx usedRing, vq => some { vq with usedIdx := usedIdx, usedRing := usedRing }

/-- The indices that a call stores to : `virtqueue_add_outbuf` keeps the index in an `int`,
`detach_buf` in an `unsigned`. -/
def stored (vq : VringVirtqueue w) : VqCall w → List (BitVec w)
  | addOutbuf _ _ => if vq.numFree = 0 then [] else [vq.freeHead.signExtend w]
  | getBuf => [vq.polled.id.setWidth w]
  | device _ _ => []

end VqCall

namespace VqObject

/-- A call that returns. -/
def call (virtToPhys : BitVec w → BitVec 64) (q : VqObject w) (c : VqCall w) :
    Option (VqObject w) :=
  (c.exec virtToPhys q.vq).map fun vq => { q with vq := vq, stored := q.stored ++ c.stored q.vq }

/-- Calls, one after another. -/
def run (virtToPhys : BitVec w → BitVec 64) (q : VqObject w) (calls : List (VqCall w)) :
    Option (VqObject w) :=
  calls.foldlM (call virtToPhys) q

/-- `&vq->data[i]`. -/
def dataAddr (q : VqObject w) (i : BitVec w) : BitVec w :=
  q.ptr + BitVec.ofNat w (dataOffset w) + wordSize w * i

/-- A byte of the object that `calloc` returned. -/
def InObject (q : VqObject w) (a : BitVec w) : Prop :=
  a - q.ptr < q.size

/-- The stores to `data[]` fall inside the object. -/
def Contained (q : VqObject w) : Prop :=
  ∀ i ∈ q.stored, ∀ k < w / 8, q.InObject (q.dataAddr i + BitVec.ofNat w k)

/-! ## The record of the stores -/

section Stored

variable {vq vq' : VringVirtqueue w} {j : ℕ}

/-- `vring_init_virtqueue` changes no element that it is not recorded to store to. -/
theorem init_data (hw : 32 ≤ w) {left i : ℕ} (hfits : i + left < 2 ^ 32)
    (hj : ∀ x ∈ vringInitVirtqueue.stored w left (BitVec.ofNat 32 i), x.toNat ≠ j) :
    (vringInitVirtqueue.loop left i vq).data j = vq.data j := by
  have hindex : ∀ i < 2 ^ 32, ((BitVec.ofNat 32 i).setWidth w).toNat = i := fun i hi => by
    rw [BitVec.toNat_setWidth_of_le hw, BitVec.toNat_ofNat, Nat.mod_eq_of_lt hi]
  induction left generalizing i vq with
  | zero =>
    have hne := hj _ (List.mem_singleton_self _)
    rw [hindex i (by omega)] at hne
    exact Function.update_of_ne hne.symm _ _
  | succ left ih =>
    have hne := hj _ List.mem_cons_self
    rw [hindex i (by omega)] at hne
    rw [vringInitVirtqueue.loop, ih (by omega) fun x hx => hj x (List.mem_cons_of_mem _ ?_)]
    · exact Function.update_of_ne hne.symm _ _
    · rwa [BitVec.ofNat_add] at hx

/-- Nor does a call, as long as `free_head` is no negative `int`. -/
theorem exec_data {virtToPhys : BitVec w → BitVec 64} {c : VqCall w} (hw : 32 ≤ w)
    (hexec : c.exec virtToPhys vq = some vq') (hhead : vq.freeHead.toNat < 2 ^ 31)
    (hj : ∀ x ∈ c.stored vq, x.toNat ≠ j) : vq'.data j = vq.data j := by
  rcases c with ⟨buf, len⟩ | _ | ⟨usedIdx, usedRing⟩
  · obtain ⟨⟨ret, vq₁⟩, hadd, rfl⟩ := Option.map_eq_some_iff.mp hexec
    unfold virtqueueAddOutbuf at hadd
    unfold VqCall.stored at hj
    split_ifs at hadd hj
    · cases hadd
      rfl
    · have hne := hj _ (List.mem_singleton_self _)
      rw [BitVec.signExtend_eq_setWidth_of_msb_false
        (BitVec.msb_eq_false_iff_two_mul_lt.mpr (by omega)), BitVec.toNat_setWidth_of_le hw] at hne
      cases hadd
      exact Function.update_of_ne hne.symm _ _
  · obtain ⟨⟨ret, len, vq₁⟩, hget, rfl⟩ := Option.map_eq_some_iff.mp hexec
    obtain ⟨vq₂, hdetach, heq⟩ := Option.map_eq_some_iff.mp hget
    obtain ⟨⟨i, numFree⟩, -, rfl⟩ := Option.map_eq_some_iff.mp hdetach
    have hne := hj _ (List.mem_singleton_self _)
    rw [BitVec.toNat_setWidth_of_le hw] at hne
    cases heq
    exact Function.update_of_ne hne.symm _ _
  · cases hexec
    rfl

end Stored

/-! ## The object ends where the array begins -/

section Layout

variable {q : VqObject w} {i : BitVec w} {k : ℕ}

/-- The size of the structure leaves no room for `data[]`. -/
theorem size_eq (hw : w = 32 ∨ w = 64) : (vringVirtqueueType w).size = dataOffset w := by
  rcases hw with rfl | rfl
  · exact CType.size_flexStruct (by decide) (by decide)
  · exact CType.size_flexStruct (by decide) (by decide)

/-- The first `2 ^ 16` elements do not come round the address space. -/
theorem dataOffset_fits (hw : w = 32 ∨ w = 64) : dataOffset w + w / 8 * 2 ^ 16 ≤ 2 ^ w := by
  rcases hw with rfl | rfl <;> decide

/-- How far a byte of an element lies from the start of the object. -/
theorem toNat_dataAddr_sub (hw : w = 32 ∨ w = 64) (hi : i.toNat < 2 ^ 16) (hk : k < w / 8) :
    (q.dataAddr i + BitVec.ofNat w k - q.ptr).toNat = dataOffset w + w / 8 * i.toNat + k := by
  have hfits := dataOffset_fits hw
  have helem : w / 8 * i.toNat + w / 8 ≤ w / 8 * 2 ^ 16 := Nat.mul_le_mul_left _ hi
  have hsub : q.dataAddr i + BitVec.ofNat w k - q.ptr =
      BitVec.ofNat w (dataOffset w + w / 8 * i.toNat + k) := by
    have hi' : BitVec.ofNat w i.toNat = i := BitVec.ofNat_toNat w i ▸ BitVec.setWidth_eq i
    unfold dataAddr wordSize
    rw [BitVec.ofNat_add, BitVec.ofNat_add, BitVec.ofNat_mul, hi', BitVec.add_assoc q.ptr,
      BitVec.add_assoc q.ptr, BitVec.add_comm q.ptr, BitVec.add_sub_cancel]
  rw [hsub, BitVec.toNat_ofNat]
  exact Nat.mod_eq_of_lt (by omega)

theorem not_inObject (hw : w = 32 ∨ w = 64)
    (hsize : q.size = BitVec.ofNat w (vringVirtqueueType w).size) (hi : i.toNat < 2 ^ 16)
    (hk : k < w / 8) : ¬q.InObject (q.dataAddr i + BitVec.ofNat w k) := by
  unfold InObject
  rw [BitVec.lt_def, toNat_dataAddr_sub hw hi hk, hsize, size_eq hw, BitVec.toNat_ofNat]
  have hmod := Nat.mod_le (dataOffset w) (2 ^ w)
  omega

end Layout

/-! ## Runs -/

section Runs

variable {virtToPhys : BitVec w → BitVec 64} {q q' : VqObject w} {calls : List (VqCall w)}

/-- A run leaves the object where it is, and the stores made stay made. -/
theorem run_spec (hrun : q.run virtToPhys calls = some q') :
    q'.ptr = q.ptr ∧ q'.size = q.size ∧ ∀ i ∈ q.stored, i ∈ q'.stored := by
  induction calls generalizing q with
  | nil =>
    cases hrun
    exact ⟨rfl, rfl, fun _ hi => hi⟩
  | cons c calls ih =>
    obtain ⟨q₁, hcall, hrest⟩ := Option.bind_eq_some_iff.mp
      (show (call virtToPhys q c).bind (run virtToPhys · calls) = some q' from hrun)
    obtain ⟨vq, -, rfl⟩ := Option.map_eq_some_iff.mp hcall
    obtain ⟨hptr, hsize, hstored⟩ := ih hrest
    exact ⟨hptr, hsize, fun i hi => hstored i (List.mem_append_left _ hi)⟩

/-- `vring_init_virtqueue` stores to the first element. -/
theorem mem_stored_init (left : ℕ) (i : BitVec 32) :
    i.setWidth w ∈ vringInitVirtqueue.stored w left i := by
  rcases left with _ | left
  · exact List.mem_singleton_self _
  · exact List.mem_cons_self

/-- A queue that `vm_setup_vq` returns has the size of its structure, and has stored to the first
element. -/
theorem stored_of_setup [PageGeom w] {ops : AllocOps w σ}
    {allocPages : BitVec w → σ → Option (BitVec w × σ)} {virtToPfn : BitVec w → BitVec 32}
    {data : ℕ → BitVec w} {index : BitVec 32} {dev dev' : VmDevice} {s s' : σ}
    (h : vmSetupVq ops allocPages virtToPfn data index dev s = some (some q, dev', s')) :
    q.size = BitVec.ofNat w (vringVirtqueueType w).size ∧ 0 ∈ q.stored := by
  obtain ⟨r, -, h⟩ := Option.bind_eq_some_iff.mp h
  obtain ⟨⟨queue, s₁⟩, -, h⟩ := Option.bind_eq_some_iff.mp h
  dsimp only at h
  split_ifs at h
  · cases h
  · cases h
    have hmem := mem_stored_init (w := w) (virtioMmioQueueNumMin - 1).toNat 0
    rw [show (0 : BitVec 32).setWidth w = 0 from BitVec.setWidth_zero w 32] at hmem
    exact ⟨rfl, hmem⟩

/-- For every allocator, every device and every run of calls on a queue from `vm_setup_vq` : the
stores to `data[]` do not all fall inside the object that `calloc` returned. No byte stored to an
element of the first `2 ^ 16`, as many as the descriptors of a queue can be, falls inside. -/
theorem data_outside [PageGeom w] {ops : AllocOps w σ}
    {allocPages : BitVec w → σ → Option (BitVec w × σ)} {virtToPfn : BitVec w → BitVec 32}
    {data : ℕ → BitVec w} {index : BitVec 32} {dev dev' : VmDevice} {s s' : σ}
    (hw : w = 32 ∨ w = 64)
    (hsetup : vmSetupVq ops allocPages virtToPfn data index dev s = some (some q, dev', s'))
    (hrun : q.run virtToPhys calls = some q') :
    ¬q'.Contained ∧ ∀ i ∈ q'.stored, i.toNat < 2 ^ 16 → ∀ k < w / 8,
      ¬q'.InObject (q'.dataAddr i + BitVec.ofNat w k) := by
  obtain ⟨hsize, hmem⟩ := stored_of_setup hsetup
  obtain ⟨-, hkept, hstored⟩ := run_spec hrun
  have hsize := hkept.trans hsize
  refine ⟨fun hcontained => ?_, fun i _ hi k hk => not_inObject hw hsize hi hk⟩
  have hpos : 0 < w / 8 := by rcases hw with rfl | rfl <;> norm_num
  refine not_inObject hw hsize ?_ hpos (hcontained 0 (hstored 0 hmem) 0 hpos)
  rw [show (0 : BitVec w).toNat = 0 from BitVec.toNat_zero]
  norm_num

/-! ## A sample on arm64 -/

/-- A device with queues of 1024 descriptors, none of them set up. -/
def sampleDevice : VmDevice where
  answer _ offset := if offset = 0x034 then 1024 else 0
  writes := []

/-- arm64. -/
abbrev arm64Geom : PageGeom 64 where
  pageShift := 16
  pageShift_lt := by decide

/-- Four pages of 64K, from `0x40000` on. -/
def arm64Pages : Machine 64 where
  mem a :=
    if a = 0x40000 then 0x50000 else if a = 0x50000 then 0x60000
    else if a = 0x60000 then 0x70000 else 0
  freelist := 0x40000
  denied := false

/-- A queue on the page backend. -/
def sampleSetup : Option (Option (VqObject 64) × VmDevice × Machine 64) :=
  @vmSetupVq 64 _ arm64Geom (@pageAllocOps 64 arm64Geom) (@allocPages 64 arm64Geom)
    (fun queue => (queue >>> 16).setWidth 32) (fun _ => 7) 0 sampleDevice arm64Pages

/-- A buffer added, used by the device and taken back. -/
def sampleCalls : List (VqCall 64) :=
  [.addOutbuf 0x9000 5, .device 1 fun _ => ⟨0, 5⟩, .getBuf]

theorem sampleSetup_run : ∃ q dev' s' q', sampleSetup = some (some q, dev', s') ∧
    q.run id sampleCalls = some q' := by
  have h : (sampleSetup.bind fun r => r.1.bind fun q => q.run id sampleCalls).isSome = true := by
    decide
  obtain ⟨q', hq'⟩ := Option.isSome_iff_exists.mp h
  obtain ⟨⟨q, dev', s'⟩, hsetup, hq⟩ := Option.bind_eq_some_iff.mp hq'
  obtain ⟨q, rfl, hrun⟩ := Option.bind_eq_some_iff.mp hq
  exact ⟨q, dev', s', q', hsetup, hrun⟩

/-- In a run of both calls. -/
theorem data_outside_sample : ∃ q dev' s' q', sampleSetup = some (some q, dev', s') ∧
    q.run id sampleCalls = some q' ∧ ¬q'.Contained := by
  obtain ⟨q, dev', s', q', hsetup, hrun⟩ := sampleSetup_run
  exact ⟨q, dev', s', q', hsetup, hrun,
    (@data_outside 64 _ _ _ _ _ arm64Geom _ _ _ _ _ _ _ _ _ (Or.inr rfl) hsetup hrun).1⟩

/-- Before any call, the 96 bytes of the object end where the first store begins. -/
theorem first_store_outside : ∃ q dev' s', sampleSetup = some (some q, dev', s') ∧ 0 ∈ q.stored ∧
    q.size = 96 ∧ q.dataAddr 0 = q.ptr + 96 ∧ ¬q.Contained := by
  obtain ⟨q, dev', s', -, hsetup, -⟩ := sampleSetup_run
  obtain ⟨hsize, hmem⟩ := @stored_of_setup 64 _ _ arm64Geom _ _ _ _ _ _ _ _ _ hsetup
  refine ⟨q, dev', s', hsetup, hmem, hsize, ?_, fun hcontained => ?_⟩
  · show q.ptr + BitVec.ofNat 64 (dataOffset 64) + 0 = _
    exact BitVec.add_zero _
  · exact not_inObject (Or.inr rfl) hsize (by decide) (by decide)
      (hcontained 0 hmem 0 (by decide))

end Runs

end VqObject

end AcrnUt
