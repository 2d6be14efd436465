import AcrnUt.Virtqueue

/-!
# Runs of a virtqueue

A driver and a device share a queue. The driver adds buffers, in two steps around its
barrier, and polls `virtqueue_get_buf`. The device takes available heads in their order,
holds them, and completes those it holds in any order, again in two steps : it writes a used
entry, then the index. The requests made, the entries published and the buffers returned
are recorded beside the queue (`VqRun`).

As long as no poll finds the used ring empty, a run keeps `VqRun.Inv` : the free list and
the heads in flight share out the descriptors, and the four counts of requests, fetched
heads, published entries and returned buffers are the indices modulo `2^16`.
-/

set_option linter.unusedSectionVars false

namespace AcrnUt

variable {w : ℕ}

/-- A request : the descriptor and the buffer of a successful `virtqueue_add_outbuf`. -/
structure VqRequest (w : ℕ) where
  head : ℕ
  buf : BitVec w

/-- A used entry : which request it completes, its head, and the length written. -/
structure VqUsed where
  seq : ℕ
  head : BitVec 16
  len : BitVec 32

/-- The queue, with its driver and its device. `adding` says that the driver is at its
barrier. The device holds the heads it has taken, with their count, and `putting` is a used
entry it has written but not published. -/
structure VqRun (w : ℕ) where
  vq : VringVirtqueue w
  adding : Bool
  fetched : ℕ
  held : List (ℕ × BitVec 16)
  putting : Option VqUsed
  adds : List (VqRequest w)
  used : List VqUsed
  gets : List (BitVec w × BitVec 32)

namespace VqRun

/-- The queue after `vring_init_virtqueue`. -/
def init (num : BitVec 32) (data : ℕ → BitVec w) : VqRun w where
  vq := vringInitVirtqueue num data
  adding := false
  fetched := 0
  held := []
  putting := none
  adds := []
  used := []
  gets := []

/-- Where the device finds the next available head. -/
def fetchSlot (s : VqRun w) : ℕ :=
  ((BitVec.ofNat 16 s.fetched).setWidth 32 &&& (s.vq.num - 1)).toNat

/-- Where the device writes the next used entry. -/
def putSlot (s : VqRun w) : ℕ :=
  (s.vq.usedIdx.setWidth 32 &&& (s.vq.num - 1)).toNat

/-- A step of the driver or of the device, other than a poll. -/
inductive Move (s : VqRun w) : VqRun w → Prop
  | fill {virtToPhys : BitVec w → BitVec 64} {buf : BitVec w} {len : BitVec 32} :
      s.adding = false → buf ≠ 0 → len ≠ 0 → s.vq.numFree ≠ 0 →
      Move s { s with
        vq := virtqueueAddOutbuf.fill virtToPhys buf len s.vq
        adding := true
        adds := s.adds ++ [⟨s.vq.freeHead.toNat, buf⟩] }
  | publish : s.adding = true →
      Move s { s with vq := virtqueueAddOutbuf.publish s.vq, adding := false }
  | fetch : BitVec.ofNat 16 s.fetched ≠ s.vq.availIdx →
      Move s { s with
        held := s.held ++ [(s.fetched, s.vq.availRing s.fetchSlot)]
        fetched := s.fetched + 1 }
  | put {pre post : List (ℕ × BitVec 16)} {h : ℕ × BitVec 16} {len : BitVec 32} :
      s.held = pre ++ h :: post → s.putting = none →
      Move s { s with
        vq := { s.vq with
          usedRing := Function.update s.vq.usedRing s.putSlot ⟨h.2.setWidth 32, len⟩ }
        held := pre ++ post
        putting := some ⟨h.1, h.2, len⟩ }
  | complete {c : VqUsed} : s.putting = some c →
      Move s { s with
        vq := { s.vq with usedIdx := s.vq.usedIdx + 1 }
        putting := none
        used := s.used ++ [c] }

/-- A poll that returns : `virtqueue_get_buf`, between two adds. -/
def Poll (s s' : VqRun w) : Prop :=
  s.adding = false ∧ ∃ ret len vq, virtqueueGetBuf s.vq = some (ret, len, vq) ∧
    s' = { s with vq := vq, gets := s.gets ++ [(ret, len)] }

/-- The descriptor of the request `q`. -/
def head (s : VqRun w) (q : ℕ) : ℕ :=
  (s.adds.getD q ⟨0, 0⟩).head

/-- The buffer of the request `q`. -/
def buf (s : VqRun w) (q : ℕ) : BitVec w :=
  (s.adds.getD q ⟨0, 0⟩).buf

/-- The used entries that the driver has not seen. -/
def unseen (s : VqRun w) : List VqUsed :=
  s.used.drop s.gets.length

/-- Some entry has been published and not been seen. -/
def Ready (s : VqRun w) : Prop :=
  s.gets.length < s.used.length

/-- The number of requests that are published. -/
def published (s : VqRun w) : ℕ :=
  s.adds.length - s.adding.toNat

/-- The free list is `free`, and it shares out the descriptors with the requests `live` in
flight, whose buffers are in `data`. -/
structure Descs (k : ℕ) (s : VqRun w) (free live : List ℕ) : Prop where
  num : s.vq.num = BitVec.ofNat 32 (2 ^ k)
  chain : ∃ q, Seg (fun i => (s.vq.desc i).next.toNat) s.vq.freeHead.toNat free q
  share : (free ++ live.map s.head).Perm (List.range (2 ^ k))
  numFree : s.vq.numFree.toNat = free.length
  flags : ∀ i, (s.vq.desc i).flags = 0
  data : ∀ q ∈ live, s.vq.data (s.head q) = s.buf q

/-- Every request is in flight or returned, and every fetched one is held or used. -/
structure Ledger (s : VqRun w) (live : List ℕ) : Prop where
  buf : ∀ q < s.adds.length, s.buf q ≠ 0
  live : (live ++ (s.used.take s.gets.length).map VqUsed.seq).Perm (List.range s.adds.length)
  fetched : (s.held.map Prod.fst ++ (s.used ++ s.putting.toList).map VqUsed.seq).Perm
    (List.range s.fetched)
  seen : s.gets.length ≤ s.used.length
  added : s.adding.toNat ≤ s.adds.length
  available : s.fetched ≤ s.published
  gets : s.gets = (s.used.take s.gets.length).map fun c => (s.buf c.seq, c.len)

/-- The slots hold the heads that are available and the used entries not seen, and the indices
count them. -/
structure Rings (k : ℕ) (s : VqRun w) : Prop where
  avail : ∀ j, s.fetched ≤ j → j < s.adds.length →
    (s.vq.availRing (j % 2 ^ k)).toNat = s.head j
  held : ∀ h ∈ s.held, h.2.toNat = s.head h.1
  usedHead : ∀ c ∈ s.used ++ s.putting.toList, c.head.toNat = s.head c.seq
  used : ∀ j c, s.gets.length ≤ j → (s.used ++ s.putting.toList)[j]? = some c →
    s.vq.usedRing (j % 2 ^ k) = ⟨c.head.setWidth 32, c.len⟩
  availIdx : s.vq.availIdx = BitVec.ofNat 16 s.published
  usedIdx : s.vq.usedIdx = BitVec.ofNat 16 s.used.length
  lastUsedIdx : s.vq.lastUsedIdx = BitVec.ofNat 16 s.gets.length

/-- The free list is `free`, and the requests `live` are in flight. -/
structure Inv (k : ℕ) (s : VqRun w) (free live : List ℕ) : Prop where
  descs : s.Descs k free live
  ledger : s.Ledger live
  rings : s.Rings k

theorem getD_snoc_of_lt {α : Type*} {l : List α} {a d : α} {q : ℕ} (h : q < l.length) :
    (l ++ [a]).getD q d = l.getD q d := by
  rw [List.getD_eq_getElem?_getD, List.getD_eq_getElem?_getD, List.getElem?_append_left h]

theorem getD_snoc_self {α : Type*} {l : List α} {a d : α} : (l ++ [a]).getD l.length d = a := by
  simp

section Ledger

variable {s : VqRun w} {live : List ℕ} (h : s.Ledger live)

include h

theorem Ledger.live_length : live.length + s.gets.length = s.adds.length := by
  have := h.live.length_eq
  rw [List.length_append, List.length_map, List.length_take, List.length_range,
    Nat.min_eq_left h.seen] at this
  exact this

theorem Ledger.fetched_length :
    s.held.length + s.used.length + s.putting.toList.length = s.fetched := by
  have := h.fetched.length_eq
  rw [List.length_append, List.length_map, List.length_map, List.length_append,
    List.length_range] at this
  omega

theorem Ledger.published_add : s.published + s.adding.toNat = s.adds.length :=
  Nat.sub_add_cancel h.added

theorem Ledger.fetched_le : s.fetched ≤ s.adds.length :=
  h.available.trans (Nat.sub_le ..)

theorem Ledger.live_lt {q : ℕ} (hq : q ∈ live) : q < s.adds.length :=
  List.mem_range.mp (h.live.mem_iff.mp (List.mem_append_left _ hq))

/-- A request that the device has fetched. -/
theorem Ledger.lt_of_used {c : VqUsed} (hc : c ∈ s.used ++ s.putting.toList) :
    c.seq < s.adds.length := by
  have hmem := h.fetched.mem_iff.mp (List.mem_append_right _ (List.mem_map_of_mem hc))
  exact (List.mem_range.mp hmem).trans_le h.fetched_le

theorem Ledger.lt_of_held {x : ℕ × BitVec 16} (hx : x ∈ s.held) : x.1 < s.adds.length := by
  have hmem := h.fetched.mem_iff.mp (List.mem_append_left _ (List.mem_map_of_mem hx))
  exact (List.mem_range.mp hmem).trans_le h.fetched_le

/-- The used entries that the driver has not seen are for requests in flight. -/
theorem Ledger.mem_live {j : ℕ} {c : VqUsed} (hj : s.gets.length ≤ j)
    (hc : s.used[j]? = some c) : c.seq ∈ live := by
  obtain ⟨hlt, hcj⟩ := List.getElem?_eq_some_iff.mp hc
  have hadds : c.seq ∈ List.range s.adds.length :=
    List.mem_range.mpr (h.lt_of_used (List.mem_append_left _ (hcj ▸ List.getElem_mem hlt)))
  refine (List.mem_append.mp (h.live.mem_iff.mpr hadds)).resolve_right fun hseen => ?_
  have hnd : (s.used.map VqUsed.seq).Nodup := by
    have hnd := h.fetched.nodup_iff.mpr List.nodup_range
    rw [List.map_append] at hnd
    exact (List.nodup_append.mp (List.nodup_append.mp hnd).2.1).1
  obtain ⟨c', hc', hseq⟩ := List.mem_map.mp hseen
  obtain ⟨i, hi, hci⟩ := List.getElem_of_mem hc'
  rw [List.length_take] at hi
  rw [List.getElem_take] at hci
  have hi' : (s.used.map VqUsed.seq)[i]? = some c'.seq := by
    rw [List.getElem?_map, List.getElem?_eq_getElem (by omega), hci, Option.map_some]
  have hj' : (s.used.map VqUsed.seq)[j]? = some c'.seq := by
    rw [List.getElem?_map, hc, Option.map_some, hseq]
  have hlen : i < (s.used.map VqUsed.seq).length := by
    rw [List.length_map]
    omega
  have := (List.getElem?_inj hlen hnd).mp (hi'.trans hj'.symm)
  omega

end Ledger

section Descs

variable {k : ℕ} {s : VqRun w} {free live : List ℕ} (h : s.Descs k free live)

include h

theorem Descs.free_length : free.length + live.length = 2 ^ k := by
  have := h.share.length_eq
  rwa [List.length_append, List.length_map, List.length_range] at this

theorem Descs.nodup : (free ++ live.map s.head).Nodup :=
  h.share.nodup_iff.mpr List.nodup_range

theorem Descs.free_lt {i : ℕ} (hi : i ∈ free) : i < 2 ^ k :=
  List.mem_range.mp (h.share.mem_iff.mp (List.mem_append_left _ hi))

end Descs

/-! ## The start -/

section Start

variable {k : ℕ}

theorem init_inv {num : BitVec 32} {data : ℕ → BitVec w} (hk : k ≤ 15)
    (hnum : num = BitVec.ofNat 32 (2 ^ k)) :
    (init num data).Inv k (List.range (2 ^ k)) [] := by
  have hN : 2 ^ k ≤ 2 ^ 15 := Nat.pow_le_pow_right (by decide) hk
  have hpos := Nat.two_pow_pos k
  have hnat : num.toNat = 2 ^ k := by
    rw [hnum, BitVec.toNat_ofNat, Nat.mod_eq_of_lt (by omega)]
  have hleft : (num - 1).toNat = 2 ^ k - 1 := by
    rw [BitVec.toNat_sub_of_le, hnat]
    · rfl
    · rw [BitVec.le_def, hnat]
      exact hpos
  obtain ⟨desc, data', heq, hflags, -, hnext⟩ := vringInitVirtqueue.loop_spec (2 ^ k - 1) 0
    { num := num, numFree := num, freeHead := 0, numAdded := 0, lastUsedIdx := 0, data := data,
      desc := fun _ => ⟨0, 0, 0, 0⟩, availIdx := 0, availRing := fun _ => 0, usedIdx := 0,
      usedRing := fun _ => ⟨0, 0⟩ }
  rw [← hleft] at heq
  have hvq : vringInitVirtqueue num data = _ := heq
  have hchain : ∃ q, Seg (fun i => (desc i).next.toNat) 0 (List.range (2 ^ k)) q := by
    rw [List.range_eq_range']
    refine seg_range' fun j _ hj => ?_
    show (desc j).next.toNat = j + 1
    rw [hnext j (Nat.zero_le j) (by omega), BitVec.toNat_ofNat, Nat.mod_eq_of_lt (by omega)]
  rw [init, hvq]
  refine ⟨⟨hnum, hchain, by simp, ?_, hflags, by simp⟩, ⟨by simp, by simp, by simp, le_rfl,
    Nat.zero_le _, le_rfl, rfl⟩, ⟨by simp, by simp, by simp, by simp, rfl, rfl, rfl⟩⟩
  rw [List.length_range]
  exact hnat

end Start

/-! ## The steps of the driver -/

section Driver

variable {k : ℕ} {s : VqRun w} {free live : List ℕ} {x : ℕ}
  {virtToPhys : BitVec w → BitVec 64} {buf : BitVec w} {len : BitVec 32}

/-- The state after `virtqueue_add_outbuf` has filled a descriptor. -/
def filled (s : VqRun w) (virtToPhys : BitVec w → BitVec 64) (buf : BitVec w) (len : BitVec 32) :
    VqRun w :=
  { s with
    vq := virtqueueAddOutbuf.fill virtToPhys buf len s.vq
    adding := true
    adds := s.adds ++ [⟨s.vq.freeHead.toNat, buf⟩] }

theorem filled_getD {q : ℕ} (hq : q < s.adds.length) :
    (s.filled virtToPhys buf len).adds.getD q ⟨0, 0⟩ = s.adds.getD q ⟨0, 0⟩ :=
  getD_snoc_of_lt hq

theorem filled_head {q : ℕ} (hq : q < s.adds.length) :
    (s.filled virtToPhys buf len).head q = s.head q :=
  congrArg VqRequest.head (filled_getD hq)

theorem filled_buf {q : ℕ} (hq : q < s.adds.length) :
    (s.filled virtToPhys buf len).buf q = s.buf q :=
  congrArg VqRequest.buf (filled_getD hq)

theorem filled_head_self : (s.filled virtToPhys buf len).head s.adds.length = s.vq.freeHead.toNat :=
  congrArg VqRequest.head getD_snoc_self

theorem filled_buf_self : (s.filled virtToPhys buf len).buf s.adds.length = buf :=
  congrArg VqRequest.buf getD_snoc_self

theorem filled_length : (s.filled virtToPhys buf len).adds.length = s.adds.length + 1 :=
  List.length_append

/-- Filling a descriptor changes no link, and sets no flag. -/
theorem filled_desc (h : s.Descs k free live) (i : ℕ) :
    ((s.filled virtToPhys buf len).vq.desc i).next = (s.vq.desc i).next ∧
      ((s.filled virtToPhys buf len).vq.desc i).flags = 0 := by
  simp only [filled, virtqueueAddOutbuf.fill]
  by_cases hi : i = s.vq.freeHead.toNat
  · rw [hi, Function.update_self]
    exact ⟨rfl, rfl⟩
  · rw [Function.update_of_ne hi]
    exact ⟨rfl, h.flags i⟩

/-- The driver takes the first free descriptor for a new request. -/
theorem Descs.fill (h : s.Descs k (x :: free) live) (hlive : ∀ q ∈ live, q < s.adds.length) :
    (s.filled virtToPhys buf len).Descs k free (s.adds.length :: live) := by
  obtain ⟨q, rfl, hseg⟩ := h.chain
  have hnd := h.nodup
  rw [List.cons_append, List.nodup_cons, List.mem_append, not_or] at hnd
  have hmap : live.map (s.filled virtToPhys buf len).head = live.map s.head :=
    List.map_congr_left fun q hq => filled_head (hlive q hq)
  refine ⟨h.num, ⟨q, ?_⟩, ?_, ?_, fun i => (filled_desc h i).2, List.forall_mem_cons.mpr ⟨?_, ?_⟩⟩
  · have hnext : (fun i => ((s.filled virtToPhys buf len).vq.desc i).next.toNat) =
        fun i => (s.vq.desc i).next.toNat := funext fun i => congrArg _ (filled_desc h i).1
    have hhead : (s.filled virtToPhys buf len).vq.freeHead.toNat =
        (s.vq.desc s.vq.freeHead.toNat).next.toNat := by
      rw [← (@filled_desc _ _ _ _ _ virtToPhys buf len h _).1]
      exact BitVec.toNat_setWidth_of_le (by decide)
    rw [hnext, hhead]
    exact hseg
  · rw [List.map_cons, filled_head_self, hmap]
    exact List.perm_middle.trans h.share
  · have h1 : (1 : BitVec 32) ≤ s.vq.numFree := by
      rw [BitVec.le_def, h.numFree]
      exact Nat.succ_pos _
    show (s.vq.numFree - 1).toNat = _
    rw [BitVec.toNat_sub_of_le h1, h.numFree]
    rfl
  · rw [filled_head_self, filled_buf_self]
    exact Function.update_self ..
  · intro q hq
    rw [filled_head (hlive q hq), filled_buf (hlive q hq), ← h.data q hq]
    refine Function.update_of_ne (fun heq => hnd.1.2 ?_) _ _
    exact heq ▸ List.mem_map_of_mem hq

theorem Ledger.fill (h : s.Ledger live) (hadding : s.adding = false) (hbuf : buf ≠ 0) :
    (s.filled virtToPhys buf len).Ledger (s.adds.length :: live) where
  buf q hq := by
    rw [filled_length] at hq
    rcases Nat.lt_succ_iff_lt_or_eq.mp hq with hq | rfl
    · rw [filled_buf hq]
      exact h.buf q hq
    · rwa [filled_buf_self]
  live := by
    rw [filled_length, List.range_succ, List.cons_append]
    exact (h.live.cons _).trans (List.perm_append_singleton _ _).symm
  fetched := h.fetched
  seen := h.seen
  added := by
    rw [filled_length]
    exact Nat.le_add_left 1 _
  available := by
    have := h.available
    rw [published, hadding] at this
    rw [published, filled_length]
    exact this
  gets := by
    refine h.gets.trans (List.map_congr_left fun c hc => ?_)
    rw [filled_buf]
    exact h.lt_of_used (List.mem_append_left _ (List.mem_of_mem_take hc))

theorem Rings.fill (h : s.Rings k) (hk : k ≤ 15) (hl : s.Ledger live)
    (hd : s.Descs k (x :: free) live) (hadding : s.adding = false) :
    (s.filled virtToPhys buf len).Rings k := by
  have hN : 2 ^ k ≤ 2 ^ 15 := Nat.pow_le_pow_right (by decide) hk
  have hlen := hd.free_length
  have hfetched := hl.fetched_length
  have hlive := hl.live_length
  have hseen := hl.seen
  rw [List.length_cons] at hlen
  have hpub : s.published = s.adds.length := by
    rw [published, hadding]
    rfl
  have hx : s.vq.freeHead.toNat < 2 ^ k := by
    obtain ⟨q, heq, -⟩ := hd.chain
    rw [heq]
    exact hd.free_lt (List.mem_cons_self ..)
  have hslot : (s.vq.availIdx.setWidth 32 &&& (s.vq.num - 1)).toNat = s.adds.length % 2 ^ k := by
    rw [hd.num, h.availIdx, slot_ofNat hk, hpub]
  refine ⟨fun j hj hlt => ?_, fun y hy => ?_, fun c hc => ?_, h.used, ?_, h.usedIdx, h.lastUsedIdx⟩
  · show (Function.update s.vq.availRing (s.vq.availIdx.setWidth 32 &&& (s.vq.num - 1)).toNat
      (s.vq.freeHead.setWidth 16) (j % 2 ^ k)).toNat = _
    rw [hslot]
    rw [filled_length] at hlt
    rcases Nat.lt_succ_iff_lt_or_eq.mp hlt with hlt | rfl
    · have hj : s.fetched ≤ j := hj
      rw [Function.update_of_ne (slot_ne hlt (by omega)), filled_head hlt]
      exact h.avail j hj hlt
    · rw [Function.update_self, filled_head_self, BitVec.toNat_setWidth]
      exact Nat.mod_eq_of_lt (by omega)
  · rw [filled_head (hl.lt_of_held hy)]
    exact h.held y hy
  · rw [filled_head (hl.lt_of_used hc)]
    exact h.usedHead c hc
  · rw [published, filled_length]
    exact h.availIdx.trans (congrArg _ hpub)

/-- Publishing moves the index of the available ring past the new head. -/
theorem Inv.publish (h : s.Inv k free live) (hadding : s.adding = true) :
    Inv k { s with vq := virtqueueAddOutbuf.publish s.vq, adding := false } free live := by
  obtain ⟨hd, hl, hr⟩ := h
  have hpub := hl.published_add
  rw [hadding, Bool.toNat_true] at hpub
  refine ⟨⟨hd.num, hd.chain, hd.share, hd.numFree, hd.flags, hd.data⟩, ⟨hl.buf, hl.live, hl.fetched,
    hl.seen, Nat.zero_le _, hl.fetched_le, hl.gets⟩, ⟨hr.avail, hr.held, hr.usedHead, hr.used, ?_,
    hr.usedIdx, hr.lastUsedIdx⟩⟩
  show s.vq.availIdx + 1 = BitVec.ofNat 16 s.adds.length
  rw [hr.availIdx, ofNat_add_one, hpub]

end Driver

/-! ## The steps of the device -/

section Device

variable {k : ℕ} {s : VqRun w} {free live : List ℕ}

/-- The device takes the next head. -/
theorem Inv.fetch (h : s.Inv k free live) (hk : k ≤ 15)
    (hne : BitVec.ofNat 16 s.fetched ≠ s.vq.availIdx) :
    Inv k { s with
      held := s.held ++ [(s.fetched, s.vq.availRing s.fetchSlot)]
      fetched := s.fetched + 1 } free live := by
  obtain ⟨hd, hl, hr⟩ := h
  have hlt : s.fetched < s.published := by
    refine lt_of_le_of_ne hl.available fun heq => hne ?_
    rw [hr.availIdx, heq]
  have hpub : s.published ≤ s.adds.length := Nat.sub_le ..
  have hslot : s.fetchSlot = s.fetched % 2 ^ k := by
    rw [fetchSlot, hd.num, slot_ofNat hk]
  refine ⟨⟨hd.num, hd.chain, hd.share, hd.numFree, hd.flags, hd.data⟩,
    ⟨hl.buf, hl.live, ?_, hl.seen, hl.added, hlt, hl.gets⟩,
    ⟨fun j hj => hr.avail j (Nat.le_of_succ_le hj), fun x hx => ?_, hr.usedHead, hr.used,
      hr.availIdx, hr.usedIdx, hr.lastUsedIdx⟩⟩
  · show ((s.held ++ [(s.fetched, _)]).map Prod.fst ++ _).Perm _
    rw [List.map_append, List.range_succ, List.append_assoc]
    exact List.perm_middle.trans ((hl.fetched.cons _).trans (List.perm_append_singleton _ _).symm)
  · rcases List.mem_append.mp hx with hx | hx
    · exact hr.held x hx
    · rw [List.mem_singleton.mp hx, hslot]
      exact hr.avail s.fetched le_rfl (hlt.trans_le hpub)

/-- The device writes a used entry for a head that it holds. -/
theorem Inv.put (h : s.Inv k free live) (hk : k ≤ 15) {pre post : List (ℕ × BitVec 16)}
    {x : ℕ × BitVec 16} {len : BitVec 32} (hheld : s.held = pre ++ x :: post)
    (hput : s.putting = none) :
    Inv k { s with
      vq := { s.vq with
        usedRing := Function.update s.vq.usedRing s.putSlot ⟨x.2.setWidth 32, len⟩ }
      held := pre ++ post
      putting := some ⟨x.1, x.2, len⟩ } free live := by
  obtain ⟨hd, hl, hr⟩ := h
  have hslot : s.putSlot = s.used.length % 2 ^ k := by
    rw [putSlot, hr.usedIdx, hd.num, slot_ofNat hk]
  have hsub : ∀ y ∈ pre ++ post, y ∈ s.held := fun y hy => by
    rw [hheld]
    rcases List.mem_append.mp hy with hy | hy
    · exact List.mem_append_left _ hy
    · exact List.mem_append_right _ (List.mem_cons_of_mem _ hy)
  have hx : x ∈ s.held := hheld ▸ List.mem_append_right _ (List.mem_cons_self ..)
  have hroom : s.used.length - s.gets.length < 2 ^ k := by
    have hpos := List.length_pos_of_mem hx
    have h₁ := hd.free_length
    have h₂ := hl.fetched_length
    have h₃ := hl.live_length
    have h₄ := hl.fetched_le
    omega
  refine ⟨⟨hd.num, hd.chain, hd.share, hd.numFree, hd.flags, hd.data⟩,
    ⟨hl.buf, hl.live, ?_, hl.seen, hl.added, hl.available, hl.gets⟩,
    ⟨hr.avail, fun y hy => hr.held y (hsub y hy), fun c hc => ?_, fun j c hj hc => ?_, hr.availIdx,
      hr.usedIdx, hr.lastUsedIdx⟩⟩
  · refine List.Perm.trans ?_ hl.fetched
    rw [hheld, hput]
    simp only [Option.toList_some, Option.toList_none, List.append_nil, List.map_append,
      List.map_cons, List.map_nil, List.append_assoc, List.cons_append]
    refine List.Perm.append_left _ ?_
    rw [← List.append_assoc]
    exact List.perm_append_comm
  · rcases List.mem_append.mp hc with hc | hc
    · exact hr.usedHead c (List.mem_append_left _ hc)
    · rw [Option.toList_some, List.mem_singleton] at hc
      rw [hc]
      exact hr.held x hx
  · show Function.update s.vq.usedRing s.putSlot _ (j % 2 ^ k) = _
    have hj : s.gets.length ≤ j := hj
    rw [hslot]
    rcases Nat.lt_trichotomy j s.used.length with hlt | rfl | hgt
    · rw [List.getElem?_append_left hlt] at hc
      rw [Function.update_of_ne (slot_ne hlt (by omega))]
      refine hr.used j c hj ?_
      rwa [List.getElem?_append_left hlt]
    · rw [Option.toList_some, List.getElem?_concat_length] at hc
      rw [Function.update_self, ← Option.some.inj hc]
    · rw [Option.toList_some, List.getElem?_eq_none (by simp; omega)] at hc
      exact absurd hc (by simp)

/-- The device moves the index of the used ring past the entry it has written. -/
theorem Inv.complete (h : s.Inv k free live) {c : VqUsed} (hput : s.putting = some c) :
    Inv k { s with
      vq := { s.vq with usedIdx := s.vq.usedIdx + 1 }
      putting := none
      used := s.used ++ [c] } free live := by
  obtain ⟨hd, hl, hr⟩ := h
  have hlist : (s.used ++ [c]) ++ (none : Option VqUsed).toList = s.used ++ s.putting.toList := by
    rw [hput, Option.toList_none, Option.toList_some, List.append_nil]
  have htake : (s.used ++ [c]).take s.gets.length = s.used.take s.gets.length :=
    List.take_append_of_le_length hl.seen
  have hlen : (s.used ++ [c]).length = s.used.length + 1 := List.length_append
  refine ⟨⟨hd.num, hd.chain, hd.share, hd.numFree, hd.flags, hd.data⟩,
    ⟨hl.buf, ?_, ?_, ?_, hl.added, hl.available, ?_⟩,
    ⟨hr.avail, hr.held, ?_, ?_, hr.availIdx, ?_, hr.lastUsedIdx⟩⟩
  · exact htake ▸ hl.live
  · exact hlist ▸ hl.fetched
  · exact hl.seen.trans (hlen ▸ Nat.le_succ _)
  · exact htake ▸ hl.gets
  · exact hlist ▸ hr.usedHead
  · exact hlist ▸ hr.used
  · show s.vq.usedIdx + 1 = _
    rw [hr.usedIdx, ofNat_add_one, hlen]

end Device

/-- With a free descriptor, filling it keeps the invariant. -/
theorem Inv.fill {k : ℕ} {s : VqRun w} {free live : List ℕ} (h : s.Inv k free live) (hk : k ≤ 15)
    {virtToPhys : BitVec w → BitVec 64} {buf : BitVec w} {len : BitVec 32}
    (hadding : s.adding = false) (hbuf : buf ≠ 0) (hfree : s.vq.numFree ≠ 0) :
    ∃ free, (s.filled virtToPhys buf len).Inv k free (s.adds.length :: live) := by
  obtain ⟨hd, hl, hr⟩ := h
  cases free with
  | nil => exact absurd (BitVec.eq_of_toNat_eq hd.numFree) hfree
  | cons x free =>
    exact ⟨free, hd.fill fun q => hl.live_lt, hl.fill hadding hbuf, hr.fill hk hl hd hadding⟩

/-- A step other than a poll keeps the invariant. -/
theorem Inv.move {k : ℕ} {s s' : VqRun w} {free live : List ℕ} (h : s.Inv k free live)
    (hk : k ≤ 15) (hmove : s.Move s') : ∃ free live, s'.Inv k free live := by
  cases hmove with
  | fill hadding hbuf hlen hfree =>
    obtain ⟨free, hinv⟩ := h.fill hk hadding hbuf hfree
    exact ⟨free, _, hinv⟩
  | publish hadding => exact ⟨free, live, h.publish hadding⟩
  | fetch hne => exact ⟨free, live, h.fetch hk hne⟩
  | put hheld hput => exact ⟨free, live, h.put hk hheld hput⟩
  | complete hput => exact ⟨free, live, h.complete hput⟩

end VqRun

end AcrnUt
