import AcrnUt.VirtqueueRun

/-!
# Polling a virtqueue

`virtqueue_add_outbuf` is the two steps of the driver around its barrier (`VqRun.Run.add`).
`virtqueue_get_buf` reads the next slot of the used ring without comparing the indices.
Between two adds, when the used ring has an entry that the driver has not seen, it returns
the buffer of that entry and its length and puts the descriptor back on the free list
(`VqRun.Inv.poll`). So a run whose polls all find an entry keeps the accounts of the queue
(`VqRun.accounting`).

When the used ring is empty it still takes what the slot holds for an entry, and counts it
(`VqRun.pollSafe_iff`).
-/

set_option linter.unusedSectionVars false

namespace AcrnUt

variable {w : ℕ}

/-! ## One poll -/

/-- The queue after `virtqueue_get_buf` has taken an entry for the descriptor `i`, which has
no next one. -/
def VringVirtqueue.detached (vq : VringVirtqueue w) (i : BitVec 32) : VringVirtqueue w :=
  { vq with
    data := Function.update vq.data i.toNat 0
    desc := Function.update vq.desc i.toNat
      { vq.desc i.toNat with next := vq.freeHead.setWidth 16 }
    freeHead := i
    numFree := vq.numFree + 1
    lastUsedIdx := vq.lastUsedIdx + 1 }

/-- The used entry that a poll reads. -/
def VringVirtqueue.polled (vq : VringVirtqueue w) : VringUsedElem :=
  vq.usedRing ((vq.lastUsedIdx.setWidth 32 &&& (vq.num - 1)).setWidth 16).toNat

/-- Without chains, a poll takes one descriptor, whatever the indices say. -/
theorem virtqueueGetBuf_eq {vq : VringVirtqueue w} (hflags : ∀ i, (vq.desc i).flags = 0) :
    virtqueueGetBuf vq = some (vq.data vq.polled.id.toNat, vq.polled.len,
      vq.detached vq.polled.id) := by
  have hloop : detachBuf.loop vq.desc (2 ^ 16 + 1) vq.polled.id vq.numFree =
      some (vq.polled.id, vq.numFree) := by
    rw [detachBuf.loop, hflags]
    rfl
  have hdetach : detachBuf vq.polled.id vq = some { vq.detached vq.polled.id with
      lastUsedIdx := vq.lastUsedIdx } := by
    rw [detachBuf, hloop]
    rfl
  show (detachBuf vq.polled.id vq).map _ = _
  rw [hdetach]
  rfl

namespace VqRun

/-- The used ring is ahead of what the driver has seen. -/
def HasUsed (s : VqRun w) : Prop :=
  s.vq.usedIdx ≠ s.vq.lastUsedIdx

section Poll

variable {k : ℕ} {s : VqRun w} {free live : List ℕ}

/-- The entries that the driver has not seen fit in the ring. -/
theorem Inv.unseen_le (h : s.Inv k free live) : s.used.length ≤ s.gets.length + 2 ^ k := by
  have h₁ := h.descs.free_length
  have h₂ := h.ledger.fetched_length
  have h₃ := h.ledger.live_length
  have h₄ := h.ledger.fetched_le
  omega

/-- The indices tell whether there is an entry that the driver has not seen. -/
theorem Inv.hasUsed_iff (h : s.Inv k free live) (hk : k ≤ 15) : s.HasUsed ↔ s.Ready := by
  have hN : 2 ^ k ≤ 2 ^ 15 := Nat.pow_le_pow_right (by decide) hk
  have hle := h.unseen_le
  rw [HasUsed, Ready, h.rings.usedIdx, h.rings.lastUsedIdx]
  constructor
  · intro hne
    refine lt_of_le_of_ne h.ledger.seen fun heq => hne ?_
    rw [heq]
  · intro hlt
    exact (ofNat_ne hlt (by omega)).symm

/-- A poll reads the oldest entry that the driver has not seen. -/
theorem Inv.polled_eq (h : s.Inv k free live) (hk : k ≤ 15) {c : VqUsed}
    (hc : s.used[s.gets.length]? = some c) :
    s.vq.polled.id.toNat = s.head c.seq ∧ s.vq.polled.len = c.len := by
  obtain ⟨hlt, hcj⟩ := List.getElem?_eq_some_iff.mp hc
  have hslot : ((s.vq.lastUsedIdx.setWidth 32 &&& (s.vq.num - 1)).setWidth 16).toNat =
      s.gets.length % 2 ^ k := by
    rw [h.rings.lastUsedIdx, h.descs.num, slot_ofNat_setWidth hk]
  have hentry : s.vq.polled = ⟨c.head.setWidth 32, c.len⟩ := by
    rw [VringVirtqueue.polled, hslot]
    refine h.rings.used _ c le_rfl ?_
    rwa [List.getElem?_append_left hlt]
  rw [hentry]
  refine ⟨?_, rfl⟩
  show (c.head.setWidth 32).toNat = _
  rw [BitVec.toNat_setWidth_of_le (by decide)]
  exact h.rings.usedHead c (List.mem_append_left _ (hcj ▸ List.getElem_mem hlt))

/-- The descriptor of the request `q` comes back to the free list. -/
theorem Descs.detach (h : s.Descs k free live) (hk : k ≤ 15) {q : ℕ} (hq : q ∈ live)
    {i : BitVec 32} (hi : i.toNat = s.head q) {gets : List (BitVec w × BitVec 32)} :
    Descs k { s with vq := s.vq.detached i, gets := gets } (s.head q :: free) (live.erase q) := by
  have hN : 2 ^ k ≤ 2 ^ 15 := Nat.pow_le_pow_right (by decide) hk
  have hlive : live.Perm (q :: live.erase q) := List.perm_cons_erase hq
  have hshare : (s.head q :: free ++ (live.erase q).map s.head).Perm (List.range (2 ^ k)) := by
    refine List.Perm.trans ?_ h.share
    refine (List.perm_middle.symm.trans ?_ : (s.head q :: (free ++ _)).Perm _)
    exact (hlive.map s.head).symm.append_left free
  have hnodup : (s.head q :: (free ++ (live.erase q).map s.head)).Nodup :=
    hshare.nodup_iff.mpr List.nodup_range
  rw [List.nodup_cons, List.mem_append, not_or] at hnodup
  obtain ⟨⟨hqfree, hqlive⟩, -⟩ := hnodup
  refine ⟨h.num, ?_, hshare, ?_, fun j => ?_, fun q' hq' => ?_⟩
  · -- The old list hangs from the descriptor, which was not on it.
    have hnext : (fun j => ((s.vq.detached i).desc j).next.toNat) =
        Function.update (fun j => (s.vq.desc j).next.toNat) (s.head q)
          (s.vq.freeHead.setWidth 16).toNat := by
      funext j
      simp only [VringVirtqueue.detached, hi]
      by_cases hj : j = s.head q
      · rw [hj, Function.update_self, Function.update_self]
      · rw [Function.update_of_ne hj, Function.update_of_ne hj]
    obtain ⟨r, hseg⟩ := h.chain
    show ∃ r, Seg (fun j => ((s.vq.detached i).desc j).next.toNat) i.toNat (s.head q :: free) r
    rw [hnext]
    cases free with
    | nil => exact ⟨_, hi, rfl⟩
    | cons x free =>
      have hx : (s.vq.freeHead.setWidth 16).toNat = x := by
        have hlt := h.free_lt (List.mem_cons_self ..)
        rw [BitVec.toNat_setWidth, hseg.1]
        exact Nat.mod_eq_of_lt (by omega)
      refine ⟨r, hi, ?_⟩
      rw [Function.update_self, hx]
      exact (hseg.1 ▸ hseg).update_of_notMem hqfree
  · have hlen := h.free_length
    have hpos := List.length_pos_of_mem hq
    show (s.vq.numFree + 1).toNat = _
    rw [BitVec.toNat_add, h.numFree, List.length_cons]
    exact Nat.mod_eq_of_lt (by simp; omega)
  · show (Function.update s.vq.desc i.toNat _ j).flags = 0
    by_cases hj : j = i.toNat
    · rw [hj, Function.update_self]
      exact h.flags _
    · rw [Function.update_of_ne hj]
      exact h.flags j
  · show Function.update s.vq.data i.toNat 0 (s.head q') = s.buf q'
    rw [Function.update_of_ne, h.data q' (List.mem_of_mem_erase hq')]
    exact fun heq => hqlive (hi ▸ heq ▸ List.mem_map_of_mem hq')

/-- A poll that finds an entry returns its buffer. -/
theorem Inv.poll (h : s.Inv k free live) (hk : k ≤ 15) (hready : s.Ready) : ∃ c vq,
    s.used[s.gets.length]? = some c ∧ virtqueueGetBuf s.vq = some (s.buf c.seq, c.len, vq) ∧
      Inv k { s with vq := vq, gets := s.gets ++ [(s.buf c.seq, c.len)] } (s.head c.seq :: free)
        (live.erase c.seq) := by
  have hc := List.getElem?_eq_getElem hready
  generalize s.used[s.gets.length] = c at hc
  obtain ⟨hd, hl, hr⟩ := id h
  obtain ⟨hid, hlen⟩ := h.polled_eq hk hc
  have hlive : c.seq ∈ live := hl.mem_live le_rfl hc
  have hget := virtqueueGetBuf_eq hd.flags
  rw [hid, hd.data _ hlive, hlen] at hget
  have htake : s.used.take (s.gets.length + 1) = s.used.take s.gets.length ++ [c] := by
    rw [List.take_add_one, hc, Option.toList_some]
  have hsnoc : (s.gets ++ [(s.buf c.seq, c.len)]).length = s.gets.length + 1 := List.length_append
  refine ⟨c, _, hc, hget, hd.detach hk hlive hid, ⟨hl.buf, ?_, hl.fetched, ?_, hl.added,
    hl.available, ?_⟩,
    ⟨hr.avail, hr.held, hr.usedHead, fun j c hj => ?_, hr.availIdx, hr.usedIdx, ?_⟩⟩
  · show (live.erase c.seq ++ (s.used.take (s.gets ++ [(s.buf c.seq, c.len)]).length).map _).Perm _
    rw [hsnoc, htake, List.map_append, ← List.append_assoc]
    refine List.Perm.trans ?_ hl.live
    refine (List.perm_append_singleton _ _).trans ?_
    exact ((List.perm_cons_erase hlive).append_right _).symm
  · show (s.gets ++ [(s.buf c.seq, c.len)]).length ≤ s.used.length
    rw [hsnoc]
    exact hready
  · show s.gets ++ [(s.buf c.seq, c.len)] =
      (s.used.take (s.gets ++ [(s.buf c.seq, c.len)]).length).map fun c => (s.buf c.seq, c.len)
    rw [hsnoc, htake, List.map_append, ← hl.gets]
    rfl
  · exact hr.used j c (by rw [hsnoc] at hj; omega)
  · show s.vq.lastUsedIdx + 1 = _
    rw [hr.lastUsedIdx, ofNat_add_one, hsnoc]

end Poll

/-! ## Runs -/

/-- The states that the driver and the device reach from a fresh queue, when every poll is made
in a state that meets `cond`. -/
inductive Run (num : BitVec 32) (data : ℕ → BitVec w) (cond : VqRun w → Prop) : VqRun w → Prop
  | init : Run num data cond (init num data)
  | move {s s' : VqRun w} : Run num data cond s → s.Move s' → Run num data cond s'
  | poll {s s' : VqRun w} : Run num data cond s → cond s → s.Poll s' → Run num data cond s'

section Run

variable {k : ℕ} {num : BitVec 32} {data : ℕ → BitVec w} {cond : VqRun w → Prop} {s : VqRun w}

/-- An add that returns 0 found a free descriptor, and leaves what its two steps leave. -/
theorem add_cases {virtToPhys : BitVec w → BitVec 64} {buf : BitVec w} {len : BitVec 32}
    {vq vq' : VringVirtqueue w} (hadd : virtqueueAddOutbuf virtToPhys buf len vq = some (0, vq')) :
    buf ≠ 0 ∧ len ≠ 0 ∧ vq.numFree ≠ 0 ∧
      vq' = virtqueueAddOutbuf.publish (virtqueueAddOutbuf.fill virtToPhys buf len vq) := by
  unfold virtqueueAddOutbuf at hadd
  split_ifs at hadd with hbuf hlen hfree
  · have hret : (-1 : ℤ) = 0 := congrArg Prod.fst (Option.some.inj hadd)
    exact absurd hret (by decide)
  · exact ⟨hbuf, hlen, hfree, (congrArg Prod.snd (Option.some.inj hadd)).symm⟩

/-- A successful `virtqueue_add_outbuf` that nothing comes between is part of a run. -/
theorem Run.add (h : Run num data cond s) (hadding : s.adding = false)
    {virtToPhys : BitVec w → BitVec 64} {buf : BitVec w} {len : BitVec 32} {vq : VringVirtqueue w}
    (hadd : virtqueueAddOutbuf virtToPhys buf len s.vq = some (0, vq)) :
    Run num data cond { s with
      vq := vq, adding := false, adds := s.adds ++ [⟨s.vq.freeHead.toNat, buf⟩] } := by
  obtain ⟨hbuf, hlen, hfree, rfl⟩ := add_cases hadd
  exact (h.move (.fill hadding hbuf hlen hfree)).move (.publish rfl)

/-- A run whose polls find an entry keeps the invariant. -/
theorem Run.inv (h : Run num data cond s) (hk : k ≤ 15) (hnum : num = BitVec.ofNat 32 (2 ^ k))
    (hcond : ∀ {s free live}, s.Inv k free live → cond s → s.Ready) :
    ∃ free live, s.Inv k free live := by
  induction h with
  | init => exact ⟨_, _, init_inv hk hnum⟩
  | move _ hmove ih =>
    obtain ⟨free, live, hinv⟩ := ih
    exact hinv.move hk hmove
  | @poll s₀ _ _ hc hpoll ih =>
    obtain ⟨free, live, hinv⟩ := ih
    obtain ⟨-, ret, len, vq, hget, rfl⟩ := hpoll
    obtain ⟨c, vq', -, hget', hinv'⟩ := hinv.poll hk (hcond hinv hc)
    obtain ⟨rfl, rfl, rfl⟩ : ret = s₀.buf c.seq ∧ len = c.len ∧ vq = vq' := by
      simpa using hget.symm.trans hget'
    exact ⟨_, _, hinv'⟩

end Run

/-! ## The accounts of a queue -/

/-- The requests whose buffers have not been returned. -/
def inFlight (s : VqRun w) : List ℕ :=
  (List.range s.adds.length).filter (· ∉ (s.used.take s.gets.length).map VqUsed.seq)

/-- The accounts of a queue of `2 ^ k` descriptors, between any two steps. -/
structure Accounts (k : ℕ) (s : VqRun w) : Prop where
  /-- Free descriptors and those in flight make up the ring. -/
  numFree : s.vq.numFree.toNat + s.inFlight.length = 2 ^ k
  /-- The first `num_free` links from `free_head` visit the descriptors not in flight. -/
  walk : (List.iterate (fun i => (s.vq.desc i).next.toNat) s.vq.freeHead.toNat
    s.vq.numFree.toNat ++ s.inFlight.map s.head).Perm (List.range (2 ^ k))
  /-- Before the index moves past a request, its head is in its slot. -/
  avail : s.adding = true → 0 < s.adds.length ∧
    s.vq.availIdx = BitVec.ofNat 16 (s.adds.length - 1) ∧
    (s.vq.availRing ((s.adds.length - 1) % 2 ^ k)).toNat = s.head (s.adds.length - 1)
  /-- After that it counts the requests. -/
  availIdx : s.adding = false → s.vq.availIdx = BitVec.ofNat 16 s.adds.length
  /-- An add fails when the whole ring is in flight, and changes nothing then. -/
  full : s.adding = false → ∀ virtToPhys (buf : BitVec w) len, buf ≠ 0 → len ≠ 0 →
    ∃ ret vq, virtqueueAddOutbuf virtToPhys buf len s.vq = some (ret, vq) ∧
      (ret = -1 ↔ s.inFlight.length = 2 ^ k) ∧ (ret = -1 → vq = s.vq)
  /-- Else it returns 0 : it has filled the first free descriptor, put its head in the slot of the
  request, and moved the index past it. -/
  add : s.adding = false → ∀ virtToPhys (buf : BitVec w) len, buf ≠ 0 → len ≠ 0 →
    s.inFlight.length ≠ 2 ^ k → ∃ vq, virtqueueAddOutbuf virtToPhys buf len s.vq = some (0, vq) ∧
      vq = virtqueueAddOutbuf.publish (virtqueueAddOutbuf.fill virtToPhys buf len s.vq) ∧
      (vq.availRing (s.adds.length % 2 ^ k)).toNat = s.vq.freeHead.toNat ∧
      vq.availIdx = BitVec.ofNat 16 (s.adds.length + 1) ∧
      vq.numFree.toNat + 1 = s.vq.numFree.toNat
  /-- A poll that may find an entry returns the buffer of the next one, and its length. -/
  poll : s.adding = false → s.Ready → ∃ c vq, s.used[s.gets.length]? = some c ∧
    virtqueueGetBuf s.vq = some (s.buf c.seq, c.len, vq)
  /-- The device completes a request once, by the head it was published with. -/
  used : (s.used.map VqUsed.seq).Nodup ∧
    ∀ c ∈ s.used, c.seq < s.adds.length ∧ c.head.toNat = s.head c.seq
  /-- The buffers returned, with the lengths that the device wrote. -/
  gets : s.gets = (s.used.take s.gets.length).map fun c => (s.buf c.seq, c.len)
  /-- Every buffer added is in flight or was returned, once. -/
  once : (s.gets.map Prod.fst ++ s.inFlight.map s.buf).Perm (s.adds.map VqRequest.buf)

section Accounts

variable {k : ℕ} {s : VqRun w} {free live : List ℕ}

/-- A segment is where the links lead. -/
theorem iterate_of_seg {next : ℕ → ℕ} : ∀ {l : List ℕ} {p q : ℕ}, Seg next p l q →
    List.iterate next p l.length = l
  | [], _, _, _ => rfl
  | _ :: _, _, _, ⟨rfl, h⟩ => congrArg _ (iterate_of_seg h)

theorem Ledger.inFlight_perm (h : s.Ledger live) : s.inFlight.Perm live := by
  have hnd := h.live.nodup_iff.mpr List.nodup_range
  obtain ⟨hlive, -, hdisj⟩ := List.nodup_append.mp hnd
  refine (List.perm_ext_iff_of_nodup (List.nodup_range.filter _) hlive).mpr fun q => ?_
  rw [List.mem_filter, ← h.live.mem_iff, List.mem_append, decide_eq_true_iff]
  constructor
  · exact fun ⟨hor, hnot⟩ => hor.resolve_right hnot
  · exact fun hq => ⟨Or.inl hq, fun hseen => hdisj q hq q hseen rfl⟩

theorem map_buf_range : (List.range s.adds.length).map s.buf = s.adds.map VqRequest.buf := by
  refine List.ext_getElem (by simp) fun i h₁ h₂ => ?_
  have hi : i < s.adds.length := by simpa using h₁
  rw [List.getElem_map, List.getElem_map, List.getElem_range, buf, List.getD_eq_getElem?_getD,
    List.getElem?_eq_getElem hi, Option.getD_some]

theorem Ledger.once (h : s.Ledger live) :
    (s.gets.map Prod.fst ++ s.inFlight.map s.buf).Perm (s.adds.map VqRequest.buf) := by
  have hgets : s.gets.map Prod.fst =
      ((s.used.take s.gets.length).map VqUsed.seq).map s.buf := by
    conv_lhs => rw [h.gets]
    rw [List.map_map, List.map_map]
    rfl
  rw [hgets, ← map_buf_range, ← List.map_append]
  refine List.Perm.map _ (List.Perm.trans ?_ h.live)
  exact List.perm_append_comm.trans (h.inFlight_perm.append_right _)

/-- No descriptor is free when the whole ring is in flight. -/
theorem Inv.numFree_eq_zero_iff (h : s.Inv k free live) :
    s.vq.numFree = 0 ↔ s.inFlight.length = 2 ^ k := by
  have hshare := h.descs.free_length
  have hflight := h.ledger.inFlight_perm.length_eq
  have hfree := h.descs.numFree
  constructor
  · intro hzero
    rw [hzero] at hfree
    have : 0 = free.length := hfree
    omega
  · intro hall
    exact BitVec.eq_of_toNat_eq (hfree.trans (by show _ = 0; omega))

theorem Inv.full (h : s.Inv k free live) {virtToPhys : BitVec w → BitVec 64} {buf : BitVec w}
    {len : BitVec 32} (hbuf : buf ≠ 0) (hlen : len ≠ 0) :
    ∃ ret vq, virtqueueAddOutbuf virtToPhys buf len s.vq = some (ret, vq) ∧
      (ret = -1 ↔ s.inFlight.length = 2 ^ k) ∧ (ret = -1 → vq = s.vq) := by
  rw [← h.numFree_eq_zero_iff]
  by_cases hzero : s.vq.numFree = 0
  · refine ⟨-1, s.vq, by rw [virtqueueAddOutbuf, if_neg hbuf, if_neg hlen, if_pos hzero], ?_,
      fun _ => rfl⟩
    exact ⟨fun _ => hzero, fun _ => rfl⟩
  · refine ⟨0, _, by rw [virtqueueAddOutbuf, if_neg hbuf, if_neg hlen, if_neg hzero], ?_,
      fun habs => absurd habs (by decide)⟩
    exact ⟨fun habs => absurd habs (by decide), fun hall => absurd hall hzero⟩

theorem Inv.add (h : s.Inv k free live) (hk : k ≤ 15) (hadding : s.adding = false)
    {virtToPhys : BitVec w → BitVec 64} {buf : BitVec w} {len : BitVec 32} (hbuf : buf ≠ 0)
    (hlen : len ≠ 0) (hroom : s.inFlight.length ≠ 2 ^ k) :
    ∃ vq, virtqueueAddOutbuf virtToPhys buf len s.vq = some (0, vq) ∧
      vq = virtqueueAddOutbuf.publish (virtqueueAddOutbuf.fill virtToPhys buf len s.vq) ∧
      (vq.availRing (s.adds.length % 2 ^ k)).toNat = s.vq.freeHead.toNat ∧
      vq.availIdx = BitVec.ofNat 16 (s.adds.length + 1) ∧
      vq.numFree.toNat + 1 = s.vq.numFree.toNat := by
  have hfree : s.vq.numFree ≠ 0 := h.numFree_eq_zero_iff.not.mpr hroom
  obtain ⟨free', hfill⟩ := @Inv.fill _ _ _ _ _ h hk virtToPhys buf len hadding hbuf hfree
  have hpublish := hfill.publish rfl
  have havail := hpublish.rings.avail s.adds.length (h.ledger.fetched_le) (by simp [filled])
  refine ⟨_, by rw [virtqueueAddOutbuf, if_neg hbuf, if_neg hlen, if_neg hfree], rfl, ?_, ?_, ?_⟩
  · exact havail.trans (@filled_head_self _ s virtToPhys buf len)
  · refine hpublish.rings.availIdx.trans (congrArg _ ?_)
    exact @filled_length _ s virtToPhys buf len
  · have h1 : (1 : BitVec 32) ≤ s.vq.numFree := by
      rw [BitVec.le_def]
      exact Nat.pos_of_ne_zero fun hz => hfree (BitVec.eq_of_toNat_eq hz)
    show (s.vq.numFree - 1).toNat + 1 = _
    rw [BitVec.toNat_sub_of_le h1]
    exact Nat.sub_add_cancel h1

theorem Inv.accounts (h : s.Inv k free live) (hk : k ≤ 15) : s.Accounts k := by
  have hflight := h.ledger.inFlight_perm
  have hlen := hflight.length_eq
  obtain ⟨q, hseg⟩ := h.descs.chain
  have hpub := h.ledger.published_add
  refine ⟨?_, ?_, fun hadding => ?_, fun hadding => ?_, fun _ _ _ _ => h.full,
    fun hadding _ _ _ => h.add hk hadding, fun _ hready => ?_, ⟨?_, fun c hc => ?_⟩,
    h.ledger.gets, h.ledger.once⟩
  · rw [h.descs.numFree, hlen]
    exact h.descs.free_length
  · rw [h.descs.numFree, iterate_of_seg hseg]
    exact ((hflight.map _).append_left _).trans h.descs.share
  · rw [hadding, Bool.toNat_true] at hpub
    have havail := h.ledger.available
    refine ⟨by omega, by rw [h.rings.availIdx, ← hpub]; rfl, ?_⟩
    exact h.rings.avail _ (by omega) (by omega)
  · rw [hadding, Bool.toNat_false] at hpub
    rw [h.rings.availIdx, ← hpub]
    rfl
  · obtain ⟨c, vq, hc, hget, -⟩ := h.poll hk hready
    exact ⟨c, vq, hc, hget⟩
  · have hnd := h.ledger.fetched.nodup_iff.mpr List.nodup_range
    rw [List.map_append] at hnd
    exact (List.nodup_append.mp (List.nodup_append.mp hnd).2.1).1
  · have hc := List.mem_append_left s.putting.toList hc
    exact ⟨h.ledger.lt_of_used hc, h.rings.usedHead c hc⟩

/-- A queue whose polls all find an entry keeps its accounts, over runs of any length. -/
theorem accounting {num : BitVec 32} {data : ℕ → BitVec w} (hk : k ≤ 15)
    (hnum : num = BitVec.ofNat 32 (2 ^ k)) (h : Run num data Ready s) : s.Accounts k := by
  obtain ⟨free, live, hinv⟩ := h.inv hk hnum fun _ hready => hready
  exact hinv.accounts hk

/-- One buffer through a ring of two descriptors. -/
theorem accounting_one_buffer : ∃ s : VqRun 64, s.gets = [(1, 5)] ∧ s.Accounts 1 := by
  have hinit := @Run.init 64 2 (fun _ => 0) Ready
  have hadd := @Run.add 64 _ _ _ _ hinit rfl (fun _ => 0) 1 1 _ rfl
  have hfetch := hadd.move (Move.fetch (by decide))
  have hput := hfetch.move (@Move.put 64 _ [] [] (0, 0) 5 rfl rfl)
  have hcomplete := hput.move (Move.complete rfl)
  have hpoll := hcomplete.poll (by show 0 < 1; decide) ⟨rfl, 1, 5, _, rfl, rfl⟩
  exact ⟨_, rfl, accounting (by decide) rfl hpoll⟩

end Accounts

/-! ## Polling an empty ring -/

/-- What a poll in `s` should do : it returns the buffer of an entry that the device has put in
the used ring and the driver has not seen, and when the indices agree nothing, unchanged. -/
def PollSafe (s : VqRun w) : Prop :=
  ∀ ret len vq, virtqueueGetBuf s.vq = some (ret, len, vq) →
    (ret ≠ 0 → ∃ c ∈ s.unseen, c.head.toNat = s.head c.seq ∧ ret = s.buf c.seq) ∧
    (s.vq.usedIdx = s.vq.lastUsedIdx → ret = 0 ∧ vq.numFree = s.vq.numFree ∧
      vq.freeHead = s.vq.freeHead ∧ vq.desc = s.vq.desc ∧ vq.data = s.vq.data ∧
      vq.lastUsedIdx = s.vq.lastUsedIdx)

section PollSafe

variable {k : ℕ} {s : VqRun w} {free live : List ℕ}

/-- A poll of an empty ring counts an entry. -/
theorem Inv.not_pollSafe (h : s.Inv k free live) (hempty : ¬s.HasUsed) : ¬s.PollSafe := by
  intro hsafe
  have hsame := (hsafe _ _ _ (virtqueueGetBuf_eq h.descs.flags)).2 (not_not.mp hempty)
  have hidx : s.vq.lastUsedIdx + 1 = s.vq.lastUsedIdx := hsame.2.2.2.2.2
  bv_omega

theorem Inv.pollSafe (h : s.Inv k free live) (hk : k ≤ 15) (hused : s.HasUsed) : s.PollSafe := by
  intro ret len vq hget
  obtain ⟨c, vq', hc, hget', -⟩ := h.poll hk ((h.hasUsed_iff hk).mp hused)
  obtain ⟨rfl, -, -⟩ : ret = s.buf c.seq ∧ len = c.len ∧ vq = vq' := by
    simpa using hget.symm.trans hget'
  refine ⟨fun _ => ⟨c, ?_, ?_, rfl⟩, fun heq => absurd heq hused⟩
  · rw [unseen, List.mem_iff_getElem?]
    exact ⟨0, by rw [List.getElem?_drop]; exact hc⟩
  · exact h.rings.usedHead c (List.mem_append_left _ (List.mem_of_getElem? hc))

/-- In a run whose polls were made when the used ring was ahead, the polls that go well are
those made when it is ahead. -/
theorem pollSafe_iff {num : BitVec 32} {data : ℕ → BitVec w} (hk : k ≤ 15)
    (hnum : num = BitVec.ofNat 32 (2 ^ k)) (h : Run num data HasUsed s) :
    s.PollSafe ↔ s.HasUsed := by
  obtain ⟨free, live, hinv⟩ := h.inv hk hnum fun hinv hused => (hinv.hasUsed_iff hk).mp hused
  refine ⟨fun hsafe => ?_, hinv.pollSafe hk⟩
  by_contra hempty
  exact hinv.not_pollSafe hempty hsafe

/-- The poll of a ring that is ahead goes well. -/
theorem pollSafe_iff_completed : ∃ s : VqRun 64, s.HasUsed ∧ (s.PollSafe ↔ s.HasUsed) := by
  have hinit := @Run.init 64 1 (fun _ => 0) HasUsed
  have hadd := @Run.add 64 _ _ _ _ hinit rfl (fun _ => 0) 1 1 _ rfl
  have hfetch := hadd.move (Move.fetch (by decide))
  have hput := hfetch.move (@Move.put 64 _ [] [] (0, 0) 5 rfl rfl)
  have hcomplete := hput.move (Move.complete rfl)
  exact ⟨_, by show (0 : BitVec 16) + 1 ≠ 0; decide, pollSafe_iff (Nat.zero_le 15) rfl hcomplete⟩

/-- One descriptor, one add, and a poll before the device has done anything. -/
theorem poll_before_device : ∃ s : VqRun 64, Run 1 (fun _ => 0) HasUsed s ∧ s.adding = false ∧
    s.used = [] ∧ (∃ len vq, virtqueueGetBuf s.vq = some (1, len, vq)) ∧ ¬s.PollSafe := by
  have hinit := @Run.init 64 1 (fun _ => 0) HasUsed
  have hadd := @Run.add 64 _ _ _ _ hinit rfl (fun _ => 0) 1 1 _ rfl
  refine ⟨_, hadd, rfl, rfl, ⟨_, _, rfl⟩, fun hsafe => ?_⟩
  obtain ⟨c, hc, -⟩ := (hsafe 1 _ _ rfl).1 (by decide)
  exact absurd hc (List.not_mem_nil)

end PollSafe

end VqRun

end AcrnUt
