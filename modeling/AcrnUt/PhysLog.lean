import AcrnUt.PhysRequest

/-!
# The bounds of the allocation log

Two functions of `lib/alloc_phys.c` append to `regions`. `phys_alloc_aligned_safe` looks for
space first, `phys_alloc_get_unused` does not. Here `regions` goes on behind its 256 entries, so
that a run shows which entries it stores to (`LogRun`), and `phys_alloc_show` which it reads.

Along every run, all of them lie in the array exactly if each call of `phys_alloc_get_unused`
found nothing left to hand out, or an entry free (`LogRun.inBounds_iff`).
-/

set_option linter.unusedSectionVars false

namespace AcrnUt

/-! ## The source -/

/-- `phys_alloc_show` : the entries of `regions` that it reads. -/
def physAllocShow (s : PhysAlloc) : List ℕ :=
  List.range s.nrRegions

/-- `phys_alloc_get_unused`, with the entries that it stores to. -/
def physAllocGetUnused.log (s : PhysAlloc) : List ℕ × PhysAlloc :=
  if s.base = s.top then ([], s)
  else ([s.nrRegions], { s with
    regions := Function.update s.regions s.nrRegions ⟨s.base, s.top - s.base⟩
    nrRegions := s.nrRegions + 1
    base := s.top })

/-- A call of the allocator that may append to the log. -/
inductive LogOp (w : ℕ)
  | alloc (op : PhysOp w)
  | getUnused

namespace LogOp

variable {w : ℕ}

/-- The call, with the entries that it stores to : `nr_regions` counts them. -/
def exec : LogOp w → PhysAlloc → Option (List ℕ × PhysAlloc)
  | alloc op, s => (op.exec s).map fun (_, s') =>
    (List.range' s.nrRegions (s'.nrRegions - s.nrRegions), s')
  | getUnused, s => some (physAllocGetUnused.log s)

/-- The call appends nothing, or finds an entry free, if it does not look itself. -/
def HasRoom : LogOp w → PhysAlloc → Prop
  | alloc _, _ => True
  | getUnused, s => s.base = s.top ∨ s.nrRegions < physAllocNrRegions

end LogOp

/-! ## Runs -/

/-- The runs since `phys_alloc_init` : the calls, each with the state it was made in, and the
entries that they stored to. -/
inductive LogRun (w : ℕ) : PhysAlloc → List (LogOp w × PhysAlloc) → List ℕ → Prop
  | init (base size : BitVec 64) (s : PhysAlloc) : LogRun w (physAllocInit base size s) [] []
  | step {s s' : PhysAlloc} {calls : List (LogOp w × PhysAlloc)} {stores stores' : List ℕ}
    {op : LogOp w} : LogRun w s calls stores → op.exec s = some (stores', s') →
      LogRun w s' (calls ++ [(op, s)]) (stores ++ stores')

variable {w : ℕ} {s s' : PhysAlloc} {calls : List (LogOp w × PhysAlloc)} {stores : List ℕ}

/-- Where there is room, `phys_alloc_get_unused` stays in the array. -/
theorem physAllocGetUnused_eq (s : PhysAlloc) (h : (LogOp.getUnused : LogOp w).HasRoom s) :
    physAllocGetUnused s = some ((s.base, s.top), (physAllocGetUnused.log s).2) := by
  unfold physAllocGetUnused physAllocGetUnused.log
  rcases eq_or_ne s.base s.top with heq | hne
  · simp only [if_pos heq]
  · simp only [if_neg hne, if_pos (h.resolve_left hne)]

/-- A request logs itself in a free entry, or not at all. -/
theorem alloc_log {op : PhysOp w} {addr : BitVec 64} (h : op.exec s = some (addr, s')) :
    s'.nrRegions = s.nrRegions ∨
      s'.nrRegions = s.nrRegions + 1 ∧ s.nrRegions < physAllocNrRegions := by
  have hsafe := PhysOp.exec_eq h
  unfold physAllocAlignedSafe at hsafe
  simp only at hsafe
  split_ifs at hsafe with hbase hfree hlog
  · cases hsafe
    exact Or.inl rfl
  · cases hsafe
    exact Or.inr ⟨rfl, hlog⟩
  · cases hsafe
    exact Or.inl rfl

/-- A call with room stores inside the array, and leaves the count inside. -/
theorem LogOp.exec_inBounds {op : LogOp w} {stores' : List ℕ} (h : op.exec s = some (stores', s'))
    (hroom : op.HasRoom s) (hnr : s.nrRegions ≤ physAllocNrRegions) :
    (∀ i ∈ stores', i < physAllocNrRegions) ∧ s'.nrRegions ≤ physAllocNrRegions := by
  cases op with
  | alloc op =>
    obtain ⟨⟨addr, s₁⟩, hexec, heq⟩ := Option.map_eq_some_iff.mp h
    obtain ⟨rfl, rfl⟩ := Prod.mk.inj heq
    rcases alloc_log hexec with hsame | ⟨hnext, hlt⟩
    · rw [hsame, Nat.sub_self]
      exact ⟨by simp, hnr⟩
    · rw [hnext, Nat.add_sub_cancel_left]
      exact ⟨by simpa using hlt, hlt⟩
  | getUnused =>
    have hexec : physAllocGetUnused.log s = (stores', s') := Option.some.inj h
    unfold physAllocGetUnused.log at hexec
    split_ifs at hexec with heq
    · obtain ⟨rfl, rfl⟩ := Prod.mk.inj hexec
      exact ⟨by simp, hnr⟩
    · obtain ⟨rfl, rfl⟩ := Prod.mk.inj hexec
      have hlt := hroom.resolve_left heq
      exact ⟨by simpa using hlt, hlt⟩

/-- A call without room stores behind the array. -/
theorem LogOp.exec_outside {op : LogOp w} {stores' : List ℕ} (h : op.exec s = some (stores', s'))
    (hroom : ¬op.HasRoom s) : ∃ i ∈ stores', physAllocNrRegions ≤ i := by
  cases op with
  | alloc op => exact absurd trivial hroom
  | getUnused =>
    have hexec : physAllocGetUnused.log s = (stores', s') := Option.some.inj h
    obtain ⟨hne, hfull⟩ := not_or.mp hroom
    unfold physAllocGetUnused.log at hexec
    rw [if_neg hne] at hexec
    obtain ⟨rfl, -⟩ := Prod.mk.inj hexec
    exact ⟨_, List.mem_singleton_self _, not_lt.mp hfull⟩

/-- Calls with room keep the log in its array. -/
theorem LogRun.inBounds (h : LogRun w s calls stores) (hroom : ∀ c ∈ calls, c.1.HasRoom c.2) :
    (∀ i ∈ stores, i < physAllocNrRegions) ∧ s.nrRegions ≤ physAllocNrRegions := by
  induction h with
  | init base size s => exact ⟨by simp, Nat.zero_le _⟩
  | step _ hexec ih =>
    obtain ⟨hstores, hnr⟩ := ih fun c hc => hroom c (List.mem_append_left _ hc)
    obtain ⟨hstores', hnr'⟩ := LogOp.exec_inBounds hexec
      (hroom _ (List.mem_append_right _ (List.mem_singleton_self _))) hnr
    refine ⟨fun i hi => ?_, hnr'⟩
    rcases List.mem_append.mp hi with hi | hi
    · exact hstores i hi
    · exact hstores' i hi

/-- A run whose stores lie in the array made every call with room. -/
theorem LogRun.hasRoom (h : LogRun w s calls stores)
    (hstores : ∀ i ∈ stores, i < physAllocNrRegions) :
    ∀ c ∈ calls, c.1.HasRoom c.2 := by
  induction h with
  | init => exact fun c hc => absurd hc List.not_mem_nil
  | step _ hexec ih =>
    intro c hc
    rcases List.mem_append.mp hc with hc | hc
    · exact ih (fun i hi => hstores i (List.mem_append_left _ hi)) c hc
    · rw [List.mem_singleton.mp hc]
      by_contra hroom
      obtain ⟨i, hi, hge⟩ := LogOp.exec_outside hexec hroom
      exact absurd (hstores i (List.mem_append_right _ hi)) (not_lt.mpr hge)

/-- In every run, of any calls in any order : all stores to `regions` and all reads of
`phys_alloc_show` lie in the array, and `nr_regions` does not exceed 256, exactly if each call of
`phys_alloc_get_unused` was made with nothing left or with less than 256 regions logged. -/
theorem LogRun.inBounds_iff (h : LogRun w s calls stores) :
    ((∀ i ∈ stores, i < physAllocNrRegions) ∧ s.nrRegions ≤ physAllocNrRegions ∧
        ∀ i ∈ physAllocShow s, i < physAllocNrRegions) ↔
      ∀ c ∈ calls, c.1 = .getUnused → c.2.base = c.2.top ∨ c.2.nrRegions < physAllocNrRegions := by
  have hroom : (∀ c ∈ calls, c.1.HasRoom c.2) ↔
      ∀ c ∈ calls, c.1 = .getUnused → c.2.base = c.2.top ∨ c.2.nrRegions < physAllocNrRegions := by
    refine forall₂_congr fun c _ => ?_
    rcases c with ⟨op | _, s₁⟩
    · simp [LogOp.HasRoom]
    · simp [LogOp.HasRoom]
  rw [← hroom]
  constructor
  · exact fun hin => h.hasRoom hin.1
  · intro hcalls
    obtain ⟨hstores, hnr⟩ := h.inBounds hcalls
    exact ⟨hstores, hnr, fun i hi => (List.mem_range.mp hi).trans_le hnr⟩

/-- One byte at a time from `0x1000` on. -/
theorem LogRun.fill : ∀ n ≤ physAllocNrRegions, ∃ s calls stores, LogRun 64 s calls stores ∧
    s.base.toNat = 0x1000 + n ∧ s.top = 0x2000 ∧ s.nrRegions = n
  | 0, _ => ⟨_, _, _, .init 0x1000 0x1000 PhysAlloc.blank, rfl, rfl, rfl⟩
  | n + 1, hn => by
    have hcap : physAllocNrRegions = 256 := rfl
    obtain ⟨s, calls, stores, hrun, hbase, htop, hnr⟩ := fill n (Nat.le_of_succ_le hn)
    have htoNat : s.top.toNat = 0x2000 := by
      rw [htop]
      rfl
    have hlt : s.base < s.top := by
      rw [BitVec.lt_def]
      omega
    have halign : align s.base 1 = s.base := by
      have hmask : ~~~(1 - 1 : BitVec 64) = BitVec.allOnes 64 := by decide
      rw [align, hmask, BitVec.and_allOnes]
      exact BitVec.add_zero _
    have hfits : ¬s.top - s.base < 1 + (s.base - s.base) := by
      rw [BitVec.lt_def, BitVec.toNat_sub_of_le (BitVec.le_def.mpr (BitVec.lt_def.mp hlt).le),
        BitVec.sub_self, BitVec.add_zero]
      show ¬s.top.toNat - s.base.toNat < 1
      omega
    have hexec : (PhysOp.alignedSafe 1 1 false : PhysOp 64).exec s = some (s.base, { s with
        base := s.base + (1 + (s.base - s.base))
        regions := Function.update s.regions s.nrRegions ⟨s.base, 1⟩
        nrRegions := s.nrRegions + 1 }) := by
      have htopSafe : topSafe 64 false s = s.top := rfl
      unfold PhysOp.exec physAllocAlignedSafe
      simp only [htopSafe, hlt, halign, hfits, not_true, if_false]
      rw [if_pos (by omega)]
    have hstep : (LogOp.alloc (.alignedSafe 1 1 false) : LogOp 64).exec s = some _ :=
      Option.map_eq_some_iff.mpr ⟨_, hexec, rfl⟩
    refine ⟨_, _, _, hrun.step hstep, ?_, htop, congrArg (· + 1) hnr⟩
    show (s.base + (1 + (s.base - s.base))).toNat = _
    rw [BitVec.sub_self, BitVec.add_zero, BitVec.toNat_add, hbase]
    show (0x1000 + n + 1) % 2 ^ 64 = 0x1000 + (n + 1)
    omega

/-- After 256 requests, handing out the rest stores behind the array, and `phys_alloc_show` reads
there. -/
theorem LogRun.outside : ∃ s calls stores, LogRun 64 s calls stores ∧
    physAllocNrRegions ∈ stores ∧ s.nrRegions = physAllocNrRegions + 1 ∧
      physAllocNrRegions ∈ physAllocShow s := by
  obtain ⟨s, calls, stores, hrun, hbase, htop, hnr⟩ := fill physAllocNrRegions le_rfl
  have hne : s.base ≠ s.top := by
    intro heq
    rw [heq, htop] at hbase
    exact absurd hbase (by decide)
  have hexec : (LogOp.getUnused : LogOp 64).exec s = some _ :=
    congrArg some (if_neg hne)
  refine ⟨_, _, _, hrun.step hexec, by simp [hnr], congrArg (· + 1) hnr, ?_⟩
  unfold physAllocShow
  simp [hnr]

/-- All of 4096 bytes, handed out at once. -/
theorem LogRun.inBounds_iff_rest : ∃ s calls, LogRun 64 s calls [0] ∧
    s.nrRegions ≤ physAllocNrRegions := by
  have hexec : (LogOp.getUnused : LogOp 64).exec
      (physAllocInit 0x1000 0x1000 PhysAlloc.blank) = some ([0], _) := rfl
  have hrun : LogRun 64 _ _ [0] := .step (.init 0x1000 0x1000 PhysAlloc.blank) hexec
  refine ⟨_, _, hrun, (hrun.inBounds_iff.mpr fun c hc _ => ?_).2.1⟩
  obtain rfl := List.mem_singleton.mp hc
  exact Or.inr (by decide)

end AcrnUt
