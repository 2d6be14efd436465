import AcrnUt.PageAlloc

/-!
# Conservation of pages

A pool is the allocator's machine with the pages that are out and the pages donated so
far. Owners write the pages that are out in any way. `Pool.Reachable` is every finite
sequence of the four operations and of owners' writes, from the empty list.

In every reachable pool the free list is finite and repeats no page, and its pages and
the pages out partition the donated pages (`Pool.conservation`). Every legal operation
returns, and a block that `alloc_pages` hands out is `2^order` contiguous pages, cut out
of the list at a multiple of its size.
-/

set_option linter.unusedSectionVars false

namespace AcrnUt

variable {w : ℕ} [PageGeom w]

/-! ## Pools -/

/-- The allocator with the pages that are out, and the pages donated so far. -/
structure Pool (w : ℕ) where
  machine : Machine w
  out : Set (BitVec w)
  donated : Set (BitVec w)

/-- What can happen to a pool : the operations of the allocator, and an owner's write. -/
inductive PoolOp (w : ℕ)
  | freePages (mem size : BitVec w)
  | allocPage
  | allocPages (order : BitVec w)
  | freePage (page : BitVec w)
  | write (a v : BitVec w)

namespace Pool

/-- The pages on the free list. -/
def free (s : Pool w) : Set (BitVec w) :=
  s.machine.freeSet

/-- The calls a caller may make. Donated pages are new and not null, a freed page is
out, and an owner writes within a page that is out. -/
def Legal (s : Pool w) : PoolOp w → Prop
  | .freePages mem size => size ≠ 0 ∧
      ∀ p ∈ pageRun mem (pageCount size), p ≠ 0 ∧ p ∉ s.free ∧ p ∉ s.out
  | .allocPage => True
  | .allocPages order => order.toNat < w
  | .freePage page => page ∈ s.out
  | .write a _ => ∃ p ∈ s.out, InPage a p

/-- The assertions of `free_pages` hold; the other legal calls assert nothing that can
fail. -/
def Asserted : PoolOp w → Prop
  | .freePages mem size => FreeArgs mem size
  | _ => True

/-- One operation. A page allocated is out, unless it is null. -/
def exec (s : Pool w) : PoolOp w → Option (Pool w)
  | .freePages mem size => (AcrnUt.freePages mem size s.machine).map fun m =>
      { s with machine := m, donated := s.donated ∪ {p | p ∈ pageRun mem (pageCount size)} }
  | .allocPage =>
      let pm := AcrnUt.allocPage s.machine
      some { s with machine := pm.2, out := s.out ∪ {q | q = pm.1 ∧ q ≠ 0} }
  | .allocPages order => (AcrnUt.allocPages order s.machine).map fun (r, m) =>
      { s with
        machine := m
        out := s.out ∪ {q | r ≠ 0 ∧ q ∈ pageRun r (2 ^ order.toNat)} }
  | .freePage page =>
      some { s with machine := AcrnUt.freePage page s.machine, out := s.out \ {page} }
  | .write a v =>
      some { s with machine := { s.machine with mem := Function.update s.machine.mem a v } }

/-- The pools that sequences of legal operations reach from the empty list. -/
inductive Reachable : Pool w → Prop
  | init (mem : BitVec w → BitVec w) (denied : Bool) : Reachable ⟨⟨mem, 0, denied⟩, ∅, ∅⟩
  | step {s s' : Pool w} {op : PoolOp w} : Reachable s → s.Legal op → s.exec op = some s' →
      Reachable s'

/-- The free list is `l`, and `l` and the pages out partition the donated pages. -/
structure Inv (s : Pool w) (l : List (BitVec w)) : Prop where
  list : s.machine.FreeList l
  aligned : ∀ p ∈ s.donated, PageAligned p
  nonnull : ∀ p ∈ s.out, p ≠ 0
  disjoint : ∀ p ∈ l, p ∉ s.out
  cover : ∀ p, p ∈ s.donated ↔ p ∈ l ∨ p ∈ s.out

variable {s s' : Pool w} {l : List (BitVec w)}

theorem Inv.free_eq (h : s.Inv l) : s.free = {p | p ∈ l} :=
  h.list.freeSet_eq

/-- A legal donation whose assertions hold returns, and puts its pages in front. -/
theorem Inv.freePages (h : s.Inv l) {mem size : BitVec w} (hlegal : s.Legal (.freePages mem size))
    (hargs : FreeArgs mem size) :
    ∃ s', s.exec (.freePages mem size) = some s' ∧
      s'.Inv (pageRun mem (pageCount size) ++ l) := by
  obtain ⟨hsize, hnew⟩ := hlegal
  rw [h.free_eq] at hnew
  obtain ⟨m', hm', hlist, -, -⟩ := freePages_spec h.list hargs hsize
    (fun h0 => (hnew 0 h0).1 rfl) fun p hp => (hnew p hp).2.1
  have hexec : s.exec (.freePages mem size) = some { s with
      machine := m', donated := s.donated ∪ {p | p ∈ pageRun mem (pageCount size)} } := by
    rw [exec, hm', Option.map_some]
  refine ⟨_, hexec, hlist, ?_, h.nonnull, ?_, ?_⟩
  · rintro p (hp | hp)
    · exact h.aligned p hp
    · obtain ⟨j, -, rfl⟩ := mem_pageRun.mp hp
      exact (pageAligned_iff.mp hargs.1).pageAt j
  · intro p hp
    rcases List.mem_append.mp hp with hp | hp
    · exact (hnew p hp).2.2
    · exact h.disjoint p hp
  · intro p
    simp only [Set.mem_union, Set.mem_ofPred_eq, List.mem_append, h.cover p]
    tauto

/-- `alloc_page` takes the first page of the list, or finds none. -/
theorem Inv.allocPage (h : s.Inv l) :
    ∃ s', s.exec .allocPage = some s' ∧ s'.Inv l.tail := by
  cases l with
  | nil =>
    have hexec : s.exec .allocPage = some { s with
        machine := { s.machine with denied := true }, out := s.out ∪ {q | q = 0 ∧ q ≠ 0} } := by
      simp only [exec, allocPage_nil h.list]
    refine ⟨_, hexec, h.list, h.aligned, ?_, by simp, ?_⟩
    · rintro p (hp | ⟨-, hp⟩)
      · exact h.nonnull p hp
      · exact hp
    · intro p
      rw [h.cover p]
      exact ⟨fun hp => hp.elim (fun hp => by simp at hp) fun hp => Or.inr (Or.inl hp),
        fun hp => hp.elim (fun hp => by simp at hp) fun hp =>
          hp.elim Or.inr fun hp => absurd hp.1 hp.2⟩
  | cons q l =>
    obtain ⟨heq, htl⟩ := allocPage_cons h.list
    have hq0 : q ≠ 0 := Chain.ne_null h.list (by simp)
    have hql : q ∉ l := (List.nodup_cons.mp (Chain.nodup h.list)).1
    have hexec : s.exec .allocPage = some { s with
        machine := { s.machine with freelist := s.machine.mem q },
        out := s.out ∪ {p | p = q ∧ p ≠ 0} } := by
      simp only [exec, heq]
    refine ⟨_, hexec, htl, h.aligned, ?_, ?_, ?_⟩
    · rintro p (hp | ⟨-, hp⟩)
      · exact h.nonnull p hp
      · exact hp
    · rintro p hp (hout | ⟨rfl, -⟩)
      · exact h.disjoint p (by simp [List.tail_cons ▸ hp]) hout
      · exact hql hp
    · intro p
      simp only [h.cover p, List.mem_cons, List.tail_cons, Set.mem_union, Set.mem_ofPred_eq]
      constructor
      · rintro ((rfl | hp) | hp)
        · exact Or.inr (Or.inr ⟨rfl, hq0⟩)
        · exact Or.inl hp
        · exact Or.inr (Or.inl hp)
      · rintro (hp | hp | ⟨rfl, -⟩)
        · exact Or.inl (Or.inr hp)
        · exact Or.inr hp
        · exact Or.inl (Or.inl rfl)

/-- A block that is cut out of the list is out; nothing else changes. -/
theorem Inv.cut (h : s.Inv l) {order : ℕ} {r : BitVec w} {m' : Machine w}
    (hcut : Cut s.machine order l r m') : ∃ l', Inv { s with
      machine := m', out := s.out ∪ {q | r ≠ 0 ∧ q ∈ pageRun r (2 ^ order)} } l' := by
  rcases hcut with ⟨rfl, rfl⟩ | ⟨pre, rest, hr, hl, hlist, -, -⟩
  · refine ⟨l, ?_⟩
    simpa using h
  · have hnd := Chain.nodup h.list
    rw [hl] at hnd
    have hmem : ∀ p, p ∈ l ↔ p ∈ pre ++ rest ∨ p ∈ pageRun r (2 ^ order) := by
      intro p
      simp only [hl, List.mem_append]
      tauto
    refine ⟨pre ++ rest, hlist, h.aligned, ?_, ?_, ?_⟩
    · rintro p (hp | ⟨-, hp⟩)
      · exact h.nonnull p hp
      · exact Chain.ne_null h.list ((hmem p).mpr (Or.inr hp))
    · rintro p hp (hout | ⟨-, hblk⟩)
      · exact h.disjoint p ((hmem p).mpr (Or.inl hp)) hout
      · rcases List.mem_append.mp hp with hp | hp
        · exact (List.nodup_append.mp (List.nodup_append.mp hnd).1).2.2 p hp p hblk rfl
        · exact (List.nodup_append.mp hnd).2.2 p (by simp [hblk]) p hp rfl
    · intro p
      simp only [h.cover p, hmem p, Set.mem_union, Set.mem_ofPred_eq]
      have := hr.1
      tauto

/-- `alloc_pages` cuts a block out of the list, or finds none. -/
theorem Inv.allocPages (h : s.Inv l) {order : BitVec w} (horder : order.toNat < w) :
    ∃ s' l', s.exec (.allocPages order) = some s' ∧ s'.Inv l' := by
  obtain ⟨r, m', heq, hcut⟩ := allocPages_spec h.list horder
  obtain ⟨l', h'⟩ := h.cut hcut
  have hexec : s.exec (.allocPages order) = some { s with
      machine := m', out := s.out ∪ {q | r ≠ 0 ∧ q ∈ pageRun r (2 ^ order.toNat)} } := by
    rw [exec, heq, Option.map_some]
  exact ⟨_, l', hexec, h'⟩

/-- A page that is out goes back to the front of the list. -/
theorem Inv.freePage (h : s.Inv l) {page : BitVec w} (hout : page ∈ s.out) :
    ∃ s', s.exec (.freePage page) = some s' ∧ s'.Inv (page :: l) := by
  have hl : page ∉ l := fun hp => h.disjoint page hp hout
  refine ⟨_, rfl, freePage_spec h.list (h.nonnull page hout) hl, h.aligned,
    fun p hp => h.nonnull p hp.1, ?_, ?_⟩
  · rintro p hp ⟨hp', hne⟩
    rcases List.mem_cons.mp hp with rfl | hp
    · exact hne rfl
    · exact h.disjoint p hp hp'
  · intro p
    simp only [h.cover p, List.mem_cons, Set.mem_sdiff, Set.mem_singleton_iff]
    by_cases hp : p = page
    · simp [hp, hout]
    · simp [hp]

/-- An owner's write misses the first word of every free page. -/
theorem Inv.write (h : s.Inv l) {a v : BitVec w} (hlegal : s.Legal (.write a v)) :
    ∃ s', s.exec (.write a v) = some s' ∧ s'.Inv l := by
  obtain ⟨p, hp, hap⟩ := hlegal
  refine ⟨_, rfl, ⟨Chain.congr h.list fun q hq => ?_, h.aligned, h.nonnull, h.disjoint, h.cover⟩⟩
  refine Function.update_of_ne ?_ _ _
  rintro rfl
  have hpa := h.aligned p ((h.cover p).mpr (Or.inr hp))
  have hqa := h.aligned q ((h.cover q).mpr (Or.inl hq))
  exact h.disjoint q hq (hpa.eq_of_inPage hqa hap ▸ hp)

/-- A legal operation whose assertions hold returns, and keeps the invariant. -/
theorem Inv.exec (h : s.Inv l) {op : PoolOp w} (hlegal : s.Legal op) (hassert : Asserted op) :
    ∃ s' l', s.exec op = some s' ∧ s'.Inv l' := by
  cases op with
  | freePages mem size =>
    obtain ⟨s', hs', h'⟩ := h.freePages hlegal hassert
    exact ⟨s', _, hs', h'⟩
  | allocPage =>
    obtain ⟨s', hs', h'⟩ := h.allocPage
    exact ⟨s', _, hs', h'⟩
  | allocPages order => exact h.allocPages hlegal
  | freePage page =>
    obtain ⟨s', hs', h'⟩ := h.freePage hlegal
    exact ⟨s', _, hs', h'⟩
  | write a v =>
    obtain ⟨s', hs', h'⟩ := h.write hlegal
    exact ⟨s', _, hs', h'⟩

/-- A `free_pages` that returns passed its assertions. -/
theorem asserted_of_exec {op : PoolOp w} (h : s.exec op = some s') : Asserted op := by
  cases op with
  | freePages mem size =>
    simp only [Pool.exec, AcrnUt.freePages, Option.map_eq_some_iff] at h
    obtain ⟨m, hm, -⟩ := h
    split_ifs at hm with h₁ h₂ h₃
    all_goals exact ⟨not_not.mp h₁, not_not.mp h₂, h₃⟩
  | _ => trivial

theorem Reachable.inv (h : s.Reachable) : ∃ l, s.Inv l := by
  induction h with
  | init mem denied =>
    exact ⟨[], chain_nil.mpr rfl, by simp, by simp, by simp, by simp⟩
  | step _ hlegal hexec ih =>
    obtain ⟨l, hl⟩ := ih
    obtain ⟨s'', l', hs'', hl'⟩ := hl.exec hlegal (asserted_of_exec hexec)
    rw [hexec] at hs''
    cases hs''
    exact ⟨l', hl'⟩

/-- In every reachable pool the free list is finite and repeats no page, and its pages
and the pages out partition the pages donated so far. Every legal operation whose
assertions hold returns. A block that `alloc_pages` hands out is `2^order` contiguous
pages at a multiple of its size, taken out of the list, whose other pages keep their
order. -/
theorem conservation (h : s.Reachable) :
    ∃ l, s.machine.FreeList l ∧ l.Nodup ∧ (∀ p ∈ l, p ∉ s.out) ∧
      s.donated = {p | p ∈ l} ∪ s.out ∧
      (∀ op, s.Legal op → Asserted op → ∃ s', s.exec op = some s' ∧ s'.Reachable) ∧
      ∀ order r m', AcrnUt.allocPages order s.machine = some (r, m') → r ≠ 0 →
        ∃ pre rest, l = pre ++ pageRun r (2 ^ order.toNat) ++ rest ∧
          m'.FreeList (pre ++ rest) ∧
          r.toNat % (2 ^ order.toNat * 2 ^ pageShift w) = 0 ∧
          ∀ j < 2 ^ order.toNat, (pageAt r j).toNat = r.toNat + j * 2 ^ pageShift w := by
  obtain ⟨l, hl⟩ := h.inv
  refine ⟨l, hl.list, Chain.nodup hl.list, hl.disjoint, Set.ext fun p => hl.cover p, ?_, ?_⟩
  · intro op hlegal hassert
    obtain ⟨s', -, hs', -⟩ := hl.exec hlegal hassert
    exact ⟨s', hs', h.step hlegal hs'⟩
  · intro order r m' heq hr
    have horder : order.toNat < w := by
      by_contra hw
      simp [AcrnUt.allocPages, not_lt.mp hw] at heq
    obtain ⟨r', m'', heq', hcut⟩ := allocPages_spec hl.list horder
    rw [heq] at heq'
    cases heq'
    rcases hcut with ⟨h0, -⟩ | ⟨pre, rest, hblk, hsplit, hlist, -, -⟩
    · exact absurd h0 hr
    · exact ⟨pre, rest, hsplit, hlist, Nat.pow_add .. ▸ hblk.2,
        fun j hj => Block.toNat_pageAt hblk hj⟩

/-- Two pages donated to an empty 64-bit pool. -/
theorem conservation_two_pages :
    ∃ s : Pool 64, (⟨⟨fun _ => 0, 0, false⟩, ∅, ∅⟩ : Pool 64).exec
        (.freePages 0x1000 0x2000) = some s ∧
      ∃ l, s.machine.FreeList l ∧ l.Nodup ∧ s.donated = {p | p ∈ l} ∪ s.out := by
  have hinit := Reachable.init (w := 64) (fun _ => 0) false
  obtain ⟨l, hl, -, -, -, hexec, -⟩ := conservation hinit
  have hnil : l = [] := Chain.unique hl (chain_nil.mpr rfl)
  have hlegal : (⟨⟨fun _ => 0, 0, false⟩, ∅, ∅⟩ : Pool 64).Legal (.freePages 0x1000 0x2000) := by
    refine ⟨by decide, fun p hp => ⟨?_, ?_, fun hout => hout⟩⟩
    · rintro rfl
      exact absurd hp (by decide)
    · rintro ⟨l', hl', hp'⟩
      rw [Chain.unique hl' hl, hnil] at hp'
      simp at hp'
  obtain ⟨s, hs, hreach⟩ := hexec _ hlegal ⟨by decide, by decide, by decide⟩
  obtain ⟨l', hl', hnd, -, hdon, -⟩ := conservation hreach
  exact ⟨s, hs, l', hl', hnd, hdon⟩

end Pool

end AcrnUt
