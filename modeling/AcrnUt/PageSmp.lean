import AcrnUt.PagePool
import AcrnUt.PageScan
import Mathlib.Order.CompletePartialOrder

/-!
# The page allocator on several CPUs

`lib/alloc_page.c` as steps of any number of CPUs under sequential consistency. A section under
the lock is one step, and so is a read of `freelist` outside it. `alloc_page` looks there whether
the list is empty, and `alloc_pages` takes there the head from which its section scans. In
between, other CPUs may drain or relink the list.

A CPU that meets `PageSmp.Fresh` enters its section with a list that is not empty, or with a head
that is still a free page, and before which no free page would be cut off. If every section does,
the CPUs together run the allocator of `Pool` : the free list and what the CPUs hold partition
the donated pages, and no two CPUs hold a page (`PageSmp.run_sound`). A section that does not
follows a null or allocated head, or loses a page (`PageSmp.harm_of_not_fresh`).
-/

set_option linter.unusedSectionVars false

namespace AcrnUt

variable {w : ℕ} [PageGeom w]

/-! ## The sections -/

/-- The section of `alloc_page`. -/
def allocPage.locked (m : Machine w) : BitVec w × Machine w :=
  (m.freelist, { m with freelist := m.mem m.freelist })

/-- The section of `alloc_pages`, after it has read `next`. -/
def allocPages.locked (order next : BitVec w) (m : Machine w) : Option (BitVec w × Machine w) :=
  let n := 1#w <<< order.toNat
  let alignMask := (n <<< pageShift w) - 1
  allocPages.scan m n alignMask (2 ^ w) ⟨0, next, 0, 0, 0, 0⟩

/-- On one CPU, the check and the section are `alloc_page`. -/
theorem allocPage_eq_locked {m : Machine w} (h : m.freelist ≠ 0) :
    allocPage m = allocPage.locked m :=
  if_neg h

/-- On one CPU, the read and the section are `alloc_pages`. -/
theorem allocPages_eq_locked {m : Machine w} {order : BitVec w} (horder : order.toNat < w) :
    allocPages order m = allocPages.locked order m.freelist m := by
  unfold allocPages
  rw [if_neg (not_le.mpr horder)]
  rfl

section Locked

variable {m m' : Machine w} {l front rest : List (BitVec w)} {order : ℕ} {next r : BitVec w}

/-- The scan does not look at `freelist`, and writes it only if it takes the block at its head. -/
theorem scan_freelist (horder : order < w) (hl : m.FreeList l) (f : BitVec w) :
    ∀ {rest : List (BitVec w)} {fuel : ℕ} {s : Scan w} {pre : List (BitVec w)} {k : ℕ},
      k < 2 ^ order → ScanInv m order l s pre k rest →
      allocPages.scan m (1#w <<< order) ((1#w <<< order <<< pageShift w) - 1) fuel s =
        some (r, m') →
      allocPages.scan { m with freelist := f } (1#w <<< order)
        ((1#w <<< order <<< pageShift w) - 1) fuel s =
          some (r, if m'.freelist = m.freelist then { m' with freelist := f } else m')
  | _, 0, _, _, _, _, _, hrun => by
    rw [allocPages.scan] at hrun
    cases hrun
  | [], fuel + 1, s, pre, k, _, h, hrun => by
    have hnull := chain_nil.mp h.ahead
    rw [allocPages.scan, if_pos hnull] at hrun
    cases hrun
    rw [allocPages.scan, if_pos hnull, if_pos rfl]
  | c :: rest, fuel + 1, s, pre, k, hk, h, hrun => by
    obtain ⟨hc, hc0, -⟩ := chain_cons.mp h.ahead
    obtain ⟨pre', k', -, hk', h'⟩ := h.advance horder hk
    rw [allocPages.scan, if_neg (hc ▸ hc0)] at hrun ⊢
    simp only at hrun ⊢
    generalize s.advance m.mem ((1#w <<< order <<< pageShift w) - 1) = s' at h' hrun ⊢
    by_cases hfull : s'.run = 1#w <<< order
    · have hk2 : k' = 2 ^ order := by rw [← h'.run, hfull, toNat_one_shiftLeft horder]
      rw [if_pos hfull] at hrun ⊢
      cases hrun
      unfold Scan.unlink
      by_cases hprev : s'.runPrev = 0
      · simp only [hprev, ne_eq, not_true, if_false]
        rw [if_neg]
        intro hsame
        -- Behind the block lies less than the whole list.
        have hrest := Chain.unique (hsame ▸ h'.ahead) hl
        have hlen := congrArg List.length h'.split
        rw [hrest, hk2] at hlen
        have := Nat.two_pow_pos order
        simp [pageRun] at hlen
        omega
      · simp only [hprev, ne_eq, not_false_eq_true, if_true]
    · rw [if_neg hfull] at hrun ⊢
      refine scan_freelist horder hl f (lt_of_le_of_ne hk' fun hk2 => ?_) h' hrun
      refine hfull (BitVec.eq_of_toNat_eq ?_)
      rw [h'.run, toNat_one_shiftLeft horder, hk2]

/-- A list that begins with a run begins with its first page. -/
theorem head_of_pageRun {r : BitVec w} {n : ℕ} (hn : 0 < n)
    (h : Chain m.mem 0 next (pageRun r n ++ rest)) : next = r := by
  obtain ⟨n, rfl⟩ := Nat.exists_eq_add_one.mpr hn
  rw [pageRun_cons] at h
  exact (chain_cons.mp h).1

/-- From a later page of the list the scan cuts out a block as from its head, unless it finds the
block at this page. -/
theorem locked_later (horder : order < w) (hl : m.FreeList (front ++ rest))
    (hnext : Chain m.mem 0 next rest) (hblock : ¬BlockAt order rest [] next) :
    ∃ r m', allocPages.scan m (1#w <<< order) ((1#w <<< order <<< pageShift w) - 1) (2 ^ w)
      ⟨0, next, 0, 0, 0, 0⟩ = some (r, m') ∧ Cut m order (front ++ rest) r m' := by
  let m₀ : Machine w := { m with freelist := next }
  have hl₀ : m₀.FreeList rest := hnext
  obtain ⟨r, m', hrun, hcut, -⟩ := scan_spec (Q := fun _ => True) horder hl₀
    (fun _ _ _ _ => trivial) rest (2 ^ w) _ [] 0 (length_lt_of_freeList hl₀) (Nat.two_pow_pos _)
    trivial (.start hl₀ order)
  have hrun' := scan_freelist horder hl₀ m.freelist (Nat.two_pow_pos _) (.start hl₀ order) hrun
  refine ⟨r, _, hrun', ?_⟩
  rcases hcut with ⟨rfl, rfl⟩ | ⟨pre, rest', hr, hsplit, hlist, hframe, hden⟩
  · exact Or.inl ⟨rfl, if_pos rfl⟩
  · obtain ⟨q, hseg, hnull, hq⟩ := chain_append.mp hl
    cases pre with
    | nil =>
      rw [List.nil_append] at hsplit
      obtain rfl := head_of_pageRun (Nat.two_pow_pos order) (hsplit ▸ hnext)
      exact absurd ⟨hr, rest', hsplit⟩ hblock
    | cons c pre =>
      have hhead : m'.freelist = next := by
        rw [hsplit] at hnext
        exact (chain_cons.mp hlist).1.trans (chain_cons.mp hnext).1.symm
      have hqnext : q = next := by
        rw [hsplit] at hq hnext
        exact (chain_cons.mp hq).1.trans (chain_cons.mp hnext).1.symm
      have hnd := Chain.nodup hl
      rw [if_pos hhead]
      refine Or.inr ⟨front ++ c :: pre, rest', hr, by rw [hsplit]; simp, ?_, fun a ha => ?_, hden⟩
      · rw [List.append_assoc]
        refine chain_append.mpr ⟨next, (hqnext ▸ hseg).congr fun a ha => ?_, hnull, hhead ▸ hlist⟩
        refine hframe a fun hpre => (List.nodup_append.mp hnd).2.2 a ha a ?_ rfl
        rw [hsplit]
        simp only [List.mem_append]
        exact Or.inl (Or.inl hpre)
      · exact hframe a fun hpre => ha (List.mem_append_right _ hpre)

/-- If there is a block at this page, the scan takes it, and the list goes on behind it. -/
theorem locked_block (horder : order < w) (hnext : Chain m.mem 0 next rest)
    (hblock : BlockAt order rest [] next) : ∃ m' rest',
      allocPages.scan m (1#w <<< order) ((1#w <<< order <<< pageShift w) - 1) (2 ^ w)
        ⟨0, next, 0, 0, 0, 0⟩ = some (next, m') ∧
      rest = pageRun next (2 ^ order) ++ rest' ∧ m'.FreeList rest' := by
  let m₀ : Machine w := { m with freelist := next }
  have hl₀ : m₀.FreeList rest := hnext
  obtain ⟨r, m', hrun, hcut, hscanned⟩ := scan_spec (Q := Clear order) horder hl₀
    (fun hpre hk hstart hturn => hpre.turn hk hstart hturn) rest (2 ^ w) _ [] 0
    (length_lt_of_freeList hl₀) (Nat.two_pow_pos _) .nil (.start hl₀ order)
  have hrun' := scan_freelist horder hl₀ m.freelist (Nat.two_pow_pos _) (.start hl₀ order) hrun
  obtain ⟨hr, rest', hsplit⟩ := hblock
  rw [List.nil_append] at hsplit
  have hpos := Nat.two_pow_pos order
  rcases hscanned with ⟨hr0, pre, rest₀, hpre, hclear⟩ |
    ⟨-, pre, start, k, hpre, hclear, hk, hstart⟩
  swap
  · have hparsed : Parsed order rest pre start k := ⟨hpre, hclear, hk, hstart⟩
    exact (hparsed.not_block .nil hr.2 ⟨rest', by rw [hsplit, List.nil_append]⟩).elim
  rcases hcut with ⟨h0, -⟩ | ⟨pre', rest₁, hblk, hsplit₁, hlist, -, -⟩
  · exact absurd h0 hr0
  obtain rfl : pre' = pre := BlockAt.pre_unique (Chain.nodup hl₀)
    ⟨hblk, rest₁, hsplit₁⟩ ⟨hblk, rest₀, hpre⟩
  obtain rfl : pre' = [] := by
    refine List.length_eq_zero_iff.mp (Nat.eq_zero_of_not_pos fun hlt => ?_)
    refine hclear.not_within ?_ .nil ⟨hr, rest', hsplit⟩ hlt
    exact ⟨pageRun r (2 ^ order) ++ rest₁, by rw [hsplit₁, List.append_assoc]⟩
  rw [List.nil_append] at hsplit₁ hlist
  obtain rfl := head_of_pageRun hpos (hsplit₁ ▸ hnext)
  have hmoved : m'.freelist ≠ m₀.freelist := by
    intro hsame
    have hrest : rest₁ = rest := by
      cases rest₁ with
      | nil => exact absurd ((chain_nil.mp hlist).symm.trans hsame) hr.1.symm
      | cons c rest₁ =>
        have hmem : next ∈ c :: rest₁ := by
          rw [← hsame.symm.trans (chain_cons.mp hlist).1]
          exact List.mem_cons_self
        have hnd := Chain.nodup hl₀
        rw [hsplit₁] at hnd
        exact absurd rfl
          ((List.nodup_append.mp hnd).2.2 next (mem_pageRun_self next hpos) next hmem)
    have hlen := congrArg List.length hsplit₁
    rw [hrest, List.length_append] at hlen
    simp [pageRun] at hlen
  rw [if_neg hmoved] at hrun'
  exact ⟨m', rest₁, hrun', hsplit₁, hlist⟩

/-- A null head finds no block. -/
theorem locked_null (horder : order < w) (hl : m.FreeList l) :
    ∃ r m', allocPages.scan m (1#w <<< order) ((1#w <<< order <<< pageShift w) - 1) (2 ^ w)
      ⟨0, 0, 0, 0, 0, 0⟩ = some (r, m') ∧ Cut m order l r m' := by
  have hl' : m.FreeList (l ++ []) := (List.append_nil l).symm ▸ hl
  have h := locked_later horder hl' (chain_nil.mpr rfl) fun hblock => hblock.1.1 rfl
  rwa [List.append_nil] at h

end Locked

/-! ## Shares of a set -/

section Shares

variable {α I : Type*} [DecidableEq I] {held : I → Set α} {X : Set α} {i : I} {a : α}

/-- What all hold, after one has taken more. -/
theorem union_update_union : {a | ∃ j, a ∈ Function.update held i (held i ∪ X) j} =
    {a | ∃ j, a ∈ held j} ∪ X := by
  ext a
  constructor
  · rintro ⟨j, hj⟩
    rcases eq_or_ne j i with rfl | hne
    · rw [Function.update_self] at hj
      exact hj.imp_left fun hj => ⟨j, hj⟩
    · rw [Function.update_of_ne hne] at hj
      exact Or.inl ⟨j, hj⟩
  · rintro (⟨j, hj⟩ | hX)
    · refine ⟨j, ?_⟩
      rcases eq_or_ne j i with rfl | hne
      · rw [Function.update_self]
        exact Or.inl hj
      · rwa [Function.update_of_ne hne]
    · refine ⟨i, ?_⟩
      rw [Function.update_self]
      exact Or.inr hX

/-- What all hold, after the only holder of `a` has given it back. -/
theorem union_update_sdiff (hdisj : ∀ i j, i ≠ j → Disjoint (held i) (held j)) (ha : a ∈ held i) :
    {b | ∃ j, b ∈ Function.update held i (held i \ {a}) j} = {b | ∃ j, b ∈ held j} \ {a} := by
  ext b
  constructor
  · rintro ⟨j, hj⟩
    rcases eq_or_ne j i with rfl | hne
    · rw [Function.update_self] at hj
      exact ⟨⟨j, hj.1⟩, hj.2⟩
    · rw [Function.update_of_ne hne] at hj
      refine ⟨⟨j, hj⟩, ?_⟩
      rintro rfl
      exact Set.disjoint_left.mp (hdisj j i hne) hj ha
  · rintro ⟨⟨j, hj⟩, hba⟩
    refine ⟨j, ?_⟩
    rcases eq_or_ne j i with rfl | hne
    · rw [Function.update_self]
      exact ⟨hj, hba⟩
    · rwa [Function.update_of_ne hne]

/-- One takes what nobody holds. -/
theorem disjoint_update (hdisj : ∀ i j, i ≠ j → Disjoint (held i) (held j)) {Y : Set α}
    (hY : ∀ a ∈ Y, a ∈ held i ∨ ∀ j, a ∉ held j) (j k : I) (hjk : j ≠ k) :
    Disjoint (Function.update held i Y j) (Function.update held i Y k) := by
  have hnew : ∀ j, j ≠ i → Disjoint Y (held j) := fun j hj =>
    Set.disjoint_left.mpr fun a ha haj => (hY a ha).elim
      (fun hi => Set.disjoint_left.mp (hdisj i j hj.symm) hi haj) fun hnone => hnone j haj
  rcases eq_or_ne j i with rfl | hj
  · rw [Function.update_self, Function.update_of_ne hjk.symm]
    exact hnew k hjk.symm
  · rw [Function.update_of_ne hj]
    rcases eq_or_ne k i with rfl | hk
    · rw [Function.update_self]
      exact (hnew j hj).symm
    · rw [Function.update_of_ne hk]
      exact hdisj j k hjk

end Shares

/-! ## CPUs -/

/-- Where a CPU is : outside the allocator, in `alloc_page` past the check, or in `alloc_pages`
with the head it has read. -/
inductive PagePc (w : ℕ)
  | ordinary
  | allocPage
  | allocPages (order next : BitVec w)

/-- The allocator and the CPUs, with the pages each holds. -/
structure PageSmp (Cpu : Type*) (w : ℕ) where
  machine : Machine w
  pc : Cpu → PagePc w
  held : Cpu → Set (BitVec w)

namespace PageSmp

variable {Cpu : Type*} [DecidableEq Cpu]

/-- A free list, and CPUs that hold nothing. -/
def init (m : Machine w) : PageSmp Cpu w where
  machine := m
  pc _ := .ordinary
  held _ := ∅

/-- One step of a CPU. A section that follows an unlocked read is entered where `cond` holds. A
CPU frees what it holds, and writes there as it likes. -/
inductive Step (cond : PageSmp Cpu w → Cpu → Prop) (s : PageSmp Cpu w) : PageSmp Cpu w → Prop
  | findEmpty {p : Cpu} : s.pc p = .ordinary → s.machine.freelist = 0 → Step cond s s
  | check {p : Cpu} : s.pc p = .ordinary → s.machine.freelist ≠ 0 →
      Step cond s { s with pc := Function.update s.pc p .allocPage }
  | allocPage {p : Cpu} : s.pc p = .allocPage → cond s p →
      Step cond s {
        machine := (allocPage.locked s.machine).2
        pc := Function.update s.pc p .ordinary
        held := Function.update s.held p
          (s.held p ∪ {q | q = (allocPage.locked s.machine).1 ∧ q ≠ 0}) }
  | read {p : Cpu} {order : BitVec w} : s.pc p = .ordinary → order.toNat < w →
      Step cond s { s with
        pc := Function.update s.pc p (.allocPages order s.machine.freelist) }
  | allocPages {p : Cpu} {order next r : BitVec w} {m' : Machine w} :
      s.pc p = .allocPages order next → cond s p →
      allocPages.locked order next s.machine = some (r, m') →
      Step cond s {
        machine := m'
        pc := Function.update s.pc p .ordinary
        held := Function.update s.held p
          (s.held p ∪ {q | r ≠ 0 ∧ q ∈ pageRun r (2 ^ order.toNat)}) }
  | freePage {p : Cpu} {page : BitVec w} : s.pc p = .ordinary → page ∈ s.held p →
      Step cond s { s with
        machine := freePage page s.machine
        held := Function.update s.held p (s.held p \ {page}) }
  | write {p : Cpu} {a v page : BitVec w} : page ∈ s.held p → InPage a page →
      Step cond s { s with machine := s.machine.store a v }

/-- The states that steps reach from a free list of pages of the address space. -/
inductive Run (cond : PageSmp Cpu w → Cpu → Prop) (donated : Set (BitVec w)) :
    PageSmp Cpu w → Prop
  | init {m : Machine w} {l : List (BitVec w)} : m.FreeList l → (∀ p ∈ l, PageAligned p) →
    donated = {p | p ∈ l} → Run cond donated (init m)
  | step {s s' : PageSmp Cpu w} : Run cond donated s → Step cond s s' → Run cond donated s'

/-- The list head whose cell the next section of a CPU reads. -/
def head (s : PageSmp Cpu w) (p : Cpu) : Option (BitVec w) :=
  match s.pc p with
  | .ordinary => none
  | .allocPage => some s.machine.freelist
  | .allocPages _ next => if next = 0 then none else some next

/-- The head that a CPU enters its section with is good : the list is not empty; and the head read
for a block is null, or still the head, or still a free page at which no such block starts. -/
def Fresh (s : PageSmp Cpu w) (p : Cpu) : Prop :=
  match s.pc p with
  | .ordinary => True
  | .allocPage => s.machine.freelist ≠ 0
  | .allocPages order next => next = 0 ∨ next = s.machine.freelist ∨
      ∃ front rest, s.machine.FreeList (front ++ rest) ∧ Chain s.machine.mem 0 next rest ∧
        ¬BlockAt order.toNat rest [] next

/-- No two CPUs hold a page, and every donated page is on the free list or held, not both. -/
structure Sound (donated : Set (BitVec w)) (s : PageSmp Cpu w) : Prop where
  disjoint : ∀ p q, p ≠ q → Disjoint (s.held p) (s.held q)
  kept : ∃ l, s.machine.FreeList l ∧ (∀ page ∈ l, ∀ p, page ∉ s.held p) ∧
    ∀ page, page ∈ donated ↔ page ∈ l ∨ ∃ p, page ∈ s.held p

/-! ## Every interleaving -/

/-- The allocator of all CPUs together. -/
def pool (donated : Set (BitVec w)) (s : PageSmp Cpu w) : Pool w :=
  ⟨s.machine, {a | ∃ p, a ∈ s.held p}, donated⟩

/-- The CPUs together are an allocator with the free list `l`, and share what is out. A head that
was read was a page. -/
structure Inv (donated : Set (BitVec w)) (s : PageSmp Cpu w) (l : List (BitVec w)) : Prop where
  pool : (s.pool donated).Inv l
  disjoint : ∀ p q, p ≠ q → Disjoint (s.held p) (s.held q)
  pending : ∀ p order next, s.pc p = .allocPages order next →
    order.toNat < w ∧ (next = 0 ∨ next ∈ donated)

section Run

variable {s s' : PageSmp Cpu w} {donated : Set (BitVec w)} {l : List (BitVec w)}
  {order next : BitVec w} {p : Cpu}

/-- A CPU that goes on, and reads no head. -/
theorem Inv.pending_update (h : Inv donated s l) {pc : PagePc w}
    (hpc : ∀ order next, pc = .allocPages order next → order.toNat < w ∧
      (next = 0 ∨ next ∈ donated))
    (q : Cpu) (order next : BitVec w)
    (hq : Function.update s.pc p pc q = .allocPages order next) :
    order.toNat < w ∧ (next = 0 ∨ next ∈ donated) := by
  rcases update_cases hq with ⟨-, heq⟩ | ⟨-, heq⟩
  · exact hpc order next heq
  · exact h.pending q order next heq

/-- A section of `alloc_pages` that is entered with a good head returns, and cuts a block out of
the list or finds none. -/
theorem Inv.locked (h : Inv donated s l) (hpc : s.pc p = .allocPages order next)
    (hfresh : s.Fresh p) : ∃ r m', allocPages.locked order next s.machine = some (r, m') ∧
      Cut s.machine order.toNat l r m' := by
  have horder := (h.pending p order next hpc).1
  unfold Fresh at hfresh
  simp only [hpc] at hfresh
  rcases hfresh with rfl | rfl | ⟨front, rest, hl, hnext, hblock⟩
  · exact locked_null horder h.pool.list
  · have hspec := allocPages_spec h.pool.list horder
    rwa [allocPages_eq_locked horder] at hspec
  · obtain rfl := Chain.unique hl h.pool.list
    exact locked_later horder hl hnext hblock

/-- A block that is cut out was held by nobody. -/
theorem Inv.cut_free (h : Inv donated s l) {order : ℕ} {r : BitVec w} {m' : Machine w}
    (hcut : Cut s.machine order l r m') {a : BitVec w} (hr : r ≠ 0)
    (ha : a ∈ pageRun r (2 ^ order)) (q : Cpu) : a ∉ s.held q := by
  rcases hcut with ⟨hnull, -⟩ | ⟨pre, rest, -, hsplit, -, -, -⟩
  · exact absurd hnull hr
  · have hmem : a ∈ l := by
      rw [hsplit]
      simp [ha]
    exact fun hq => h.pool.disjoint a hmem ⟨q, hq⟩

/-- The head of the list is null or a donated page. -/
theorem Inv.freelist (h : Inv donated s l) :
    s.machine.freelist = 0 ∨ (s.machine.freelist ∈ donated ∧ s.machine.freelist ∈ l) := by
  have hlist := h.pool.list
  cases l with
  | nil => exact Or.inl (chain_nil.mp hlist)
  | cons q l =>
    have hq : s.machine.freelist = q := (chain_cons.mp hlist).1
    exact Or.inr ⟨(h.pool.cover _).mpr (Or.inl (by simp [hq])), by simp [hq]⟩

theorem Inv.init {m : Machine w} (hl : m.FreeList l) (haligned : ∀ p ∈ l, PageAligned p)
    (hdonated : donated = {p | p ∈ l}) : Inv donated (init m : PageSmp Cpu w) l where
  pool := by
    refine ⟨hl, fun p hp => haligned p ?_, ?_, ?_, ?_⟩
    · exact (hdonated ▸ hp : p ∈ {p | p ∈ l})
    · rintro p ⟨q, hq⟩
      exact absurd hq (Set.notMem_empty p)
    · rintro p - ⟨q, hq⟩
      exact absurd hq (Set.notMem_empty p)
    · intro p
      show p ∈ donated ↔ _
      rw [hdonated]
      refine ⟨Or.inl, ?_⟩
      rintro (hp | ⟨q, hq⟩)
      · exact hp
      · exact absurd hq (Set.notMem_empty p)
  disjoint _ _ _ := Set.disjoint_empty _
  pending _ _ _ h := by cases h

/-- A step whose section is entered with a good head keeps the invariant. -/
theorem Inv.step (h : Inv donated s l) (hstep : Step Fresh s s') : ∃ l', Inv donated s' l' := by
  cases hstep with
  | findEmpty => exact ⟨l, h⟩
  | check =>
    refine ⟨l, h.pool, h.disjoint, h.pending_update fun _ _ heq => ?_⟩
    cases heq
  | @allocPage p hpc hfresh =>
    have hne : s.machine.freelist ≠ 0 := by
      unfold Fresh at hfresh
      simpa only [hpc] using hfresh
    obtain ⟨t, ht, hinv⟩ := h.pool.allocPage
    have hlocked : allocPage (s.pool donated).machine = allocPage.locked s.machine :=
      allocPage_eq_locked hne
    unfold Pool.exec at ht
    simp only [hlocked, Option.some.injEq] at ht
    subst ht
    refine ⟨l.tail, ?_, disjoint_update h.disjoint fun a ha => ?_,
      h.pending_update fun _ _ heq => ?_⟩
    · unfold PageSmp.pool
      rw [union_update_union]
      exact hinv
    · refine ha.imp_right ?_
      rintro ⟨rfl, -⟩ q hq
      rcases h.freelist with h0 | ⟨-, hmem⟩
      · exact hne h0
      · exact h.pool.disjoint _ hmem ⟨q, hq⟩
    · cases heq
  | @read p order hpc horder =>
    refine ⟨l, h.pool, h.disjoint, h.pending_update fun order' next heq => ?_⟩
    cases heq
    exact ⟨horder, h.freelist.imp_right And.left⟩
  | @allocPages p order next r m' hpc hfresh hrun =>
    obtain ⟨r₀, m₀, hrun₀, hcut⟩ := h.locked hpc hfresh
    rw [hrun] at hrun₀
    cases hrun₀
    obtain ⟨l', hinv⟩ := h.pool.cut hcut
    refine ⟨l', ?_, disjoint_update h.disjoint fun a ha => ?_, h.pending_update fun _ _ heq => ?_⟩
    · unfold PageSmp.pool
      rw [union_update_union]
      exact hinv
    · exact ha.imp_right fun ⟨hr, hblk⟩ => h.cut_free hcut hr hblk
    · cases heq
  | @freePage p page hpc hpage =>
    obtain ⟨t, ht, hinv⟩ := h.pool.freePage ⟨p, hpage⟩
    cases ht
    refine ⟨page :: l, ?_, disjoint_update h.disjoint fun a ha => Or.inl ha.1, h.pending⟩
    unfold PageSmp.pool
    rw [union_update_sdiff h.disjoint hpage]
    exact hinv
  | @write p a v page hpage ha =>
    obtain ⟨t, ht, hinv⟩ := h.pool.write (a := a) (v := v) ⟨page, ⟨p, hpage⟩, ha⟩
    cases ht
    exact ⟨l, hinv, h.disjoint, h.pending⟩

theorem Run.inv (h : Run Fresh donated s) : ∃ l, Inv donated s l := by
  induction h with
  | init hl haligned hdonated => exact ⟨_, .init hl haligned hdonated⟩
  | step _ hstep ih =>
    obtain ⟨l, hl⟩ := ih
    exact hl.step hstep

theorem Inv.sound (h : Inv donated s l) : Sound donated s where
  disjoint := h.disjoint
  kept := ⟨l, h.pool.list, fun page hpage p hp => h.pool.disjoint page hpage ⟨p, hp⟩, h.pool.cover⟩

/-- A good head is a free page. -/
theorem Inv.head_free (h : Inv donated s l) (hfresh : s.Fresh p) {a : BitVec w}
    (ha : s.head p = some a) : a ∈ l := by
  unfold Fresh at hfresh
  unfold head at ha
  cases hpc : s.pc p with
  | ordinary =>
    rw [hpc] at ha
    cases ha
  | allocPage =>
    simp only [hpc] at ha hfresh
    cases ha
    rcases h.freelist with h0 | ⟨-, hmem⟩
    · exact absurd h0 hfresh
    · exact hmem
  | allocPages order next =>
    simp only [hpc] at ha hfresh
    split_ifs at ha with hnull
    cases ha
    rcases hfresh with h0 | rfl | ⟨front, rest, hl, hnext, -⟩
    · exact absurd h0 hnull
    · exact (h.freelist.resolve_left hnull).2
    · obtain rfl := Chain.unique hl h.pool.list
      cases rest with
      | nil => exact absurd (chain_nil.mp hnext) hnull
      | cons c rest =>
        rw [(chain_cons.mp hnext).1]
        simp

/-- For any number of CPUs, every program of calls on each and every interleaving whose sections
are all entered with a good head : no two CPUs hold a page, no page is lost, and no section
follows a null head or one that somebody holds. Such a section returns. -/
theorem run_sound (h : Run Fresh donated s) : Sound donated s ∧
    (∀ p a, s.Fresh p → s.head p = some a → a ≠ 0 ∧ ∀ q, a ∉ s.held q) ∧
    ∀ p order next, s.pc p = .allocPages order next → s.Fresh p →
      ∃ r m', allocPages.locked order next s.machine = some (r, m') := by
  obtain ⟨l, hl⟩ := h.inv
  refine ⟨hl.sound, fun p a hfresh ha => ?_, fun p order next hpc hfresh => ?_⟩
  · have hmem := hl.head_free hfresh ha
    exact ⟨Chain.ne_null hl.pool.list hmem, fun q hq => hl.pool.disjoint a hmem ⟨q, hq⟩⟩
  · obtain ⟨r, m', hrun, -⟩ := hl.locked hpc hfresh
    exact ⟨r, m', hrun⟩

/-- A section entered with another head goes wrong : it follows a null head, or one that somebody
holds; or it cuts off a page, which is then neither free nor held. -/
theorem harm_of_not_fresh (h : Run Fresh donated s) (hnot : ¬s.Fresh p) :
    (∃ a, s.head p = some a ∧ (a = 0 ∨ ∃ q, a ∈ s.held q)) ∨
      ∃ order next r m' page, s.pc p = .allocPages order next ∧
        allocPages.locked order next s.machine = some (r, m') ∧ page ∈ donated ∧
        page ∉ m'.freeSet ∧ page ∉ pageRun r (2 ^ order.toNat) ∧ ∀ q, page ∉ s.held q := by
  obtain ⟨l, hl⟩ := h.inv
  unfold Fresh at hnot
  unfold head
  cases hpc : s.pc p with
  | ordinary =>
    rw [hpc] at hnot
    exact absurd trivial hnot
  | allocPage =>
    rw [hpc] at hnot
    exact Or.inl ⟨_, rfl, Or.inl (not_not.mp hnot)⟩
  | allocPages order next =>
    simp only [hpc, not_or, not_exists, not_and, not_not] at hnot
    obtain ⟨hnull, hmoved, hblock⟩ := hnot
    obtain ⟨horder, hdonated⟩ := hl.pending p order next hpc
    rcases (hl.pool.cover next).mp (hdonated.resolve_left hnull) with hmem | hheld
    swap
    · exact Or.inl ⟨next, if_neg hnull, Or.inr hheld⟩
    obtain ⟨front, rest, rfl⟩ := List.append_of_mem hmem
    obtain ⟨q, hseg, -, hq⟩ := chain_append.mp hl.pool.list
    obtain rfl := (chain_cons.mp hq).1
    obtain ⟨m', rest', hrun, hrest, hlist⟩ :=
      locked_block horder hq (hblock front _ hl.pool.list hq)
    -- The head of the list lies before the page that was read.
    cases front with
    | nil => exact absurd hseg.symm hmoved
    | cons c front =>
      have hc : c ∈ c :: front ++ q :: rest := by simp
      have hnd := Chain.nodup hl.pool.list
      rw [hrest] at hnd
      have hout := (List.nodup_append.mp hnd).2.2 c List.mem_cons_self
      refine Or.inr ⟨order, q, q, m', c, rfl, hrun, (hl.pool.cover c).mpr (Or.inl hc), ?_,
        fun hblk => hout c (List.mem_append_left _ hblk) rfl,
        fun p hp => hl.pool.disjoint c hc ⟨p, hp⟩⟩
      rw [hlist.freeSet_eq]
      exact fun hrest' => hout c (List.mem_append_right _ hrest') rfl

end Run

/-- The page at `0x1000` is free. -/
def onePage : Machine 64 :=
  ⟨fun _ => 0, 0x1000, false⟩

theorem run_onePage (cond : PageSmp Bool 64 → Bool → Prop) :
    Run cond {p | p ∈ [0x1000]} (init onePage) := by
  refine .init (l := [0x1000]) ?_ ?_ rfl
  · simp [Machine.FreeList, onePage, chain_cons, chain_nil]
  · intro p hp
    rw [List.mem_singleton.mp hp]
    rfl

/-- A CPU past the check of `alloc_page`. -/
def checked (p : Bool) (s : PageSmp Bool 64) : PageSmp Bool 64 :=
  { s with pc := Function.update s.pc p .allocPage }

/-- A CPU past the read of `alloc_pages(0)`. -/
def hasRead (p : Bool) (s : PageSmp Bool 64) : PageSmp Bool 64 :=
  { s with pc := Function.update s.pc p (.allocPages 0 s.machine.freelist) }

/-- The pages at `0x1000` and `0x2000` are free. -/
def twoPages : Machine 64 :=
  ⟨fun a => if a = 0x1000 then 0x2000 else 0, 0x1000, false⟩

theorem run_twoPages (cond : PageSmp Bool 64 → Bool → Prop) :
    Run cond {p | p ∈ [0x1000, 0x2000]} (init twoPages) := by
  refine .init (l := [0x1000, 0x2000]) ?_ ?_ rfl
  · simp [Machine.FreeList, twoPages, chain_cons, chain_nil]
  · intro p hp
    rcases List.mem_pair.mp hp with rfl | rfl <;> rfl

/-- A CPU reads the head and another passes its check; both get a page, and the first frees its
own. -/
theorem run_sound_twoPages : ∃ s : PageSmp Bool 64, Run Fresh {p | p ∈ [0x1000, 0x2000]} s ∧
    s.machine.freelist = 0x1000 ∧ 0x2000 ∈ s.held true ∧ 0x1000 ∉ s.held false ∧
      Sound {p | p ∈ [0x1000, 0x2000]} s := by
  have hread : Run Fresh {p | p ∈ [0x1000, 0x2000]}
      (checked true (hasRead false (init twoPages))) :=
    ((run_twoPages Fresh).step (.read rfl (by decide))).step (.check rfl (by decide))
  have hscan : (allocPages.locked 0 0x1000 twoPages).map (fun x => (x.1, x.2.freelist)) =
      some (0x1000, 0x2000) := by decide
  obtain ⟨⟨r, m'⟩, hscan, heq⟩ := Option.map_eq_some_iff.mp hscan
  obtain ⟨rfl, hhead⟩ := Prod.mk.inj heq
  have hhead : m'.freelist = 0x2000 := hhead
  have htaken := hread.step (.allocPages (p := false) rfl (Or.inr (Or.inl rfl)) hscan)
  have hboth := htaken.step (.allocPage (p := true) rfl
    (by simp [Fresh, checked, hasRead, init, hhead]))
  have hrun := hboth.step (.freePage (p := false) rfl
    (by simp [checked, hasRead, init, pageRun] : (0x1000 : BitVec 64) ∈ _))
  refine ⟨_, hrun, rfl, ?_, ?_, (run_sound hrun).1⟩
  · simp [checked, hasRead, init, allocPage.locked, hhead]
  · simp [checked, hasRead, init]

/-- Two CPUs that race for the last page : the second of two `alloc_page` follows a null head, and
an `alloc_pages` that has read the head hands out a page that another CPU holds. -/
theorem race : (∃ s : PageSmp Bool 64, Run (fun _ _ => True) {p | p ∈ [0x1000]} s ∧
      s.pc false = .allocPage ∧ s.head false = some 0) ∧
    ∃ s : PageSmp Bool 64, Run (fun _ _ => True) {p | p ∈ [0x1000]} s ∧
      0x1000 ∈ s.held false ∧ 0x1000 ∈ s.held true := by
  have hinit := run_onePage fun _ _ => True
  constructor
  · have hchecked : Run (fun _ _ => True) {p | p ∈ [0x1000]}
        (checked true (checked false (init onePage))) :=
      (hinit.step (.check rfl (by decide))).step (.check rfl (by decide))
    exact ⟨_, hchecked.step (.allocPage (p := true) rfl trivial), rfl, rfl⟩
  · have hread : Run (fun _ _ => True) {p | p ∈ [0x1000]}
        (checked true (hasRead false (init onePage))) :=
      (hinit.step (.read rfl (by decide))).step (.check rfl (by decide))
    have hscan : (allocPages.locked 0 0x1000 (allocPage.locked onePage).2).map Prod.fst =
        some 0x1000 := by decide
    obtain ⟨⟨r, m'⟩, hscan, rfl⟩ := Option.map_eq_some_iff.mp hscan
    have hrun := (hread.step (.allocPage (p := true) rfl trivial)).step
      (.allocPages (p := false) rfl trivial hscan)
    refine ⟨_, hrun, ?_, ?_⟩
    · simp [checked, hasRead, init, onePage, allocPage.locked, pageRun]
    · simp [checked, hasRead, init, onePage, allocPage.locked]

end PageSmp

end AcrnUt
