import AcrnUt.Chain
import AcrnUt.Page
import Mathlib.Data.Set.Insert

/-!
# The page allocator

`lib/alloc_page.c` on a machine with `w`-bit words and pages of `2^pageShift` bytes.
The free list is threaded through the first word of each free page, starting at
`freelist`. Memory is a map from the byte addresses of aligned words to words, and
`virt_to_phys` is the identity on the pages the allocator manages.

`none` stands for a run that an assertion stops or that never returns. A loop of the
source runs with one unit of fuel per address : a list visits no page twice
(`Chain.nodup`), so no list of pages is longer.

`freePages_spec`, `allocPage_cons`, `allocPages_spec` and `freePage_spec` say what each
operation does to the list (`Machine.FreeList`). `allocPages_spec` rests on the invariant of
the scan (`ScanInv`) : the list is the pages before the run, the run so far, and the
pages ahead.
-/

set_option linter.unusedSectionVars false

namespace AcrnUt

variable {w : ℕ} [PageGeom w]

/-- What the allocators share : memory and the head of the page free list.
`denied` records that some `alloc_page` found the list empty; no function reads it. -/
structure Machine (w : ℕ) where
  mem : BitVec w → BitVec w
  freelist : BitVec w
  denied : Bool

namespace Machine

/-- A store of one word. -/
def store (m : Machine w) (a v : BitVec w) : Machine w :=
  { m with mem := Function.update m.mem a v }

/-- `memset(p, 0, PAGE_SIZE)`. -/
def clearPage (m : Machine w) (p : BitVec w) : Machine w :=
  { m with mem := fun a => if InPage a p then 0 else m.mem a }

variable (m : Machine w) {a b p : BitVec w} {v : BitVec w}

@[simp] theorem store_freelist : (m.store a v).freelist = m.freelist :=
  rfl

@[simp] theorem store_denied : (m.store a v).denied = m.denied :=
  rfl

@[simp] theorem store_mem_self : (m.store a v).mem a = v :=
  Function.update_self ..

theorem store_mem_of_ne (h : b ≠ a) : (m.store a v).mem b = m.mem b :=
  Function.update_of_ne h ..

@[simp] theorem clearPage_freelist : (m.clearPage p).freelist = m.freelist :=
  rfl

@[simp] theorem clearPage_denied : (m.clearPage p).denied = m.denied :=
  rfl

theorem clearPage_mem_of_inPage (h : InPage a p) : (m.clearPage p).mem a = 0 :=
  if_pos h

theorem clearPage_mem_of_not (h : ¬InPage a p) : (m.clearPage p).mem a = m.mem a :=
  if_neg h

/-- Of two stores to a word the second counts. -/
theorem store_store (u : BitVec w) : (m.store a v).store a u = m.store a u := by
  unfold store
  rw [Function.update_idem]

theorem store_comm (h : a ≠ b) (u : BitVec w) :
    (m.store a v).store b u = (m.store b u).store a v := by
  unfold store
  rw [Function.update_comm h]

theorem clearPage_store (h : ¬InPage a p) :
    (m.store a v).clearPage p = (m.clearPage p).store a v := by
  refine congrArg (Machine.mk · m.freelist m.denied) (funext fun b => ?_)
  rcases eq_or_ne b a with rfl | hb
  · rw [if_neg h, store_mem_self, Function.update_self]
  · rw [Function.update_of_ne hb, store_mem_of_ne m hb]
    rfl

end Machine

/-! ## The source -/

/-- `virt_to_phys` of the builds whose physical memory is mapped one to one. -/
def virtToPhys (a : BitVec w) : BitVec w :=
  a

/-- `phys_to_virt` of the same builds. -/
def physToVirt (a : BitVec w) : BitVec w :=
  a

/-- The loop of `free_pages` : thread the pages from `mem` up to `end`, and link the
last one to the old list. -/
def freePages.thread (stop oldFreelist : BitVec w) :
    ℕ → BitVec w → (BitVec w → BitVec w) → Option (BitVec w → BitVec w)
  | 0, _, _ => none
  | fuel + 1, mem, cells =>
    if mem + pageSize ≠ stop then
      freePages.thread stop oldFreelist fuel (mem + pageSize)
        (Function.update cells mem (mem + pageSize))
    else some (Function.update cells mem oldFreelist)

/-- `free_pages`. -/
def freePages (mem size : BitVec w) (m : Machine w) : Option (Machine w) :=
  if mem % pageSize ≠ 0 then none
  else if size % pageSize ≠ 0 then none
  else if ¬(size = 0 ∨ mem = -size ∨ mem < mem + size) then none
  else if size = 0 then some { m with freelist := 0 }
  else (freePages.thread (mem + size) m.freelist (2 ^ w) mem m.mem).map fun cells =>
    { m with mem := cells, freelist := mem }

/-- `alloc_page`. -/
def allocPage (m : Machine w) : BitVec w × Machine w :=
  if m.freelist = 0 then (0, { m with denied := true })
  else (m.freelist, { m with freelist := m.mem m.freelist })

/-- The variables of the scan of `alloc_pages`. `prev` lives within one turn. -/
structure Scan (w : ℕ) where
  curr : BitVec w
  next : BitVec w
  run : BitVec w
  runStart : BitVec w
  runPrev : BitVec w
  runNextPa : BitVec w

/-- One turn of the scan at a page, up to the test `run == n`. -/
def Scan.advance (mem : BitVec w → BitVec w) (alignMask : BitVec w) (s : Scan w) : Scan w :=
  let prev := s.curr
  let curr := s.next
  let next := mem curr
  let pa := virtToPhys curr
  if s.run = 0 then
    if pa &&& alignMask = 0 then ⟨curr, next, 1, curr, prev, pa + pageSize⟩
    else ⟨curr, next, s.run, s.runStart, s.runPrev, s.runNextPa⟩
  else if pa = s.runNextPa then
    ⟨curr, next, s.run + 1, s.runStart, s.runPrev, s.runNextPa + pageSize⟩
  else ⟨curr, next, 0, s.runStart, s.runPrev, s.runNextPa⟩

/-- The end of the scan : unlink the run that was found. -/
def Scan.unlink (m : Machine w) (s : Scan w) : Machine w :=
  if s.runPrev ≠ 0 then { m with mem := Function.update m.mem s.runPrev s.next }
  else { m with freelist := s.next }

/-- The loop of `alloc_pages`. -/
def allocPages.scan (m : Machine w) (n alignMask : BitVec w) :
    ℕ → Scan w → Option (BitVec w × Machine w)
  | 0, _ => none
  | fuel + 1, s =>
    if s.next = 0 then some (0, m)
    else
      let s := s.advance m.mem alignMask
      if s.run = n then some (s.runStart, s.unlink m)
      else allocPages.scan m n alignMask fuel s

/-- `alloc_pages`. -/
def allocPages (order : BitVec w) (m : Machine w) : Option (BitVec w × Machine w) :=
  let n := 1#w <<< order.toNat
  let alignMask := (n <<< pageShift w) - 1
  if w ≤ order.toNat then none
  else allocPages.scan m n alignMask (2 ^ w) ⟨0, m.freelist, 0, 0, 0, 0⟩

/-- `free_page`. -/
def freePage (page : BitVec w) (m : Machine w) : Machine w :=
  { m with mem := Function.update m.mem page m.freelist, freelist := page }

/-! ## What the operations do to the list -/

/-- The free list of `m` is `l`. -/
def Machine.FreeList (m : Machine w) (l : List (BitVec w)) : Prop :=
  Chain m.mem 0 m.freelist l

/-- The pages on the free list. -/
def Machine.freeSet (m : Machine w) : Set (BitVec w) :=
  {p | ∃ l, m.FreeList l ∧ p ∈ l}

theorem Machine.FreeList.freeSet_eq {m : Machine w} {l : List (BitVec w)} (h : m.FreeList l) :
    m.freeSet = {p | p ∈ l} := by
  ext p
  constructor
  · rintro ⟨l', hl', hp⟩
    exact Chain.unique hl' h ▸ hp
  · exact fun hp => ⟨l, h, hp⟩

/-- With `k + 1` pages left and enough fuel, the loop threads them in ascending order
and writes no other cell. -/
theorem thread_spec (stop old : BitVec w) :
    ∀ (k fuel : ℕ) (mem : BitVec w) (cells : BitVec w → BitVec w), k < fuel →
      (k + 1) * 2 ^ pageShift w < 2 ^ w → pageAt mem (k + 1) = stop →
      ∃ cells', freePages.thread stop old fuel mem cells = some cells' ∧
        Seg cells' mem (pageRun mem (k + 1)) old ∧
        ∀ a, a ∉ pageRun mem (k + 1) → cells' a = cells a
  | _, 0, _, _, hf, _, _ => absurd hf (Nat.not_lt_zero _)
  | 0, fuel + 1, mem, cells, _, _, hstop => by
    have hlast : mem + pageSize = stop := by rw [← hstop, ← pageAt_one]
    refine ⟨Function.update cells mem old, by simp [freePages.thread, hlast], ?_, ?_⟩
    · simp [pageRun_succ]
    · intro a ha
      exact Function.update_of_ne (fun h => ha (by rw [h]; exact mem_pageRun_self _ (by simp))) _ _
  | k + 1, fuel + 1, mem, cells, hf, hk, hstop => by
    have hmore : mem + pageSize ≠ stop := by
      intro h
      have heq : pageAt mem 1 = pageAt mem (k + 1 + 1) := by rw [pageAt_one, h, hstop]
      have := pageAt_inj (lt_of_le_of_lt (Nat.mul_le_mul_right _ (by omega)) hk) hk heq
      omega
    have hstop' : pageAt (mem + pageSize) (k + 1) = stop := by
      rw [← pageAt_one, pageAt_add, Nat.add_comm, hstop]
    obtain ⟨cells', hrun, hseg, hframe⟩ := thread_spec stop old k fuel (mem + pageSize)
      (Function.update cells mem (mem + pageSize)) (by omega)
      (lt_of_le_of_lt (Nat.mul_le_mul_right _ (by omega)) hk) hstop'
    have hnd : (pageRun mem (k + 1 + 1)).Nodup := pageRun_nodup hk.le
    rw [pageRun_cons] at hnd ⊢
    have hmem : mem ∉ pageRun (mem + pageSize) (k + 1) := (List.nodup_cons.mp hnd).1
    refine ⟨cells', by simp only [freePages.thread, if_pos hmore, hrun], ?_, ?_⟩
    · rw [seg_cons, hframe mem hmem, Function.update_self]
      exact ⟨rfl, hseg⟩
    · intro a ha
      rw [List.mem_cons, not_or] at ha
      rw [hframe a ha.2, Function.update_of_ne ha.1]

/-- The arguments `free_pages` asserts : a page-aligned range that does not run past
the top of the address space. -/
def FreeArgs (mem size : BitVec w) : Prop :=
  mem % pageSize = 0 ∧ size % pageSize = 0 ∧ (size = 0 ∨ mem = -size ∨ mem < mem + size)

/-- The number of pages in `size` bytes. -/
def pageCount (size : BitVec w) : ℕ :=
  size.toNat / 2 ^ pageShift w

theorem pageCount_mul {size : BitVec w} (h : size % pageSize = 0) :
    pageCount size * 2 ^ pageShift w = size.toNat := by
  have h' := congrArg BitVec.toNat h
  rw [BitVec.toNat_umod, toNat_pageSize] at h'
  exact Nat.div_mul_cancel (Nat.dvd_of_mod_eq_zero h')

theorem freePages_spec {m : Machine w} {l : List (BitVec w)} {mem size : BitVec w}
    (hl : m.FreeList l) (hargs : FreeArgs mem size) (hsize : size ≠ 0)
    (h0 : 0 ∉ pageRun mem (pageCount size)) (hdisj : ∀ p ∈ pageRun mem (pageCount size), p ∉ l) :
    ∃ m', freePages mem size m = some m' ∧
      m'.FreeList (pageRun mem (pageCount size) ++ l) ∧
      (∀ a, a ∉ pageRun mem (pageCount size) → m'.mem a = m.mem a) ∧ m'.denied = m.denied := by
  obtain ⟨hmem, hmul, hwrap⟩ := hargs
  have hcount := pageCount_mul hmul
  obtain ⟨k, hk⟩ : ∃ k, pageCount size = k + 1 := by
    refine Nat.exists_eq_succ_of_ne_zero fun hz => hsize ?_
    rw [hz, Nat.zero_mul] at hcount
    exact BitVec.eq_of_toNat_eq hcount.symm
  rw [hk] at hcount h0 hdisj ⊢
  have hstop : pageAt mem (k + 1) = mem + size := by
    rw [pageAt, hcount, BitVec.ofNat_toNat, BitVec.setWidth_eq]
  have hfuel : k < 2 ^ w := by
    have := size.isLt
    have := Nat.le_mul_of_pos_right (k + 1) (Nat.two_pow_pos (pageShift w))
    omega
  obtain ⟨cells, hrun, hseg, hframe⟩ := thread_spec (mem + size) m.freelist k (2 ^ w) mem m.mem
    hfuel (hcount ▸ size.isLt) hstop
  refine ⟨{ m with mem := cells, freelist := mem }, ?_, ?_, hframe, rfl⟩
  · rw [freePages, if_neg (not_not.mpr hmem), if_neg (not_not.mpr hmul),
      if_neg (not_not.mpr hwrap), if_neg hsize, hrun, Option.map_some]
  · refine chain_append.mpr ⟨m.freelist, hseg, h0, hl.congr fun a ha => hframe a ?_⟩
    exact fun h => hdisj a h ha

/-- The range that `free_pages` accepts ends at the top of the address space at the latest. -/
theorem FreeArgs.end_le {mem size : BitVec w} (h : FreeArgs mem size) :
    mem.toNat + size.toNat ≤ 2 ^ w := by
  have hmem := mem.isLt
  have hsize := size.isLt
  rcases h.2.2 with rfl | rfl | hlt
  · exact hmem.le
  · have hneg : (-size).toNat = (2 ^ w - size.toNat) % 2 ^ w := BitVec.toNat_neg ..
    rcases Nat.eq_zero_or_pos size.toNat with hz | hpos
    · omega
    · rw [hneg, Nat.mod_eq_of_lt (by omega)]
      omega
  · rw [BitVec.lt_def, BitVec.toNat_add] at hlt
    by_contra hge
    rw [Nat.mod_eq_sub_mod (by omega), Nat.mod_eq_of_lt (by omega)] at hlt
    omega

/-- The pages of an accepted range. -/
theorem mem_pageRun_of_freeArgs {mem size p : BitVec w} (h : FreeArgs mem size) :
    p ∈ pageRun mem (pageCount size) ↔
      PageAligned p ∧ mem.toNat ≤ p.toNat ∧ p.toNat < mem.toNat + size.toNat := by
  have hend := h.end_le
  have hcount := pageCount_mul h.2.1
  have hpos := Nat.two_pow_pos (pageShift w)
  have haligned : PageAligned mem := pageAligned_iff.mp h.1
  rw [mem_pageRun]
  constructor
  · rintro ⟨j, hj, rfl⟩
    have hmul := Nat.mul_lt_mul_of_pos_right hj hpos
    rw [toNat_pageAt (by omega)]
    exact ⟨haligned.pageAt j, by omega, by omega⟩
  · rintro ⟨hp, hle, hlt⟩
    obtain ⟨c, hc⟩ := Nat.dvd_of_mod_eq_zero haligned
    obtain ⟨d, hd⟩ := Nat.dvd_of_mod_eq_zero hp
    have hcd : c ≤ d := Nat.le_of_mul_le_mul_left (hc ▸ hd ▸ hle) hpos
    have hsub : (d - c) * 2 ^ pageShift w = p.toNat - mem.toNat := by
      rw [hc, hd, Nat.sub_mul, Nat.mul_comm, Nat.mul_comm c]
    refine ⟨d - c, Nat.lt_of_mul_lt_mul_right (a := 2 ^ pageShift w) (by omega), ?_⟩
    refine BitVec.eq_of_toNat_eq ?_
    have hplt := p.isLt
    rw [toNat_pageAt (by omega)]
    omega

/-- They ascend. -/
theorem pageRun_ascending {mem size : BitVec w} (h : FreeArgs mem size) :
    (pageRun mem (pageCount size)).Pairwise (· < ·) := by
  have hend := h.end_le
  have hcount := pageCount_mul h.2.1
  have hpos := Nat.two_pow_pos (pageShift w)
  unfold pageRun
  rw [List.pairwise_map]
  refine List.Pairwise.imp_of_mem ?_ List.pairwise_lt_range
  intro i j _ hj hij
  have hjn := Nat.mul_lt_mul_of_pos_right (List.mem_range.mp hj) hpos
  have hijn := Nat.mul_lt_mul_of_pos_right hij hpos
  rw [BitVec.lt_def, toNat_pageAt (by omega), toNat_pageAt (by omega)]
  omega

/-- `free_pages` returns for all arguments it accepts. It puts the pages of a range in front of the
old list, in ascending order, but a range of no bytes empties the list. -/
theorem freePages_donation {m : Machine w} {l : List (BitVec w)} {mem size : BitVec w}
    (hl : m.FreeList l) (hargs : FreeArgs mem size) (hmem : mem ≠ 0)
    (hdisj : ∀ p ∈ l, ¬(mem.toNat ≤ p.toNat ∧ p.toNat < mem.toNat + size.toNat)) :
    ∃ ps m', ps.Pairwise (· < ·) ∧
      (∀ p, p ∈ ps ↔ PageAligned p ∧ mem.toNat ≤ p.toNat ∧ p.toNat < mem.toNat + size.toNat) ∧
      freePages mem size m = some m' ∧ m'.FreeList (if size = 0 then [] else ps ++ l) ∧
      (∀ a, a ∉ ps → m'.mem a = m.mem a) ∧ m'.denied = m.denied := by
  refine ⟨pageRun mem (pageCount size), ?_⟩
  have hmem' : ∀ p, p ∈ pageRun mem (pageCount size) ↔ _ := fun p => mem_pageRun_of_freeArgs hargs
  by_cases hsize : size = 0
  · refine ⟨{ m with freelist := 0 }, pageRun_ascending hargs, hmem', ?_, ?_, fun a _ => rfl, rfl⟩
    · rw [freePages, if_neg (not_not.mpr hargs.1), if_neg (not_not.mpr hargs.2.1),
        if_neg (not_not.mpr hargs.2.2), if_pos hsize]
    · rw [if_pos hsize]
      exact chain_nil.mpr rfl
  · have h0 : (0 : BitVec w) ∉ pageRun mem (pageCount size) := by
      intro hzero
      have hle := ((hmem' 0).mp hzero).2.1
      exact hmem (BitVec.eq_of_toNat_eq (Nat.le_zero.mp hle))
    obtain ⟨m', hfree, hlist, hframe, hden⟩ := freePages_spec hl hargs hsize h0 fun p hp hpl =>
      hdisj p hpl ((hmem' p).mp hp).2
    rw [if_neg hsize]
    exact ⟨m', pageRun_ascending hargs, hmem', hfree, hlist, hframe, hden⟩

/-- One free page, and the last page of the address space. -/
theorem freePages_donation_top : ∃ m : Machine 64, m.FreeList [0x2000] ∧
    ∃ ps m', freePages 0xfffffffffffff000 0x1000 m = some m' ∧ m'.FreeList (ps ++ [0x2000]) := by
  have hl : (⟨fun _ => 0, 0x2000, false⟩ : Machine 64).FreeList [0x2000] :=
    chain_cons.mpr ⟨rfl, by decide, chain_nil.mpr rfl⟩
  obtain ⟨ps, m', -, -, hfree, hlist, -⟩ :=
    @freePages_donation 64 _ _ _ 0xfffffffffffff000 0x1000 hl
    ⟨by decide, by decide, by decide⟩ (by decide) (by simp)
  exact ⟨_, hl, ps, m', hfree, hlist⟩

/-- Freeing no bytes loses the old list. -/
theorem freePages_zero : ∃ m m' : Machine 64, m.FreeList [0x2000] ∧
    FreeArgs (0x1000 : BitVec 64) 0 ∧
    freePages 0x1000 0 m = some m' ∧ ¬m'.FreeList ([] ++ [0x2000]) := by
  refine ⟨⟨fun _ => 0, 0x2000, false⟩, ⟨fun _ => 0, 0, false⟩, ?_,
    ⟨by decide, by decide, by decide⟩,
    rfl, fun h => ?_⟩
  · exact chain_cons.mpr ⟨rfl, by decide, chain_nil.mpr rfl⟩
  · exact absurd (chain_cons.mp h).1 (by decide)

theorem freePage_spec {m : Machine w} {l : List (BitVec w)} {p : BitVec w} (hl : m.FreeList l)
    (h0 : p ≠ 0) (hp : p ∉ l) : (freePage p m).FreeList (p :: l) :=
  hl.push hp h0

theorem allocPage_nil {m : Machine w} (hl : m.FreeList []) :
    allocPage m = (0, { m with denied := true }) :=
  if_pos (chain_nil.mp hl)

theorem allocPage_denied {m : Machine w} (h : m.denied = true) : (allocPage m).2.denied = true := by
  unfold allocPage
  split_ifs
  · rfl
  · exact h

/-- What was served in the end was served before. -/
theorem served_of_allocPage {m : Machine w} (h : (allocPage m).2.denied = false) :
    m.denied = false := by
  cases hden : m.denied with
  | false => rfl
  | true => exact absurd (h.symm.trans (allocPage_denied hden)) Bool.false_ne_true

theorem allocPage_cons {m : Machine w} {p : BitVec w} {l : List (BitVec w)}
    (hl : m.FreeList (p :: l)) :
    allocPage m = (p, { m with freelist := m.mem p }) ∧
      Machine.FreeList { m with freelist := m.mem p } l := by
  obtain ⟨hp, h0, htl⟩ := chain_cons.mp hl
  refine ⟨?_, htl⟩
  rw [allocPage, if_neg (by rw [hp]; exact h0), hp]

/-! ## The scan of `alloc_pages` -/

/-- What the scan knows between two turns : the list `l` is the pages `pre` before the
run, the `k` pages of the run so far, and the pages `rest` ahead, to the first of which
`next` points. -/
structure ScanInv (m : Machine w) (order : ℕ) (l : List (BitVec w)) (s : Scan w)
    (pre : List (BitVec w)) (k : ℕ) (rest : List (BitVec w)) : Prop where
  split : l = pre ++ pageRun s.runStart k ++ rest
  behind : Seg m.mem m.freelist (pre ++ pageRun s.runStart k) s.next
  ahead : Chain m.mem 0 s.next rest
  curr : s.curr = (pre ++ pageRun s.runStart k).getLast?.getD 0
  run : s.run.toNat = k
  prev : 0 < k → s.runPrev = pre.getLast?.getD 0
  aligned : 0 < k → s.runStart.toNat % 2 ^ (order + pageShift w) = 0
  nextPa : 0 < k → s.runNextPa = pageAt s.runStart k

/-- A naturally aligned start of `2^order` pages. -/
def Block (order : ℕ) (r : BitVec w) : Prop :=
  r ≠ 0 ∧ r.toNat % 2 ^ (order + pageShift w) = 0

/-- The outcome of `alloc_pages` on the list `l` : nothing is found and nothing
changes, or a block is cut out of the list. Only a cell before the block is written. -/
def Cut (m : Machine w) (order : ℕ) (l : List (BitVec w)) (r : BitVec w) (m' : Machine w) : Prop :=
  (r = 0 ∧ m' = m) ∨
    ∃ pre rest, Block order r ∧ l = pre ++ pageRun r (2 ^ order) ++ rest ∧
      m'.FreeList (pre ++ rest) ∧ (∀ a, a ∉ pre → m'.mem a = m.mem a) ∧ m'.denied = m.denied

/-- A block ends at or below the top of the address space. -/
theorem Block.end_le {order : ℕ} {r : BitVec w} (h : Block order r) :
    r.toNat + 2 ^ order * 2 ^ pageShift w ≤ 2 ^ w := by
  obtain ⟨h0, hmod⟩ := h
  have hpos : 0 < r.toNat := Nat.pos_of_ne_zero fun hz => h0 (BitVec.eq_of_toNat_eq hz)
  obtain ⟨c, hc⟩ := Nat.dvd_of_mod_eq_zero hmod
  have hlt := r.isLt
  have hle : order + pageShift w ≤ w := by
    by_contra hgt
    have := Nat.pow_le_pow_right (n := 2) (by decide) (not_le.mp hgt).le
    have := Nat.le_of_dvd hpos ⟨c, hc⟩
    omega
  obtain ⟨d, hd⟩ := Nat.pow_dvd_pow 2 hle
  have hcd : c < d := Nat.lt_of_mul_lt_mul_left (a := 2 ^ (order + pageShift w)) (by omega)
  have hcd' := Nat.mul_le_mul_left (2 ^ (order + pageShift w)) hcd
  rw [Nat.mul_succ] at hcd'
  rw [← Nat.pow_add]
  omega

/-- The pages of a block lie one after the other below the top of the address space. -/
theorem Block.toNat_pageAt {order : ℕ} {r : BitVec w} (h : Block order r) {j : ℕ}
    (hj : j < 2 ^ order) : (pageAt r j).toNat = r.toNat + j * 2 ^ pageShift w := by
  refine AcrnUt.toNat_pageAt (lt_of_lt_of_le ?_ h.end_le)
  exact Nat.add_lt_add_left (Nat.mul_lt_mul_of_pos_right hj (Nat.two_pow_pos _)) _

section Scan

variable {m : Machine w} {order : ℕ} {l pre rest : List (BitVec w)} {s : Scan w} {k : ℕ}
  {c : BitVec w}

/-- Unlinking a full run cuts it out of the list. -/
theorem ScanInv.unlink (hl : m.FreeList l) (h : ScanInv m order l s pre (2 ^ order) rest) :
    Cut m order l s.runStart (s.unlink m) := by
  have hpos := Nat.two_pow_pos order
  have hstart : s.runStart ≠ 0 := by
    refine Chain.ne_null hl ?_
    rw [h.split]
    simp [mem_pageRun_self s.runStart hpos]
  refine Or.inr ⟨pre, rest, ⟨hstart, h.aligned hpos⟩, h.split, ?_⟩
  have hprev := h.prev hpos
  have hl' := h.split ▸ hl
  rcases List.eq_nil_or_concat pre with rfl | ⟨pre', p, rfl⟩
  · rw [Scan.unlink, if_neg (not_not.mpr (by simpa using hprev))]
    exact ⟨h.ahead, fun _ _ => rfl, rfl⟩
  · have hp : s.runPrev = p := by simpa using hprev
    have h0 : s.runPrev ≠ 0 := by
      rw [hp]
      exact Chain.ne_null hl' (by simp)
    rw [Scan.unlink, if_pos h0, hp]
    refine ⟨?_, fun a ha => Function.update_of_ne (by rintro rfl; simp at ha) _ _, rfl⟩
    obtain ⟨q, -, hblk⟩ := seg_append.mp h.behind
    rw [List.concat_eq_append, List.append_assoc] at hl'
    rw [List.concat_eq_append]
    exact Chain.unlink hl' ⟨q, hblk, h.ahead⟩

/-- A turn at a page that does not extend the run moves the run so far, and the page,
behind. -/
theorem ScanInv.skip (h : ScanInv m order l s pre k (c :: rest)) {s' : Scan w}
    (hcurr : s'.curr = c) (hnext : s'.next = m.mem c) (hrun : s'.run = 0) :
    ScanInv m order l s' (pre ++ pageRun s.runStart k ++ [c]) 0 rest := by
  obtain ⟨hc, -, hrest⟩ := chain_cons.mp h.ahead
  have hseg := seg_concat.mpr ⟨hc ▸ h.behind, rfl⟩
  exact
    { split := by rw [h.split]; simp
      behind := by rw [hnext]; simpa using hseg
      ahead := by rw [hnext]; exact hrest
      curr := by rw [hcurr]; simp
      run := by rw [hrun]; rfl
      prev := fun h0 => absurd h0 (lt_irrefl 0)
      aligned := fun h0 => absurd h0 (lt_irrefl 0)
      nextPa := fun h0 => absurd h0 (lt_irrefl 0) }

/-- A turn at the page the run expects extends the run. A run of no pages expects any
aligned page. -/
theorem ScanInv.extend (h : ScanInv m order l s pre k (c :: rest)) {s' : Scan w}
    (hcurr : s'.curr = c) (hnext : s'.next = m.mem c) (hrun : s'.run.toNat = k + 1)
    (hstart : pageRun s'.runStart (k + 1) = pageRun s.runStart k ++ [c])
    (hprev : s'.runPrev = pre.getLast?.getD 0)
    (haligned : s'.runStart.toNat % 2 ^ (order + pageShift w) = 0)
    (hpa : s'.runNextPa = pageAt s'.runStart (k + 1)) :
    ScanInv m order l s' pre (k + 1) rest := by
  obtain ⟨hc, -, hrest⟩ := chain_cons.mp h.ahead
  have hseg := seg_concat.mpr ⟨hc ▸ h.behind, rfl⟩
  exact
    { split := by rw [h.split, hstart]; simp
      behind := by rw [hnext, hstart, ← List.append_assoc]; exact hseg
      ahead := by rw [hnext]; exact hrest
      curr := by rw [hcurr, hstart, ← List.append_assoc]; simp
      run := hrun
      prev := fun _ => hprev
      aligned := fun _ => haligned
      nextPa := fun _ => hpa }

/-- A turn at the page `c`, behind `pre` and a run of `k` pages : the run gets longer, or the
page and the run so far move behind. -/
def Turn (order : ℕ) (start : BitVec w) (pre : List (BitVec w)) (k : ℕ) (c : BitVec w)
    (pre' : List (BitVec w)) (k' : ℕ) : Prop :=
  (pre' = pre ∧ k' = k + 1) ∨
    (pre' = pre ++ pageRun start k ++ [c] ∧ k' = 0 ∧
      (k = 0 → c.toNat % 2 ^ (order + pageShift w) ≠ 0) ∧ (0 < k → c ≠ pageAt start k))

/-- One turn of the scan keeps its invariant, with a run at most one page longer. -/
theorem ScanInv.advance (horder : order < w) (h : ScanInv m order l s pre k (c :: rest))
    (hk : k < 2 ^ order) :
    ∃ pre' k', Turn order s.runStart pre k c pre' k' ∧ k' ≤ 2 ^ order ∧
      ScanInv m order l (s.advance m.mem ((1#w <<< order <<< pageShift w) - 1)) pre' k' rest := by
  obtain ⟨hc, -, -⟩ := chain_cons.mp h.ahead
  have hw : 2 ^ order < 2 ^ w := Nat.pow_lt_pow_right (by decide) horder
  have hone : (1 : BitVec w).toNat = 1 := by
    simp [Nat.zero_lt_of_lt horder, Nat.one_mod_two_pow]
  unfold Scan.advance virtToPhys
  rw [← BitVec.shiftLeft_add]
  by_cases hrun : s.run = 0
  · have hk0 : k = 0 := by rw [← h.run, hrun]; rfl
    subst hk0
    rw [if_pos hrun]
    split_ifs with halign
    · refine ⟨pre, 1, Or.inl ⟨rfl, rfl⟩, Nat.one_le_two_pow,
        h.extend hc (by rw [hc]) hone ?_ ?_ ?_ ?_⟩
      · simp [pageRun_succ, hc]
      · simpa using h.curr
      · exact (and_sub_one_eq_zero_iff _ _).mp halign
      · exact (pageAt_one _).symm
    · have hodd : c.toNat % 2 ^ (order + pageShift w) ≠ 0 := fun hmod =>
        halign (hc ▸ (and_sub_one_eq_zero_iff _ _).mpr hmod)
      exact ⟨_, 0, Or.inr ⟨rfl, rfl, fun _ => hodd, fun h0 => absurd h0 (lt_irrefl 0)⟩,
        Nat.zero_le _, h.skip hc (by rw [hc]) hrun⟩
  · have hk0 : 0 < k := by
      rw [← h.run]
      exact Nat.pos_of_ne_zero fun h0 => hrun (BitVec.eq_of_toNat_eq h0)
    rw [if_neg hrun]
    split_ifs with hpa
    · refine ⟨pre, k + 1, Or.inl ⟨rfl, rfl⟩, hk,
        h.extend hc (by rw [hc]) ?_ ?_ (h.prev hk0) (h.aligned hk0) ?_⟩
      · have := h.run
        rw [BitVec.toNat_add, hone, this, Nat.mod_eq_of_lt (by omega)]
      · rw [pageRun_succ, ← h.nextPa hk0, ← hpa, hc]
      · simp only [h.nextPa hk0, pageAt_succ]
    · have hbreak : c ≠ pageAt s.runStart k := by
        rw [← h.nextPa hk0, ← hc]
        exact hpa
      exact ⟨_, 0, Or.inr ⟨rfl, rfl, fun h0 => absurd h0 hk0.ne', fun _ => hbreak⟩,
        Nat.zero_le _, h.skip hc (by rw [hc]) rfl⟩

/-- How the scan of the list `l` ends, if `Q` holds of the pages that it leaves behind : with a
block behind such pages, or at the end of the list in an incomplete run. -/
def Scanned (Q : List (BitVec w) → Prop) (order : ℕ) (l : List (BitVec w)) (r : BitVec w) : Prop :=
  (r ≠ 0 ∧ ∃ pre rest, l = pre ++ pageRun r (2 ^ order) ++ rest ∧ Q pre) ∨
    (r = 0 ∧ ∃ pre start k, l = pre ++ pageRun start k ∧ Q pre ∧ k < 2 ^ order ∧
      (0 < k → start.toNat % 2 ^ (order + pageShift w) = 0))

/-- The scan ends within one turn for each page ahead and one more. -/
theorem scan_spec {Q : List (BitVec w) → Prop} (horder : order < w) (hl : m.FreeList l)
    (hQ : ∀ {start : BitVec w} {pre k c pre' k'}, Q pre → k < 2 ^ order →
      (0 < k → start.toNat % 2 ^ (order + pageShift w) = 0) → Turn order start pre k c pre' k' →
        Q pre') :
    ∀ (rest : List (BitVec w)) (fuel : ℕ) (s : Scan w) (pre : List (BitVec w)) (k : ℕ),
      rest.length < fuel → k < 2 ^ order → Q pre → ScanInv m order l s pre k rest →
      ∃ r m', allocPages.scan m (1#w <<< order) ((1#w <<< order <<< pageShift w) - 1) fuel s =
        some (r, m') ∧ Cut m order l r m' ∧ Scanned Q order l r
  | _, 0, _, _, _, hf, _, _, _ => absurd hf (Nat.not_lt_zero _)
  | [], fuel + 1, s, pre, k, _, hk, hpre, h => by
    refine ⟨0, m, by rw [allocPages.scan, if_pos (chain_nil.mp h.ahead)], Or.inl ⟨rfl, rfl⟩, ?_⟩
    exact Or.inr ⟨rfl, pre, s.runStart, k, by simpa using h.split, hpre, hk, h.aligned⟩
  | c :: rest, fuel + 1, s, pre, k, hf, hk, hpre, h => by
    obtain ⟨hc, hc0, -⟩ := chain_cons.mp h.ahead
    rw [allocPages.scan, if_neg (hc ▸ hc0)]
    obtain ⟨pre', k', hturn, hk', h'⟩ := h.advance horder hk
    have hpre' := hQ hpre hk h.aligned hturn
    simp only
    split_ifs with hfull
    · have hk2 : k' = 2 ^ order := by rw [← h'.run, hfull, toNat_one_shiftLeft horder]
      have hcut := (hk2 ▸ h').unlink hl
      refine ⟨_, _, rfl, hcut, Or.inl ⟨?_, pre', rest, hk2 ▸ h'.split, hpre'⟩⟩
      refine Chain.ne_null hl ?_
      rw [h'.split, hk2]
      simp [mem_pageRun_self _ (Nat.two_pow_pos order)]
    · refine scan_spec horder hl hQ rest fuel _ pre' k' (by simpa using hf) ?_ hpre' h'
      refine lt_of_le_of_ne hk' fun hk2 => hfull (BitVec.eq_of_toNat_eq ?_)
      rw [h'.run, toNat_one_shiftLeft horder, hk2]

end Scan

/-- A list of distinct words is no longer than the address space. -/
theorem length_lt_of_freeList {m : Machine w} {l : List (BitVec w)} (hl : m.FreeList l) :
    l.length < 2 ^ w := by
  have hnd : (0 :: l).Nodup := List.nodup_cons.mpr ⟨hl.2, Chain.nodup hl⟩
  have hsub : (0 :: l).map BitVec.toNat ⊆ List.range (2 ^ w) := by
    intro n hn
    obtain ⟨x, -, rfl⟩ := List.mem_map.mp hn
    exact List.mem_range.mpr x.isLt
  have hlen := ((hnd.map fun _ _ => BitVec.eq_of_toNat_eq).subperm hsub).length_le
  simpa using hlen

/-- The scan as `alloc_pages` starts it. -/
theorem ScanInv.start {m : Machine w} {l : List (BitVec w)} (hl : m.FreeList l) (order : ℕ) :
    ScanInv m order l ⟨0, m.freelist, 0, 0, 0, 0⟩ [] 0 l where
  split := by simp
  behind := by simp
  ahead := hl
  curr := by simp
  run := rfl
  prev h0 := absurd h0 (lt_irrefl 0)
  aligned h0 := absurd h0 (lt_irrefl 0)
  nextPa h0 := absurd h0 (lt_irrefl 0)

/-- `alloc_pages` returns, and cuts a block out of the list or finds none. -/
theorem allocPages_spec {m : Machine w} {l : List (BitVec w)} {order : BitVec w}
    (hl : m.FreeList l) (horder : order.toNat < w) :
    ∃ r m', allocPages order m = some (r, m') ∧ Cut m order.toNat l r m' := by
  simp only [allocPages, if_neg (not_le.mpr horder)]
  obtain ⟨r, m', hrun, hcut, -⟩ := scan_spec (Q := fun _ => True) horder hl (fun _ _ _ _ => trivial)
    l (2 ^ w) _ [] 0 (length_lt_of_freeList hl) (Nat.two_pow_pos _) trivial (.start hl _)
  exact ⟨r, m', hrun, hcut⟩

end AcrnUt
