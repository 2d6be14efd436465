import AcrnUt.PageAlloc

/-!
# Which blocks the scan of the page allocator misses

`alloc_pages` of `lib/alloc_page.c` looks for `2^order` pages of the free list that follow one
another in memory, from a multiple of their size on (`BlockAt`). Its scan is in an incomplete run
or between runs. A page that does not continue a run ends it, and is not tried as the start of
another : a block that starts at this page is missed.

`Clear` says of the pages before a block that they leave the scan between runs : they are single
pages that start no block, and incomplete runs, each with the page that ends it. There is one
such division (`Parsed.unique`), and the scan finds the first block of the list exactly if
the pages before it are clear (`allocPages_first_iff`).
-/

set_option linter.unusedSectionVars false

namespace AcrnUt

variable {w : ℕ} [PageGeom w] {order : ℕ}

/-! ## Blocks in a list -/

/-- In the list `l`, behind the pages `pre`, there are `2^order` pages in ascending order from the
block start `r` on. -/
def BlockAt (order : ℕ) (l pre : List (BitVec w)) (r : BitVec w) : Prop :=
  Block order r ∧ ∃ rest, l = pre ++ pageRun r (2 ^ order) ++ rest

/-- The first block of a list. -/
def FirstBlock (order : ℕ) (l pre : List (BitVec w)) (r : BitVec w) : Prop :=
  BlockAt order l pre r ∧ ∀ pre' r', BlockAt order l pre' r' → pre.length ≤ pre'.length

/-- A list with a block has a first one. -/
theorem exists_firstBlock {l pre : List (BitVec w)} {r : BitVec w} (h : BlockAt order l pre r) :
    ∃ pre₀ r₀, FirstBlock order l pre₀ r₀ := by
  induction hn : pre.length using Nat.strong_induction_on generalizing pre r with
  | _ n ih =>
    subst hn
    by_cases hfirst : ∀ pre' r', BlockAt order l pre' r' → pre.length ≤ pre'.length
    · exact ⟨pre, r, h, hfirst⟩
    · push Not at hfirst
      obtain ⟨pre', r', h', hlt⟩ := hfirst
      exact ih _ hlt h' rfl

/-- A page occurs once in a free list, so a block starts once. -/
theorem BlockAt.pre_unique {l pre pre' : List (BitVec w)} {r : BitVec w} (hnd : l.Nodup)
    (h : BlockAt order l pre r) (h' : BlockAt order l pre' r) : pre = pre' := by
  obtain ⟨n, hn⟩ := Nat.exists_eq_add_one.mpr (Nat.two_pow_pos order)
  obtain ⟨-, rest, hl⟩ := h
  obtain ⟨-, rest', hl'⟩ := h'
  rw [hn, pageRun_cons, List.append_assoc, List.cons_append] at hl hl'
  have hnd' := hnd
  rw [hl] at hnd
  rw [hl'] at hnd'
  have hnot : r ∉ pre := fun hmem =>
    (List.nodup_append.mp hnd).2.2 r hmem r List.mem_cons_self rfl
  have hnot' : r ∉ pre' := fun hmem =>
    (List.nodup_append.mp hnd').2.2 r hmem r List.mem_cons_self rfl
  have hidx : (pre ++ r :: (pageRun (r + pageSize) n ++ rest)).idxOf r = pre.length := by
    rw [List.idxOf_append_of_notMem hnot, List.idxOf_cons_self, Nat.add_zero]
  have hidx' : (pre' ++ r :: (pageRun (r + pageSize) n ++ rest')).idxOf r = pre'.length := by
    rw [List.idxOf_append_of_notMem hnot', List.idxOf_cons_self, Nat.add_zero]
  rw [← hl] at hidx
  rw [← hl'] at hidx'
  exact (List.append_inj (hl.symm.trans hl') (by omega)).1

/-! ## What the scan leaves behind -/

/-- The start of a block. -/
def Aligned (order : ℕ) (c : BitVec w) : Prop :=
  c.toNat % 2 ^ (order + pageShift w) = 0

instance (order : ℕ) (c : BitVec w) : Decidable (Aligned order c) :=
  inferInstanceAs (Decidable (_ = _))

/-- Pages that leave the scan between runs. -/
inductive Clear (order : ℕ) : List (BitVec w) → Prop
  | nil : Clear order []
  | single {l : List (BitVec w)} {c : BitVec w} : Clear order l → ¬Aligned order c →
    Clear order (l ++ [c])
  | broken {l : List (BitVec w)} {start c : BitVec w} {k : ℕ} : Clear order l →
    Aligned order start → 0 < k → k < 2 ^ order → c ≠ pageAt start k →
    Clear order (l ++ pageRun start k ++ [c])

/-- The list `l` is clear pages, and a run of `k` pages that is no block yet. -/
structure Parsed (order : ℕ) (l pre : List (BitVec w)) (start : BitVec w) (k : ℕ) : Prop where
  eq : l = pre ++ pageRun start k
  clear : Clear order pre
  lt : k < 2 ^ order
  aligned : 0 < k → Aligned order start

theorem Clear.parsed {l : List (BitVec w)} (h : Clear order l) (start : BitVec w) :
    Parsed order l l start 0 :=
  ⟨by simp, h, Nat.two_pow_pos order, fun h0 => absurd h0 (lt_irrefl 0)⟩

theorem Clear.turn {start c : BitVec w} {pre pre' : List (BitVec w)} {k k' : ℕ}
    (h : Clear order pre) (hk : k < 2 ^ order) (hstart : 0 < k → Aligned order start)
    (hturn : Turn order start pre k c pre' k') : Clear order pre' := by
  rcases hturn with ⟨rfl, -⟩ | ⟨rfl, -, hzero, hpos⟩
  · exact h
  · rcases Nat.eq_zero_or_pos k with rfl | hk0
    · rw [pageRun_zero, List.append_nil]
      exact h.single (hzero rfl)
    · exact h.broken (hstart hk0) hk0 hk (hpos hk0)

/-- The list without its last page is parsed too : the last page extended its run, or ended it. -/
theorem Parsed.of_concat {l pre : List (BitVec w)} {start c : BitVec w} {k : ℕ}
    (h : Parsed order (l ++ [c]) pre start k) : ∃ pre₀ start₀ k₀, Parsed order l pre₀ start₀ k₀ ∧
      (k = k₀ + 1 ∧ c = pageAt start k₀ ∧ (0 < k₀ → start = start₀) ∨
        k = 0 ∧ (k₀ = 0 → ¬Aligned order c) ∧ (0 < k₀ → c ≠ pageAt start₀ k₀)) := by
  obtain ⟨heq, hclear, hlt, haligned⟩ := h
  cases k with
  | succ k =>
    rw [pageRun_succ, ← List.append_assoc] at heq
    obtain ⟨rfl, hc⟩ := List.append_inj' heq rfl
    refine ⟨pre, start, k, ⟨rfl, hclear, Nat.lt_of_succ_lt hlt, fun _ => haligned (Nat.succ_pos k)⟩,
      Or.inl ⟨rfl, List.singleton_inj.mp hc, fun _ => rfl⟩⟩
  | zero =>
    rw [pageRun_zero, List.append_nil] at heq
    subst heq
    generalize hl : l ++ [c] = l' at hclear
    cases hclear with
    | nil => simp at hl
    | @single l₀ c₀ hl₀ hodd =>
      obtain ⟨rfl, hc⟩ := List.append_inj' hl rfl
      obtain rfl := List.singleton_inj.mp hc
      exact ⟨l, c, 0, hl₀.parsed c, Or.inr ⟨rfl, fun _ => hodd, fun h0 => absurd h0 (lt_irrefl 0)⟩⟩
    | @broken l₀ start₀ c₀ k₀ hl₀ hstart hk₀ hlt₀ hbreak =>
      obtain ⟨rfl, hc⟩ := List.append_inj' hl rfl
      obtain rfl := List.singleton_inj.mp hc
      exact ⟨l₀, start₀, k₀, ⟨rfl, hl₀, hlt₀, fun _ => hstart⟩,
        Or.inr ⟨rfl, fun h0 => absurd h0 hk₀.ne', fun _ => hbreak⟩⟩

/-- A page that extends a run does not end it. -/
theorem Parsed.not_ended {pre : List (BitVec w)} {l : List (BitVec w)}
    {start start₀ start₁ c : BitVec w}
    {k : ℕ} (h : Parsed order l pre start (k + 1)) (hc : c = pageAt start k)
    (hstart : 0 < k → start = start₀) (heq : 0 < k → start₀ = start₁) :
    ¬((k = 0 → ¬Aligned order c) ∧ (0 < k → c ≠ pageAt start₁ k)) := by
  rintro ⟨hzero, hpos⟩
  rcases Nat.eq_zero_or_pos k with rfl | hk
  · refine hzero rfl ?_
    rw [hc, pageAt_zero]
    exact h.aligned one_pos
  · exact hpos hk (by rw [hc, hstart hk, heq hk])

/-- A list is parsed in one way. -/
theorem Parsed.unique {l pre pre' : List (BitVec w)} {start start' : BitVec w} {k k' : ℕ}
    (h : Parsed order l pre start k) (h' : Parsed order l pre' start' k') :
    k = k' ∧ (0 < k → start = start') := by
  induction l using List.reverseRecOn generalizing pre pre' start start' k k' with
  | nil =>
    have hlen := congrArg List.length h.eq
    have hlen' := congrArg List.length h'.eq
    simp only [List.length_nil, List.length_append, pageRun, List.length_map,
      List.length_range] at hlen hlen'
    exact ⟨by omega, fun h0 => by omega⟩
  | append_singleton l c ih =>
    obtain ⟨pre₀, start₀, k₀, h₀, hcase⟩ := h.of_concat
    obtain ⟨pre₁, start₁, k₁, h₁, hcase'⟩ := h'.of_concat
    obtain ⟨rfl, hstart⟩ := ih h₀ h₁
    rcases hcase with ⟨rfl, hc, hs⟩ | ⟨rfl, hend⟩
    · rcases hcase' with ⟨rfl, hc', hs'⟩ | ⟨rfl, hend'⟩
      · refine ⟨rfl, fun _ => ?_⟩
        rcases Nat.eq_zero_or_pos k₀ with rfl | hk₀
        · rw [pageAt_zero] at hc hc'
          exact hc.symm.trans hc'
        · rw [hs hk₀, hs' hk₀, hstart hk₀]
      · exact absurd hend' (h.not_ended hc hs hstart)
    · rcases hcase' with ⟨rfl, hc', hs'⟩ | ⟨rfl, -⟩
      · exact absurd hend (h'.not_ended hc' hs' fun hk => (hstart hk).symm)
      · exact ⟨rfl, fun h0 => absurd h0 (lt_irrefl 0)⟩

/-- No parsed list goes on, behind clear pages, over a whole block. -/
theorem Parsed.not_block {l pre₀ : List (BitVec w)} {r start₀ : BitVec w} {k₀ : ℕ}
    (h : Parsed order l pre₀ start₀ k₀) {pre : List (BitVec w)} (hpre : Clear order pre)
    (hr : Aligned order r) (hle : pre ++ pageRun r (2 ^ order) <+: l) : False := by
  obtain ⟨n, hn⟩ := Nat.exists_eq_add_one.mpr (Nat.two_pow_pos order)
  induction l using List.reverseRecOn generalizing pre₀ start₀ k₀ with
  | nil =>
    have hlen := hle.length_le
    simp [hn, pageRun_succ] at hlen
  | append_singleton l c ih =>
    obtain ⟨pre₁, start₁, k₁, h₁, hcase⟩ := h.of_concat
    rcases List.prefix_concat_iff.mp hle with heq | hle
    · rw [hn, pageRun_succ, ← List.append_assoc] at heq
      obtain ⟨rfl, hc⟩ := List.append_inj' heq rfl
      have hrun : Parsed order (pre ++ pageRun r n) pre r n := ⟨rfl, hpre, by omega, fun _ => hr⟩
      obtain ⟨rfl, hstart⟩ := hrun.unique h₁
      have hc := (List.singleton_inj.mp hc).symm
      rcases hcase with ⟨rfl, -, -⟩ | ⟨-, hend⟩
      · exact absurd h.lt (by omega)
      · rcases Nat.eq_zero_or_pos n with rfl | hpos
        · exact hend.1 rfl (by rwa [hc, pageAt_zero])
        · exact hend.2 hpos (by rw [hc, hstart hpos])
    · exact ih h₁ hle

/-! ## The scan against the list -/

theorem allocPages_scanned {m : Machine w} {l : List (BitVec w)} {order : BitVec w}
    (hl : m.FreeList l) (horder : order.toNat < w) :
    ∃ r m', allocPages order m = some (r, m') ∧ Cut m order.toNat l r m' ∧
      Scanned (Clear order.toNat) order.toNat l r := by
  simp only [allocPages, if_neg (not_le.mpr horder)]
  exact scan_spec horder hl (fun hpre hk hstart hturn => hpre.turn hk hstart hturn) l (2 ^ w) _ [] 0
    (length_lt_of_freeList hl) (Nat.two_pow_pos _) .nil (.start hl _)

/-- A clear list that goes beyond the pages before a block goes beyond the block, or ends where
the block starts. -/
theorem Clear.not_within {l pre pre' : List (BitVec w)} {r : BitVec w} (h : Clear order pre')
    (hle' : pre' <+: l) (hpre : Clear order pre) (hblock : BlockAt order l pre r)
    (hlt : pre.length < pre'.length) : False := by
  obtain ⟨hr, rest, hl⟩ := hblock
  have hle : pre ++ pageRun r (2 ^ order) <+: l := ⟨rest, hl.symm⟩
  rcases Nat.le_total (pre ++ pageRun r (2 ^ order)).length pre'.length with hlen | hlen
  · exact (h.parsed 0).not_block hpre hr.2 (List.prefix_of_prefix_length_le hle hle' hlen)
  · obtain ⟨run, rfl⟩ := List.prefix_of_prefix_length_le
      ((List.prefix_append pre _).trans hle) hle' hlt.le
    have hrun : run <+: pageRun r (2 ^ order) :=
      (List.prefix_append_right_inj pre).mp (List.prefix_of_prefix_length_le hle' hle hlen)
    have hk : run.length ≤ 2 ^ order := by simpa [pageRun] using hrun.length_le
    have heq : run = pageRun r run.length := by
      obtain ⟨tail, htail⟩ := hrun
      rw [← Nat.add_sub_cancel' hk, pageRun_add] at htail
      exact (List.append_inj htail (by simp [pageRun])).1
    rw [List.length_append] at hlt
    rcases hk.lt_or_eq with hk | hk
    · have hparsed : Parsed order (pre ++ run) pre r run.length :=
        ⟨by rw [← heq], hpre, hk, fun _ => hr.2⟩
      have := (hparsed.unique (h.parsed 0)).1
      omega
    · rw [hk] at heq
      exact (h.parsed 0).not_block hpre hr.2 (heq ▸ List.prefix_rfl)

/-- The result of `alloc_pages` on the list `l` : the first block, or null if there is none. -/
def FirstFound (order : ℕ) (l : List (BitVec w)) (r : BitVec w) : Prop :=
  (r = 0 ∧ ∀ pre' r', ¬BlockAt order l pre' r') ∨ ∃ pre, FirstBlock order l pre r

/-- A block of more pages than the address space has is none. -/
theorem Block.order_lt {r : BitVec w} (h : Block order r) : order < w := by
  have hend := h.end_le
  have hpos : 0 < r.toNat := Nat.pos_of_ne_zero fun hz => h.1 (BitVec.eq_of_toNat_eq hz)
  have hle := Nat.le_mul_of_pos_right (2 ^ order) (Nat.two_pow_pos (pageShift w))
  exact (Nat.pow_lt_pow_iff_right (by norm_num)).mp (by omega : 2 ^ order < 2 ^ w)

/-- On every free list and for every order, `alloc_pages` returns the first block of the list, or
null if it has none, exactly if the pages before the first block are clear. -/
theorem allocPages_first_iff {m : Machine w} {l : List (BitVec w)} (hl : m.FreeList l)
    (order : BitVec w) :
    (order.toNat < w → ∃ r m', allocPages order m = some (r, m') ∧ FirstFound order.toNat l r) ↔
      ∀ pre r, FirstBlock order.toNat l pre r → Clear order.toNat pre := by
  constructor
  · intro h pre r hfirst
    have horder := hfirst.1.1.order_lt
    obtain ⟨r', m', hrun, hfound⟩ := h horder
    obtain ⟨r'', m'', hrun', -, hscanned⟩ := allocPages_scanned hl horder
    rw [hrun] at hrun'
    cases hrun'
    obtain ⟨pre', hfirst'⟩ : ∃ pre', FirstBlock order.toNat l pre' r' := by
      rcases hfound with ⟨-, hnone⟩ | hfirst'
      · exact absurd hfirst.1 (hnone pre r)
      · exact hfirst'
    obtain ⟨-, rest, hsplit⟩ := hfirst.1
    obtain ⟨-, rest', hsplit'⟩ := hfirst'.1
    have hlen := Nat.le_antisymm (hfirst.2 _ _ hfirst'.1) (hfirst'.2 _ _ hfirst.1)
    rw [hsplit'] at hsplit
    rw [List.append_assoc, List.append_assoc] at hsplit
    obtain ⟨rfl, -⟩ := List.append_inj hsplit hlen.symm
    rcases hscanned with ⟨-, pre₀, rest₀, hl₀, hclear⟩ | ⟨hnull, -⟩
    · obtain rfl := hfirst'.1.pre_unique (Chain.nodup hl) ⟨hfirst'.1.1, rest₀, hl₀⟩
      exact hclear
    · exact absurd hnull hfirst'.1.1.1
  · intro h horder
    obtain ⟨r, m', hrun, hcut, hscanned⟩ := allocPages_scanned hl horder
    refine ⟨r, m', hrun, ?_⟩
    rcases hscanned with ⟨hr, pre, rest, hsplit, hclear⟩ |
      ⟨rfl, pre, start, k, hsplit, hclear, hk, hstart⟩
    · have hblock : Block order.toNat r := by
        rcases hcut with ⟨hnull, -⟩ | ⟨-, -, hblock, -⟩
        · exact absurd hnull hr
        · exact hblock
      refine Or.inr ⟨pre, ⟨hblock, rest, hsplit⟩, fun pre' r' hother => ?_⟩
      obtain ⟨pre₀, r₀, hfirst⟩ := exists_firstBlock hother
      refine le_trans (not_lt.mp fun hlt => ?_) (hfirst.2 _ _ hother)
      refine hclear.not_within ?_ (h _ _ hfirst) hfirst.1 hlt
      exact ⟨pageRun r (2 ^ order.toNat) ++ rest, by rw [hsplit, List.append_assoc]⟩
    · refine Or.inl ⟨rfl, fun pre' r' hother => ?_⟩
      obtain ⟨pre₀, r₀, hfirst⟩ := exists_firstBlock hother
      obtain ⟨hr₀, rest₀, hl₀⟩ := hfirst.1
      have hparsed : Parsed order.toNat l pre start k := ⟨hsplit, hclear, hk, hstart⟩
      exact hparsed.not_block (h _ _ hfirst) hr₀.2 ⟨rest₀, hl₀.symm⟩

/-- Three free pages, of which the last two are a block. -/
def brokenRun : Machine 64 where
  mem a := if a = 0x2000 then 0x4000 else if a = 0x4000 then 0x5000 else 0
  freelist := 0x2000
  denied := false

theorem brokenRun_freeList : brokenRun.FreeList [0x2000, 0x4000, 0x5000] := by
  simp [Machine.FreeList, brokenRun, chain_cons, chain_nil]

/-- The page at `0x2000` starts a run that the block at `0x4000` ends, and the block is missed. -/
theorem allocPages_misses_block : ∃ l m', brokenRun.FreeList l ∧
    BlockAt 1 l [0x2000] 0x4000 ∧ allocPages 1 brokenRun = some (0, m') := by
  have hrun : (allocPages 1 brokenRun).map Prod.fst = some 0 := by decide
  obtain ⟨⟨r, m'⟩, hrun, rfl⟩ := Option.map_eq_some_iff.mp hrun
  exact ⟨_, m', brokenRun_freeList, ⟨⟨by decide, by decide⟩, [], by decide⟩, hrun⟩

/-- Five free pages : a lone one, a run that breaks off, and a block. -/
def scattered : Machine 64 where
  mem a :=
    if a = 0x1000 then 0x6000 else if a = 0x6000 then 0x9000 else if a = 0x9000 then 0x4000
    else if a = 0x4000 then 0x5000 else 0
  freelist := 0x1000
  denied := false

theorem scattered_freeList :
    scattered.FreeList [0x1000, 0x6000, 0x9000, 0x4000, 0x5000] := by
  simp [Machine.FreeList, scattered, chain_cons, chain_nil]

/-- The block at `0x4000` is found behind three pages that are clear. -/
theorem allocPages_first_scattered : ∃ m', allocPages 1 scattered = some (0x4000, m') ∧
    FirstFound 1 [0x1000, 0x6000, 0x9000, 0x4000, 0x5000] (0x4000 : BitVec 64) := by
  have hblock : BlockAt 1 [0x1000, 0x6000, 0x9000, 0x4000, 0x5000]
      [0x1000, 0x6000, 0x9000] (0x4000 : BitVec 64) := ⟨⟨by decide, by decide⟩, [], by decide⟩
  have hsingle : Clear 1 [(0x1000 : BitVec 64)] := .single .nil (by decide)
  have haligned : Aligned 1 (0x6000 : BitVec 64) := by decide
  have hclear : Clear 1 [0x1000, 0x6000, (0x9000 : BitVec 64)] :=
    .broken (k := 1) hsingle haligned (by decide) (by decide) (by decide)
  have hpages : ∀ pre (r : BitVec 64),
      FirstBlock 1 [0x1000, 0x6000, 0x9000, 0x4000, 0x5000] pre r → Clear 1 pre := by
    intro pre r hfirst
    have hlen := hfirst.2 _ _ hblock
    obtain ⟨⟨⟨-, haligned⟩, rest, heq⟩, -⟩ := hfirst
    rw [show 2 ^ 1 = 0 + 1 + 1 from rfl, pageRun_cons, pageRun_cons, pageRun_zero] at heq
    rcases pre with _ | ⟨a, _ | ⟨b, _ | ⟨c, _ | ⟨d, pre⟩⟩⟩⟩
    · exact .nil
    · simp only [List.cons_append, List.nil_append, List.cons.injEq] at heq
      obtain ⟨-, rfl, hnext, -⟩ := heq
      exact absurd hnext (by decide)
    · simp only [List.cons_append, List.nil_append, List.cons.injEq] at heq
      obtain ⟨-, -, rfl, hnext, -⟩ := heq
      exact absurd hnext (by decide)
    · simp only [List.cons_append, List.nil_append, List.cons.injEq] at heq
      obtain ⟨rfl, rfl, rfl, -⟩ := heq
      exact hclear
    · simp only [List.length_cons, List.length_nil] at hlen
      omega
  have hfst : (allocPages 1 scattered).map Prod.fst = some 0x4000 := by decide
  obtain ⟨r, m', hrun, hfound⟩ :=
    (allocPages_first_iff scattered_freeList 1).mpr hpages (by decide)
  rw [hrun] at hfst
  obtain rfl : r = 0x4000 := Option.some.inj hfst
  exact ⟨m', hrun, hfound⟩

end AcrnUt
