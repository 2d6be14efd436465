import AcrnUt.RadixTree
import AcrnUt.S390Mmu

/-!
# The s390x tables as a tree

The blocks that `alloc_pages` hands out are of different sizes, so a table is told by its block, and
an entry by its place in the block : `Layout.view` is memory as seen through the blocks of a
`Layout`, which have no word in common. In this view the tables are a radix tree (`S390.radix`), and
a store to an entry of a block is a store to one place (`Layout.view_store`).

`S390Tables` is the invariant of `get_pte` and `install_page`. The first makes tables without a
change to the entry of any page (`S390Tables.getPte_spec`), the second changes the walks of one page
(`S390Tables.installPage_spec`).
-/

set_option linter.unusedSectionVars false

namespace AcrnUt

namespace S390

/-! ## Blocks -/

/-- Blocks of memory, each with the number of entries it has room for. -/
structure Layout where
  capacity : BitVec 64 → ℕ
  aligned : ∀ {t : BitVec 64}, 0 < capacity t → t &&& pageMask = t
  inj : ∀ {t t' : BitVec 64} {i i' : ℕ}, i < capacity t → i' < capacity t' →
    entryAddr t (BitVec.ofNat 64 i) = entryAddr t' (BitVec.ofNat 64 i') → t = t' ∧ i = i'

/-- Memory through the blocks : entry `i` of block `t`. -/
def Layout.view (B : Layout) (mem : BitVec 64 → BitVec 64) (a : BitVec 64 × ℕ) : BitVec 64 :=
  if a.2 < B.capacity a.1 then mem (entryAddr a.1 (BitVec.ofNat 64 a.2)) else 0

section Layout

variable {B : Layout} {m : S390Machine} {t : BitVec 64} {i : ℕ}

theorem Layout.view_of_lt (h : i < B.capacity t) :
    B.view m.mem (t, i) = m.mem (entryAddr t (BitVec.ofNat 64 i)) :=
  if_pos h

/-- A store to an entry of a block. -/
theorem Layout.view_store (h : i < B.capacity t) (e : BitVec 64) :
    B.view (m.store (entryAddr t (BitVec.ofNat 64 i)) e).mem =
      Function.update (B.view m.mem) (t, i) e := by
  ext1 ⟨t', i'⟩
  unfold Layout.view S390Machine.store
  dsimp only
  by_cases heq : (t', i') = (t, i)
  · cases heq
    rw [Function.update_self, if_pos h, Function.update_self]
  · rw [Function.update_of_ne heq]
    by_cases h' : i' < B.capacity t'
    · rw [if_pos h', if_pos h', Function.update_of_ne]
      intro haddr
      obtain ⟨rfl, rfl⟩ := B.inj h' h haddr
      exact heq rfl
    · rw [if_neg h', if_neg h']

/-- A new table holds invalid entries, and nothing else is written. -/
theorem Layout.view_fill {L : S390Level} (h : L.ptrs ≤ B.capacity t) (a : BitVec 64 × ℕ) :
    B.view (m.fill L t).mem a = if a.1 = t ∧ a.2 < L.ptrs then L.empty else B.view m.mem a := by
  have hloop : ∀ n ≤ B.capacity t,
      B.view ((List.range n).foldl
        (fun m i => m.store (entryAddr t (BitVec.ofNat 64 i)) L.empty) m).mem a =
      if a.1 = t ∧ a.2 < n then L.empty else B.view m.mem a := by
    intro n hn
    induction n with
    | zero => simp
    | succ n ih =>
      rw [List.range_succ, List.foldl_append, List.foldl_cons, List.foldl_nil,
        Layout.view_store (by omega), Function.update_apply, ih (by omega)]
      by_cases ha : a = (t, n)
      · rw [if_pos ha, ha, if_pos ⟨rfl, by omega⟩]
      · rw [if_neg ha]
        have hne : a.1 = t → a.2 ≠ n := fun h₁ h₂ => ha (Prod.ext h₁ h₂)
        refine if_congr (and_congr_right fun h₁ => ?_) rfl rfl
        have := hne h₁
        omega
  exact hloop L.ptrs h

theorem fill_blocks (L : S390Level) : (m.fill L t).blocks = m.blocks := by
  unfold S390Machine.fill
  exact List.foldlRecOn (motive := fun m' : S390Machine => m'.blocks = m.blocks) _ _ rfl
    fun _ h _ _ => h

theorem fill_denied (L : S390Level) : (m.fill L t).denied = m.denied := by
  unfold S390Machine.fill
  exact List.foldlRecOn (motive := fun m' : S390Machine => m'.denied = m.denied) _ _ rfl
    fun _ h _ _ => h

end Layout

/-! ## The tree -/

/-- The tables, in the view through blocks. -/
def radix : Radix (BitVec 64 × ℕ) (BitVec 64) (BitVec 64) where
  index d va := ((level d).index va).toNat
  slot t i := (t.1, i)
  page t := (t.1, 0)
  next d e := if d < 4 ∧ (level d).IsTable e then some (e &&& (level d).origin, 0) else none
  page_slot _ _ h := h
  slot_inj h := (Prod.mk.inj h).2
  page_next {d e t} h := by
    split_ifs at h
    cases h
    rfl

theorem index_eq (d : ℕ) (va : BitVec 64) :
    radix.index d va = va.toNat / 2 ^ (level d).shift % (level d).ptrs := by
  have h : ∀ (L : S390Level) (k : ℕ), L.ptrs = 2 ^ k →
      (BitVec.ofNat 64 L.ptrs - 1).toNat = 2 ^ k - 1 →
      (L.index va).toNat = va.toNat / 2 ^ L.shift % L.ptrs := by
    intro L k hk hmask
    unfold S390Level.index
    rw [BitVec.toNat_and, hmask, Nat.and_two_pow_sub_one_eq_mod, BitVec.toNat_ushiftRight,
      Nat.shiftRight_eq_div_pow, hk]
  match d with
  | 0 => exact h pgd 11 rfl rfl
  | 1 => exact h p4d 11 rfl rfl
  | 2 => exact h pud 11 rfl rfl
  | 3 => exact h pmd 11 rfl rfl
  | _ + 4 => exact h pte 8 rfl rfl

/-- An index selects an entry of its table. -/
theorem index_lt (d : ℕ) (va : BitVec 64) : radix.index d va < (level d).ptrs := by
  have hpos : 0 < (level d).ptrs := by
    match d with
    | 0 | 1 | 2 | 3 | _ + 4 => exact Nat.zero_lt_succ _
  rw [index_eq]
  exact Nat.mod_lt _ hpos

theorem offset_eq (d : ℕ) (t va : BitVec 64) :
    offset (level d) t va = entryAddr t (BitVec.ofNat 64 (radix.index d va)) := by
  change _ = entryAddr t (BitVec.ofNat 64 ((level d).index va).toNat)
  rw [BitVec.ofNat_toNat, BitVec.setWidth_eq]
  rfl

/-- An entry for a table is valid. -/
theorem not_isNone_of_isTable {d : ℕ} {e : BitVec 64} (hd : d < 4) (h : (level d).IsTable e) :
    ¬(level d).IsNone e := by
  have hinvalid : (level d).checked &&& (level d).invalid = (level d).invalid ∧
      (((level d).tableType ||| tableLength) &&& (level d).checked) &&& (level d).invalid = 0 := by
    interval_cases d <;> decide
  unfold S390Level.IsNone
  rw [not_not, ← hinvalid.1, ← BitVec.and_assoc, show e &&& (level d).checked = _ from h,
    hinvalid.2]

/-- What a link holds. -/
theorem link_spec {d : ℕ} {t : BitVec 64} (hd : d < 4) (ht : t &&& pageMask = t) :
    (level d).IsTable (t ||| (level d).tableType ||| tableLength) ∧
      (t ||| (level d).tableType ||| tableLength) &&& (level d).origin = t := by
  have hlevel : pageMask &&& (level d).checked = 0 ∧ pageMask &&& (level d).origin = pageMask ∧
      ((level d).tableType ||| tableLength) &&& (level d).origin = 0 := by
    interval_cases d <;> decide
  have hchecked : t &&& (level d).checked = 0 := by
    rw [← ht, BitVec.and_assoc, hlevel.1]
    exact BitVec.and_zero
  have horigin : t &&& (level d).origin = t := by
    rw [← ht, BitVec.and_assoc, hlevel.2.1]
  unfold S390Level.IsTable
  constructor
  · rw [BitVec.or_assoc, BitVec.and_or_distrib_right, hchecked]
    exact BitVec.zero_or
  · rw [BitVec.or_assoc, BitVec.and_or_distrib_right, horigin, hlevel.2.2]
    exact BitVec.or_zero

/-- What a new table is filled with. -/
theorem isNone_empty (d : ℕ) : (level d).IsNone (level d).empty := by
  match d with
  | 0 => decide
  | 1 => decide
  | 2 => decide
  | 3 => decide
  | _ + 4 => exact (by decide : pte.IsNone pte.empty)

/-! ## The invariant -/

/-- The frame of a page, as the view has it. -/
def Layout.walk (B : Layout) (mem : BitVec 64 → BitVec 64) (root va : BitVec 64) :
    Option (BitVec 64) :=
  (radix.entry (B.view mem) (root, 0) va 4).bind frame

/-- The entry of a page, as the view has it. A page without a table has the entry of a new one. -/
def Layout.pteVal (B : Layout) (mem : BitVec 64 → BitVec 64) (root va : BitVec 64) : BitVec 64 :=
  (radix.entry (B.view mem) (root, 0) va 4).getD pte.empty

theorem Layout.walk_eq (B : Layout) (mem : BitVec 64 → BitVec 64) (root va : BitVec 64) :
    B.walk mem root va = frame (B.pteVal mem root va) := by
  unfold walk pteVal
  rcases radix.entry (B.view mem) (root, 0) va 4 with _ | e <;> rfl

/-- The tables in memory, and the fresh blocks. -/
structure S390Tables (B : Layout) (m : S390Machine) (root : BitVec 64) : Prop where
  tree : radix.IsTree (B.view m.mem) (root, 0)
  room : ∀ {va d t}, radix.table (B.view m.mem) (root, 0) va d = some t →
    t.2 = 0 ∧ (level d).ptrs ≤ B.capacity t.1
  upper : ∀ {va d e}, d < 4 → radix.entry (B.view m.mem) (root, 0) va d = some e →
    (level d).IsNone e ∨ (level d).IsTable e
  nodup : ∀ k, (m.blocks k).Nodup
  disjoint : ∀ {k k' p}, p ∈ m.blocks k → p ∈ m.blocks k' → k = k'
  fresh : ∀ {d p}, p ∈ m.blocks (level d).order →
    (level d).ptrs ≤ B.capacity p ∧ (p, 0) ∉ radix.tables (B.view m.mem) (root, 0)

section Walk

variable {B : Layout} {m m' : S390Machine} {root va : BitVec 64} {d : ℕ} {t : BitVec 64}

theorem next_of_isNone {d : ℕ} {e : BitVec 64} (h : (level d).IsNone e) : radix.next d e = none :=
  if_neg fun hc => not_isNone_of_isTable hc.1 hc.2 h

theorem next_of_isTable {d : ℕ} {e : BitVec 64} (hd : d < 4) (h : (level d).IsTable e) :
    radix.next d e = some (e &&& (level d).origin, 0) :=
  if_pos ⟨hd, h⟩

/-- The entries of the last level lead nowhere. -/
theorem next_of_le {d : ℕ} (hd : 4 ≤ d) (e : BitVec 64) : radix.next d e = none :=
  if_neg fun hc => absurd hc.1 (not_lt.mpr hd)

/-- The entry that a key selects in a table. -/
theorem S390Tables.entry_of_table (h : S390Tables B m root)
    (ht : radix.table (B.view m.mem) (root, 0) va d = some (t, 0)) :
    radix.entry (B.view m.mem) (root, 0) va d = some (m.mem (offset (level d) t va)) := by
  have hroom := (h.room ht).2
  rw [Radix.entry, ht, Option.map_some, offset_eq]
  exact congrArg some (B.view_of_lt ((index_lt d va).trans_le hroom))

/-- The entry that the hardware reads in the table that it reaches. -/
theorem S390Tables.entry_eq (h : S390Tables B m root)
    (htable : (hwTable m.mem root va d).map (·, 0) =
      radix.table (B.view m.mem) (root, 0) va d) :
    radix.entry (B.view m.mem) (root, 0) va d =
      (hwTable m.mem root va d).map fun t => m.mem (offset (level d) t va) := by
  cases ht : hwTable m.mem root va d with
  | none =>
    rw [ht] at htable
    rw [Radix.entry, ← htable]
    rfl
  | some t =>
    rw [ht, Option.map_some] at htable
    exact h.entry_of_table htable.symm

/-- The hardware reaches the tables of the tree. -/
theorem S390Tables.hwTable_eq (h : S390Tables B m root) (hd : d ≤ 4) :
    (hwTable m.mem root va d).map (·, 0) = radix.table (B.view m.mem) (root, 0) va d := by
  induction d with
  | zero => rfl
  | succ d ih =>
    rw [Radix.table_succ, h.entry_eq (ih (Nat.le_of_succ_le hd)), hwTable]
    cases hwTable m.mem root va d with
    | none => rfl
    | some t =>
      rw [Option.map_some, Option.bind_some, Option.bind_some]
      by_cases hentry : (level d).IsTable (m.mem (offset (level d) t va))
      · rw [next_of_isTable (Nat.lt_of_succ_le hd) hentry]
        simp [hentry]
      · rw [show radix.next d _ = none from if_neg fun hc => hentry hc.2]
        simp [hentry]

/-- The walk of the hardware is that of the view. -/
theorem S390Tables.hwWalk_eq (h : S390Tables B m root) (va : BitVec 64) :
    hwWalk m.mem root va = B.walk m.mem root va := by
  rw [Layout.walk, h.entry_eq (h.hwTable_eq le_rfl), Option.bind_map]
  rfl

/-- A walk that gives no frame ends at an invalid entry. -/
theorem S390Tables.endsInvalid (h : S390Tables B m root) (hwalk : hwWalk m.mem root va = none) :
    EndsInvalid m.mem root va := by
  by_contra hends
  have hreach : ∀ d ≤ 4, ∃ t, hwTable m.mem root va d = some t := by
    intro d hd
    induction d with
    | zero => exact ⟨root, rfl⟩
    | succ d ih =>
      obtain ⟨t, ht⟩ := ih (Nat.le_of_succ_le hd)
      have hentry := h.entry_of_table ((h.hwTable_eq (Nat.le_of_succ_le hd)).symm.trans
        (congrArg (Option.map (·, 0)) ht))
      have htable := (h.upper (Nat.lt_of_succ_le hd) hentry).resolve_left fun hnone =>
        hends ⟨d, Nat.le_of_succ_le hd, t, ht, hnone⟩
      refine ⟨m.mem (offset (level d) t va) &&& (level d).origin, ?_⟩
      rw [hwTable, ht, Option.bind_some]
      exact if_pos htable
  obtain ⟨t, ht⟩ := hreach 4 le_rfl
  unfold hwWalk at hwalk
  rw [ht, Option.bind_some] at hwalk
  unfold frame at hwalk
  split_ifs at hwalk with hnone
  exact hends ⟨4, le_rfl, t, ht, hnone⟩

/-! ## Making tables -/

/-- What was served in the end was served before. -/
theorem served_of_allocPages {order : ℕ} (h : (m.allocPages order).2.denied = false) :
    m.denied = false := by
  unfold S390Machine.allocPages at h
  cases hl : m.blocks order with
  | nil =>
    rw [hl] at h
    cases h
  | cons p l =>
    rw [hl] at h
    exact h

theorem served_of_allocNext {L L' : S390Level} {slot : BitVec 64}
    (h : (allocNext L L' slot va m).2.denied = false) : m.denied = false := by
  unfold allocNext allocOne at h
  dsimp only at h
  split_ifs at h
  · unfold S390Machine.store at h
    rw [fill_denied] at h
    exact served_of_allocPages h
  · exact h

/-- The blocks after one is taken. -/
theorem mem_blocks {p q : BitVec 64} {l : List (BitVec 64)} {order k : ℕ}
    (hnodup : ∀ k, (m.blocks k).Nodup)
    (hdisjoint : ∀ {k k' p}, p ∈ m.blocks k → p ∈ m.blocks k' → k = k')
    (hl : m.blocks order = p :: l) (hq : q ∈ Function.update m.blocks order l k) :
    q ∈ m.blocks k ∧ q ≠ p := by
  have hp : p ∈ m.blocks order := hl ▸ List.mem_cons_self
  by_cases hk : k = order
  · subst hk
    rw [Function.update_self] at hq
    refine ⟨hl ▸ List.mem_cons_of_mem p hq, ?_⟩
    rintro rfl
    exact (List.nodup_cons.mp (hl ▸ hnodup k)).1 hq
  · rw [Function.update_of_ne hk] at hq
    refine ⟨hq, ?_⟩
    rintro rfl
    exact hk (hdisjoint hq hp)

theorem nodup_blocks {p : BitVec 64} {l : List (BitVec 64)} {order : ℕ}
    (hnodup : ∀ k, (m.blocks k).Nodup) (hl : m.blocks order = p :: l) (k : ℕ) :
    (Function.update m.blocks order l k).Nodup := by
  by_cases hk : k = order
  · subst hk
    rw [Function.update_self]
    exact (List.nodup_cons.mp (hl ▸ hnodup k)).2
  · rw [Function.update_of_ne hk]
    exact hnodup k

/-- A new table, linked into an invalid entry, is a graft. -/
theorem S390Tables.graft {p : BitVec 64} {l : List (BitVec 64)} (h : S390Tables B m root)
    (hl : m.blocks (level (d + 1)).order = p :: l) (hd : d < 4)
    (ht : radix.table (B.view m.mem) (root, 0) va d = some (t, 0))
    (hnone : (level d).IsNone (m.mem (offset (level d) t va))) {m₁ : S390Machine}
    (hm₁ : ∀ a, B.view m₁.mem a =
      if a.1 = p ∧ a.2 < (level (d + 1)).ptrs then (level (d + 1)).empty else B.view m.mem a) :
    radix.Graft (B.view m.mem)
      (B.view (m₁.store (offset (level d) t va) (p ||| (level d).tableType ||| tableLength)).mem)
      (root, 0) va d (t, 0) (p, 0) (p ||| (level d).tableType ||| tableLength) := by
  obtain ⟨hroom, hfresh⟩ := h.fresh (d := d + 1) (hl ▸ List.mem_cons_self)
  have hp : p &&& pageMask = p :=
    B.aligned (Nat.zero_lt_of_lt ((index_lt (d + 1) va).trans_le hroom))
  have hlt : radix.index d va < B.capacity t := (index_lt d va).trans_le (h.room ht).2
  rw [offset_eq, B.view_store hlt]
  refine Radix.Graft.of_clear h.tree ht ?_ rfl hfresh ?_ (fun a ha => ?_) fun v => ?_
  · have hslot : B.view m.mem (t, radix.index d va) = m.mem (offset (level d) t va) := by
      rw [offset_eq]
      exact B.view_of_lt hlt
    exact next_of_isNone (hslot ▸ hnone)
  · obtain ⟨htable, horigin⟩ := link_spec hd hp
    rw [next_of_isTable hd htable, horigin]
  · rw [hm₁, if_neg]
    rintro ⟨rfl, -⟩
    exact ha rfl
  · rw [hm₁, if_pos ⟨rfl, index_lt (d + 1) v⟩]
    exact next_of_isNone (isNone_empty (d + 1))

/-- A graft of a new table keeps the invariant. -/
theorem S390Tables.graft_tables {p e : BitVec 64} {l : List (BitVec 64)} (h : S390Tables B m root)
    (hl : m.blocks (level (d + 1)).order = p :: l) (hd : d < 4)
    (g : radix.Graft (B.view m.mem) (B.view m'.mem) (root, 0) va d (t, 0) (p, 0) e)
    (hlink : (level d).IsTable e)
    (hnew : ∀ v, B.view m'.mem (radix.slot (p, 0) (radix.index (d + 1) v)) =
      (level (d + 1)).empty)
    (hblocks : m'.blocks = Function.update m.blocks (level (d + 1)).order l) :
    S390Tables B m' root := by
  obtain ⟨hroom, -⟩ := h.fresh (d := d + 1) (hl ▸ List.mem_cons_self)
  refine ⟨g.isTree, fun ht => ?_, fun hd' he => ?_, fun k => ?_, fun hq hq' => ?_, fun hq => ?_⟩
  · rcases g.table_cases ht with ⟨rfl, -, rfl⟩ | ht
    · exact ⟨rfl, hroom⟩
    · exact h.room ht
  · rcases g.entry_cases he with he | ⟨-, ⟨rfl, rfl⟩ | ⟨rfl, rfl⟩⟩
    · exact h.upper hd' he
    · exact Or.inr hlink
    · left
      rw [hnew]
      exact isNone_empty (d + 1)
  · rw [hblocks]
    exact nodup_blocks h.nodup hl k
  · rw [hblocks] at hq hq'
    exact h.disjoint (mem_blocks h.nodup h.disjoint hl hq).1
      (mem_blocks h.nodup h.disjoint hl hq').1
  · rw [hblocks] at hq
    obtain ⟨hmem, hne⟩ := mem_blocks h.nodup h.disjoint hl hq
    obtain ⟨hcap, hfresh⟩ := h.fresh hmem
    refine ⟨hcap, ?_⟩
    rw [g.tables_eq, Set.mem_insert_iff, not_or]
    exact ⟨fun heq => hne (Prod.mk.inj heq).1, hfresh⟩

/-- A new table changes the entry of no page. -/
theorem pteVal_graft {p e : BitVec 64} (hd : d < 4)
    (g : radix.Graft (B.view m.mem) (B.view m'.mem) (root, 0) va d (t, 0) (p, 0) e)
    (hnew : ∀ v, B.view m'.mem (radix.slot (p, 0) (radix.index (d + 1) v)) =
      (level (d + 1)).empty)
    (v : BitVec 64) : B.pteVal m'.mem root v = B.pteVal m.mem root v := by
  unfold Layout.pteVal
  by_cases hv : radix.Agree (d + 1) va v
  · -- Through the link, the way ended above the last level, and now ends in the new table.
    have hbefore : radix.entry (B.view m.mem) (root, 0) v 4 = none := by
      rw [Radix.entry, (g.ends hv).table_eq_none radix hd]
      rfl
    rw [hbefore]
    have hends := g.ends_new hv
    rcases Nat.lt_or_ge (d + 1) 4 with hlt | hge
    · rw [Radix.entry, hends.table_eq_none radix hlt]
      rfl
    · obtain rfl : d = 3 := by omega
      rw [hends.1, hnew]
      rfl
  · rw [g.entry_old hv]

/-- `p4d_alloc` to `pte_alloc` go one table down, and make it if it is missing. -/
theorem S390Tables.allocNext_spec (h : S390Tables B m root)
    (ht : radix.table (B.view m.mem) (root, 0) va d = some (t, 0)) (hd : d < 4)
    (hden : (allocNext (level d) (level (d + 1)) (offset (level d) t va) va m).2.denied = false) :
    ∃ t' m', allocNext (level d) (level (d + 1)) (offset (level d) t va) va m =
        (offset (level (d + 1)) t' va, m') ∧
      S390Tables B m' root ∧ radix.table (B.view m'.mem) (root, 0) va (d + 1) = some (t', 0) ∧
      ∀ v, B.pteVal m'.mem root v = B.pteVal m.mem root v := by
  unfold allocNext allocOne at hden ⊢
  dsimp only at hden ⊢
  by_cases hnone : (level d).IsNone (m.mem (offset (level d) t va))
  · rw [if_pos hnone] at hden ⊢
    unfold S390Machine.allocPages at hden ⊢
    cases hl : m.blocks (level (d + 1)).order with
    | nil =>
      rw [hl] at hden
      unfold S390Machine.store at hden
      rw [fill_denied] at hden
      cases hden
    | cons p l =>
      obtain ⟨hroom, -⟩ := h.fresh (d := d + 1) (hl ▸ List.mem_cons_self)
      have hp : p &&& pageMask = p :=
        B.aligned (Nat.zero_lt_of_lt ((index_lt (d + 1) va).trans_le hroom))
      obtain ⟨htable, horigin⟩ := link_spec hd hp
      let m₁ : S390Machine :=
        ({ m with blocks := Function.update m.blocks (level (d + 1)).order l } : S390Machine).fill
          (level (d + 1)) p
      let m' := m₁.store (offset (level d) t va) (p ||| (level d).tableType ||| tableLength)
      have hm₁ : ∀ a, B.view m₁.mem a = if a.1 = p ∧ a.2 < (level (d + 1)).ptrs
          then (level (d + 1)).empty else B.view m.mem a := B.view_fill hroom
      have g := h.graft hl hd ht hnone hm₁
      have hnew : ∀ v, B.view m'.mem (radix.slot (p, 0) (radix.index (d + 1) v)) =
          (level (d + 1)).empty := by
        intro v
        have hne : (p, radix.index (d + 1) v) ≠ (t, radix.index d va) := fun heq =>
          g.page_slot_ne (congrArg (·, 0) (Prod.mk.inj heq).1.symm)
        have hlt : radix.index d va < B.capacity t := (index_lt d va).trans_le (h.room ht).2
        change B.view (m₁.store (offset (level d) t va) _).mem (p, radix.index (d + 1) v) = _
        rw [offset_eq, B.view_store hlt, Function.update_of_ne hne, hm₁,
          if_pos ⟨rfl, index_lt (d + 1) v⟩]
      refine ⟨p, m', ?_, h.graft_tables hl hd g htable hnew (fill_blocks _),
        g.table_new fun _ _ => rfl, pteVal_graft hd g hnew⟩
      have hstore : m'.mem (offset (level d) t va) = p ||| (level d).tableType ||| tableLength :=
        Function.update_self ..
      change (offset (level (d + 1))
        (m'.mem (offset (level d) t va) &&& (level d).origin) va, m') = _
      rw [hstore, horigin]
  · rw [if_neg hnone]
    have hentry := h.entry_of_table ht
    have htable := (h.upper hd hentry).resolve_left hnone
    refine ⟨_, m, rfl, h, ?_, fun _ => rfl⟩
    rw [Radix.table_succ, hentry, Option.bind_some, next_of_isTable hd htable]

/-! ## Pages -/

theorem getPte_eq : getPte root va m =
    let p4d := allocNext (level 0) (level 1) (offset (level 0) root va) va m
    let pud := allocNext (level 1) (level 2) p4d.1 va p4d.2
    let pmd := allocNext (level 2) (level 3) pud.1 va pud.2
    allocNext (level 3) (level 4) pmd.1 va pmd.2 := by
  unfold getPte p4dAlloc pudAlloc pmdAlloc pteAlloc
  simp only [level]

/-- What was served in the end was served before. -/
theorem served_of_getPte (h : (getPte root va m).2.denied = false) : m.denied = false := by
  rw [getPte_eq] at h
  exact served_of_allocNext (served_of_allocNext (served_of_allocNext (served_of_allocNext h)))

/-- `get_pte` gives the entry of the last level, and changes that of no page. -/
theorem S390Tables.getPte_spec (h : S390Tables B m root)
    (hden : (getPte root va m).2.denied = false) :
    ∃ t m', getPte root va m = (offset pte t va, m') ∧ S390Tables B m' root ∧
      radix.table (B.view m'.mem) (root, 0) va 4 = some (t, 0) ∧
      ∀ v, B.pteVal m'.mem root v = B.pteVal m.mem root v := by
  rw [getPte_eq] at hden ⊢
  dsimp only at hden ⊢
  have hden₃ := served_of_allocNext hden
  have hden₂ := served_of_allocNext hden₃
  have hden₁ := served_of_allocNext hden₂
  obtain ⟨t₁, m₁, heq₁, h₁, ht₁, hw₁⟩ := h.allocNext_spec (d := 0) rfl (by norm_num) hden₁
  simp only [heq₁] at hden hden₃ hden₂ ⊢
  obtain ⟨t₂, m₂, heq₂, h₂, ht₂, hw₂⟩ := h₁.allocNext_spec ht₁ (by norm_num) hden₂
  simp only [heq₂] at hden hden₃ ⊢
  obtain ⟨t₃, m₃, heq₃, h₃, ht₃, hw₃⟩ := h₂.allocNext_spec ht₂ (by norm_num) hden₃
  simp only [heq₃] at hden ⊢
  obtain ⟨t₄, m₄, heq₄, h₄, ht₄, hw₄⟩ := h₃.allocNext_spec ht₃ (by norm_num) hden
  refine ⟨t₄, m₄, heq₄, h₄, ht₄, fun v => ?_⟩
  rw [hw₄, hw₃, hw₂, hw₁]

/-- Where the tables are there, `get_pte` follows them and changes nothing. -/
theorem S390Tables.getPte_of_table (h : S390Tables B m root)
    (ht : radix.table (B.view m.mem) (root, 0) va 4 = some (t, 0)) :
    getPte root va m = (offset pte t va, m) := by
  have hstep : ∀ {d t'}, d < 4 → radix.table (B.view m.mem) (root, 0) va (d + 1) = some (t', 0) →
      ∃ t, radix.table (B.view m.mem) (root, 0) va d = some (t, 0) ∧
        allocNext (level d) (level (d + 1)) (offset (level d) t va) va m =
          (offset (level (d + 1)) t' va, m) := by
    intro d t' hd ht'
    obtain ⟨⟨t, i⟩, ht, -⟩ := radix.exists_table_of_succ ht'
    obtain rfl : i = 0 := (h.room ht).1
    refine ⟨t, ht, ?_⟩
    have hentry := h.entry_of_table ht
    rw [Radix.table_succ, hentry, Option.bind_some] at ht'
    have hnone : ¬(level d).IsNone (m.mem (offset (level d) t va)) := fun hnone => by
      rw [next_of_isNone hnone] at ht'
      cases ht'
    rw [next_of_isTable hd ((h.upper hd hentry).resolve_left hnone)] at ht'
    have horigin := (Prod.mk.inj (Option.some.inj ht')).1
    unfold allocNext
    dsimp only
    rw [if_neg hnone, horigin]
  obtain ⟨t₃, ht₃, heq₃⟩ := hstep (by norm_num) ht
  obtain ⟨t₂, ht₂, heq₂⟩ := hstep (by norm_num) ht₃
  obtain ⟨t₁, ht₁, heq₁⟩ := hstep (by norm_num) ht₂
  obtain ⟨t₀, ht₀, heq₀⟩ := hstep (by norm_num) ht₁
  cases ht₀
  rw [getPte_eq]
  dsimp only
  rw [heq₀, heq₁, heq₂, heq₃]
  rfl

/-- The address of a page. -/
def page (va : BitVec 64) : BitVec 64 :=
  va &&& pageMask

theorem toNat_page (va : BitVec 64) : (page va).toNat = va.toNat / 2 ^ 12 * 2 ^ 12 :=
  toNat_and_not_mask va (by norm_num)

/-- Two addresses have the same entries if they lie in one page. -/
theorem agree_five_iff (va v : BitVec 64) : radix.Agree 5 va v ↔ page va = page v := by
  rw [← BitVec.toNat_inj, toNat_page, toNat_page, Nat.mul_left_inj (Nat.two_pow_pos 12).ne']
  constructor
  · intro h
    -- No bit lies above the first index, so each index adds its digit to those above it.
    have htop : va.toNat / (2 ^ 53 * 2048) = v.toNat / (2 ^ 53 * 2048) :=
      (Nat.div_eq_of_lt va.isLt).trans (Nat.div_eq_of_lt v.isLt).symm
    have hindex := fun d hd => (index_eq d va).symm.trans ((h d hd).trans (index_eq d v))
    have hpgd : va.toNat / 2 ^ 53 = v.toNat / 2 ^ 53 :=
      div_eq_of_digit htop (hindex 0 (by norm_num))
    have hp4d : va.toNat / 2 ^ 42 = v.toNat / 2 ^ 42 :=
      div_eq_of_digit hpgd (hindex 1 (by norm_num))
    have hpud : va.toNat / 2 ^ 31 = v.toNat / 2 ^ 31 :=
      div_eq_of_digit hp4d (hindex 2 (by norm_num))
    have hpmd : va.toNat / 2 ^ 20 = v.toNat / 2 ^ 20 :=
      div_eq_of_digit hpud (hindex 3 (by norm_num))
    exact div_eq_of_digit hpmd (hindex 4 (by norm_num))
  · intro hpte d hd
    have hle : 12 ≤ (level d).shift := by interval_cases d <;> decide
    have hdiv : ∀ n, n / 2 ^ (level d).shift =
        n / 2 ^ 12 / 2 ^ ((level d).shift - 12) := fun n => by
      rw [Nat.div_div_eq_div_mul, ← pow_add, Nat.add_sub_cancel' hle]
    rw [index_eq, index_eq, hdiv va.toNat, hdiv v.toNat, hpte]

/-- A store to the entry of a page. -/
theorem S390Tables.plant {e : BitVec 64} (h : S390Tables B m root)
    (ht : radix.table (B.view m.mem) (root, 0) va 4 = some (t, 0)) :
    S390Tables B (m.store (offset pte t va) e) root ∧
      ∀ v, B.pteVal (m.store (offset pte t va) e).mem root v =
        if page va = page v then e else B.pteVal m.mem root v := by
  have hlt : radix.index 4 va < B.capacity t := (index_lt 4 va).trans_le (h.room ht).2
  have hview : B.view (m.store (offset pte t va) e).mem =
      Function.update (B.view m.mem) (radix.slot (t, 0) (radix.index 4 va)) e := by
    rw [show offset pte t va = _ from offset_eq 4 t va, B.view_store hlt]
    rfl
  have hnext : radix.next 4 e = none := next_of_le le_rfl e
  constructor
  · refine ⟨?_, fun ht' => ?_, fun hd he => ?_, h.nodup, h.disjoint, fun hp => ?_⟩
    · rw [hview]
      exact h.tree.plant ht hnext
    · rw [hview] at ht'
      exact h.room (h.tree.table_plant_cases ht hnext ht').1
    · rw [hview] at he
      rcases h.tree.entry_plant_cases ht hnext he with he | ⟨rfl, -, -⟩
      · exact h.upper hd he
      · exact absurd hd (lt_irrefl 4)
    · obtain ⟨hroom, hfresh⟩ := h.fresh hp
      rw [hview, h.tree.tables_plant ht hnext]
      exact ⟨hroom, fun hmem => hfresh hmem.1⟩
  · intro v
    unfold Layout.pteVal
    rw [hview]
    by_cases hv : page va = page v
    · rw [if_pos hv, h.tree.entry_update_self ht ((agree_five_iff va v).mpr hv)]
      rfl
    · rw [if_neg hv, h.tree.entry_update ht
        (Or.inr fun hagree => hv ((agree_five_iff va v).mp hagree))]

theorem page_eq_self_iff {a : BitVec 64} : page a = a ↔ a.toNat % 2 ^ 12 = 0 := by
  rw [← BitVec.toNat_inj, toNat_page]
  omega

/-- The frame of an aligned address. -/
theorem frame_of_page {phys : BitVec 64} (h : page phys = phys) : frame phys = some phys := by
  have hvalid : ¬pte.IsNone phys := by
    unfold S390Level.IsNone
    rw [not_not, ← h]
    unfold page
    rw [BitVec.and_assoc]
    exact BitVec.and_zero
  unfold frame
  rw [if_neg hvalid]
  exact congrArg some h

/-- The origin that `ipte` takes is that of the table. -/
theorem S390Tables.ipte_eq (h : S390Tables B m root)
    (ht : radix.table (B.view m.mem) (root, 0) va 4 = some (t, 0)) :
    ipte va (offset pte t va) m =
      m.store (offset pte t va) (m.mem (offset pte t va) ||| pte.invalid) := by
  have hroom := (h.room ht).2
  have ht' : t &&& pageMask = t := B.aligned (Nat.zero_lt_of_lt ((index_lt 4 va).trans_le hroom))
  have horigin : offset pte t va &&& pageMask = t := by
    have hlt : radix.index 4 va < 256 := index_lt 4 va
    have hmod := page_eq_self_iff.mp ht'
    have htlt := t.isLt
    refine BitVec.eq_of_toNat_eq ((toNat_page _).trans ?_)
    rw [show offset pte t va = _ from offset_eq 4 t va, entryAddr_eq, BitVec.toNat_add,
      BitVec.toNat_ofNat, BitVec.toNat_ofNat]
    omega
  unfold ipte
  rw [horigin]

/-- `set_pte` stores the value, whatever entry it flushes before. -/
theorem S390Tables.setPte_eq {val : BitVec 64} (h : S390Tables B m' root)
    (hpte : getPte root va m = (offset pte t va, m'))
    (ht : radix.table (B.view m'.mem) (root, 0) va 4 = some (t, 0)) :
    (setPte root val va m).2 = m'.store (offset pte t va) val := by
  unfold setPte
  rw [hpte]
  dsimp only
  split_ifs
  · rfl
  · rw [h.ipte_eq ht]
    unfold S390Machine.store
    rw [Function.update_idem]

theorem served_of_setPte {val : BitVec 64} (h : (setPte root val va m).2.denied = false) :
    (getPte root va m).2.denied = false := by
  unfold setPte ipte at h
  dsimp only at h
  split_ifs at h <;> exact h

/-- `set_pte` changes the entry of its page only. -/
theorem S390Tables.setPte_spec {val : BitVec 64} (h : S390Tables B m root)
    (hden : (setPte root val va m).2.denied = false) :
    S390Tables B (setPte root val va m).2 root ∧
      ∀ v, B.pteVal (setPte root val va m).2.mem root v =
        if page va = page v then val else B.pteVal m.mem root v := by
  obtain ⟨t, m', heq, h', ht, hpte⟩ := h.getPte_spec (served_of_setPte hden)
  obtain ⟨htables, hplant⟩ := h'.plant ht (e := val)
  rw [h'.setPte_eq heq ht]
  refine ⟨htables, fun v => ?_⟩
  rw [hplant, hpte]

/-- `install_page` changes the walks of its page only. -/
theorem S390Tables.installPage_spec {phys : BitVec 64} (h : S390Tables B m root)
    (hphys : page phys = phys) (hden : (installPage root phys va m).2.denied = false) :
    S390Tables B (installPage root phys va m).2 root ∧
      ∀ v, B.walk (installPage root phys va m).2.mem root v =
        if page va = page v then some phys else B.walk m.mem root v := by
  unfold installPage at hden ⊢
  obtain ⟨htables, hpte⟩ := h.setPte_spec hden
  refine ⟨htables, fun v => ?_⟩
  rw [B.walk_eq, B.walk_eq, hpte, apply_ite frame, frame_of_page hphys]

/-- On an address that is mapped, `virt_to_pte_phys` gives what the hardware gives, and changes
nothing. -/
theorem S390Tables.virtToPtePhys_eq {phys : BitVec 64} (h : S390Tables B m root)
    (hwalk : hwWalk m.mem root va = some phys) :
    virtToPtePhys root va m = (phys + (va &&& ~~~pageMask), m) := by
  have htable := @S390Tables.hwTable_eq _ _ _ va _ h (le_refl 4)
  unfold hwWalk at hwalk
  cases ht : hwTable m.mem root va 4 with
  | none =>
    rw [ht] at hwalk
    cases hwalk
  | some t =>
    rw [ht, Option.bind_some] at hwalk
    rw [ht, Option.map_some] at htable
    unfold frame at hwalk
    split_ifs at hwalk with hnone
    unfold virtToPtePhys
    rw [h.getPte_of_table htable.symm]
    dsimp only
    rw [Option.some.inj hwalk]

/-! ## A new root -/

/-- The blocks of `alloc_pages` are aligned to their size, and have no byte in common. -/
structure Supply (m : S390Machine) : Prop where
  nodup : ∀ k, (m.blocks k).Nodup
  aligned : ∀ k, ∀ p ∈ m.blocks k, p.toNat % 2 ^ (12 + k) = 0
  disjoint : ∀ k k' p p', p ∈ m.blocks k → p' ∈ m.blocks k' → (k, p) ≠ (k', p') →
    p.toNat + 2 ^ (12 + k) ≤ p'.toNat ∨ p'.toNat + 2 ^ (12 + k') ≤ p.toNat

/-- The entries that the block at `t` has room for. -/
def Supply.capacity (m : S390Machine) (t : BitVec 64) : ℕ :=
  if t ∈ m.blocks 2 then 2048 else if t ∈ m.blocks 0 then 512 else 0

/-- The order of a block that has room. -/
theorem Supply.exists_order {i : ℕ} (hi : i < Supply.capacity m t) :
    ∃ k ≤ 2, t ∈ m.blocks k ∧ 8 * i + 8 ≤ 2 ^ (12 + k) := by
  unfold capacity at hi
  split_ifs at hi with h₂ h₀
  · exact ⟨2, le_rfl, h₂, by norm_num; omega⟩
  · exact ⟨0, by norm_num, h₀, by norm_num; omega⟩
  · exact absurd hi (Nat.not_lt_zero i)

/-- The address of an entry of a block. -/
theorem Supply.toNat_entryAddr {i k : ℕ} (h : Supply m) (hk : k ≤ 2) (ht : t ∈ m.blocks k)
    (hi : 8 * i + 8 ≤ 2 ^ (12 + k)) :
    (entryAddr t (BitVec.ofNat 64 i)).toNat = t.toNat + 8 * i := by
  have haligned := h.aligned k t ht
  have hlt := t.isLt
  rw [entryAddr_eq, BitVec.toNat_add, BitVec.toNat_ofNat, BitVec.toNat_ofNat]
  interval_cases k <;> norm_num at * <;> omega

/-- The blocks of a supply. -/
def Supply.layout (h : Supply m) : Layout where
  capacity := Supply.capacity m
  aligned {t} hpos := by
    obtain ⟨k, -, ht, -⟩ := exists_order hpos
    have haligned := h.aligned k t ht
    refine page_eq_self_iff.mpr ?_
    rw [Nat.pow_add] at haligned
    exact Nat.mod_eq_zero_of_dvd (dvd_of_mul_right_dvd (Nat.dvd_of_mod_eq_zero haligned))
  inj {t t' i i'} hi hi' heq := by
    obtain ⟨k, hk, ht, hki⟩ := exists_order hi
    obtain ⟨k', hk', ht', hki'⟩ := exists_order hi'
    have hnat := congrArg BitVec.toNat heq
    rw [h.toNat_entryAddr hk ht hki, h.toNat_entryAddr hk' ht' hki'] at hnat
    by_cases hne : (k, t) = (k', t')
    · obtain ⟨rfl, rfl⟩ := Prod.mk.inj hne
      exact ⟨rfl, by omega⟩
    · rcases h.disjoint k k' t t' ht ht' hne with hle | hle <;> omega

theorem Supply.order_unique (h : Supply m) {k k' : ℕ} (ht : t ∈ m.blocks k)
    (ht' : t ∈ m.blocks k') :
    k = k' := by
  by_contra hne
  have hpos := Nat.two_pow_pos (12 + k)
  have hpos' := Nat.two_pow_pos (12 + k')
  rcases h.disjoint k k' t t ht ht' fun heq => hne (Prod.mk.inj heq).1 with hle | hle <;> omega

/-- A block has room for the tables of its order. -/
theorem Supply.ptrs_le_capacity (ht : t ∈ m.blocks (level d).order) :
    (level d).ptrs ≤ capacity m t := by
  unfold capacity
  match d with
  | 0 | 1 | 2 | 3 => exact le_of_eq (if_pos ht).symm
  | _ + 4 =>
    change 256 ≤ _
    rw [if_pos (show t ∈ m.blocks 0 from ht)]
    split_ifs <;> norm_num

/-- A table of invalid entries is a tree without further tables, and its walks give no frame. -/
theorem S390Tables.of_bare {l : List (BitVec 64)} (h : Supply m)
    (hl : m.blocks pgd.order = root :: l)
    (hblocks : m'.blocks = Function.update m.blocks pgd.order l)
    (hnew : ∀ v, h.layout.view m'.mem (radix.slot (root, 0) (radix.index 0 v)) = pgd.empty) :
    S390Tables h.layout m' root ∧ ∀ v, h.layout.walk m'.mem root v = none := by
  have hmem : root ∈ m.blocks pgd.order := hl ▸ List.mem_cons_self
  have hbare : ∀ v, radix.next 0
      (h.layout.view m'.mem (radix.slot (root, 0) (radix.index 0 v))) = none := fun v => by
    rw [hnew]
    exact next_of_isNone (isNone_empty 0)
  have hkeep : ∀ {k q}, q ∈ m'.blocks k → q ∈ m.blocks k ∧ q ≠ root := fun hq =>
    mem_blocks h.nodup h.order_unique hl (hblocks ▸ hq)
  refine ⟨⟨radix.isTree_of_bare rfl hbare, fun ht => ?_, fun _ he => ?_, fun k => ?_,
    fun hq hq' => h.order_unique (hkeep hq).1 (hkeep hq').1, fun hq => ?_⟩, fun v => ?_⟩
  · obtain ⟨rfl, rfl⟩ := radix.table_of_bare hbare ht
    exact ⟨rfl, Supply.ptrs_le_capacity (d := 0) hmem⟩
  · obtain ⟨t, ht, rfl⟩ := Option.map_eq_some_iff.mp he
    obtain ⟨rfl, rfl⟩ := radix.table_of_bare hbare ht
    rw [hnew]
    exact Or.inl (isNone_empty 0)
  · rw [hblocks]
    exact nodup_blocks h.nodup hl k
  · refine ⟨Supply.ptrs_le_capacity (hkeep hq).1, ?_⟩
    rintro ⟨v, d, ht⟩
    exact (hkeep hq).2 (Prod.mk.inj (radix.table_of_bare hbare ht).2).1
  · have hnone : radix.table (h.layout.view m'.mem) (root, 0) v 4 = none := by
      refine Radix.Ends.table_eq_none radix (d := 0) ⟨rfl, hbare v⟩ (by norm_num)
    unfold Layout.walk
    rw [Radix.entry, hnone]
    rfl

/-- `pgd_alloc_one` makes such a table. -/
theorem allocRoot_spec (h : Supply m) (halloc : allocOne pgd m = (root, m'))
    (hden : m'.denied = false) :
    S390Tables h.layout m' root ∧ ∀ v, h.layout.walk m'.mem root v = none := by
  unfold allocOne S390Machine.allocPages at halloc
  cases hl : m.blocks pgd.order with
  | nil =>
    rw [hl] at halloc
    obtain ⟨-, rfl⟩ := Prod.mk.inj halloc
    rw [fill_denied] at hden
    cases hden
  | cons p l =>
    rw [hl] at halloc
    obtain ⟨rfl, rfl⟩ := Prod.mk.inj halloc
    have hroom : pgd.ptrs ≤ h.layout.capacity p :=
      Supply.ptrs_le_capacity (d := 0) (hl ▸ List.mem_cons_self)
    exact S390Tables.of_bare h hl (fill_blocks _) fun v =>
      (h.layout.view_fill hroom _).trans (if_pos ⟨rfl, index_lt 0 v⟩)

end Walk

end S390

end AcrnUt
