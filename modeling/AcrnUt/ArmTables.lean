import AcrnUt.ArmMmu

/-!
# The ARM tables as a tree

The tables of a build are a radix tree (`ArmArch.radix`) whose first level may hold sections, and
`ArmTables` is the invariant of the code that builds them : the entries of the upper levels are
empty or lead on, or are sections at the PGDIR entries `S`.

`hwLeaf` is the descriptor at which the walk of the hardware ends. A new table changes no leaf
(`ArmTables.getPte_spec`), and a store of `install_pte` those of one page
(`ArmTables.hwLeaf_plant`).
-/

set_option linter.unusedSectionVars false

namespace AcrnUt

namespace ArmArch

variable (C : ArmArch)

/-! ## Words -/

theorem toNat_tableIndex {shift bits : ℕ} (hbits : bits < 64) (addr : BitVec 64) :
    (tableIndex shift bits addr).toNat = addr.toNat / 2 ^ shift % 2 ^ bits := by
  unfold tableIndex
  rw [toNat_and_mask _ hbits, BitVec.toNat_ushiftRight, Nat.shiftRight_eq_div_pow]

/-- The page of an address. -/
def page (a : BitVec 64) : BitVec 64 :=
  a &&& C.pageMaskS32

theorem pageShift_lt : C.pageShift < 64 := by
  cases C <;> decide

theorem toNat_page (a : BitVec 64) :
    (C.page a).toNat = a.toNat / 2 ^ C.pageShift * 2 ^ C.pageShift :=
  toNat_and_not_mask a C.pageShift_lt

theorem page_page (a : BitVec 64) : C.page (C.page a) = C.page a := by
  unfold page
  rw [BitVec.and_assoc, BitVec.and_self]

theorem page_eq_self_iff {a : BitVec 64} : C.page a = a ↔ a.toNat % 2 ^ C.pageShift = 0 := by
  rw [← BitVec.toNat_inj, toNat_page]
  have := Nat.div_add_mod' a.toNat (2 ^ C.pageShift)
  omega

/-- The entries of a table lie in its page. -/
theorem page_entryAddr {t : BitVec 64} (ht : C.page t = t) {i : BitVec 64}
    (hi : i.toNat < 2 ^ C.pteBits) : C.page (entryAddr t i) = t := by
  have halign := C.page_eq_self_iff.mp ht
  have hlt := t.isLt
  refine BitVec.eq_of_toNat_eq ?_
  rw [toNat_page, entryAddr_eq, BitVec.toNat_add, BitVec.toNat_ofNat]
  cases C <;> simp only [pageShift, pteBits] at * <;> omega

/-- Different entries of a table have different addresses. -/
theorem entryAddr_inj {t i j : BitVec 64} (hi : i.toNat < 2 ^ C.pteBits)
    (hj : j.toNat < 2 ^ C.pteBits) (h : entryAddr t i = entryAddr t j) : i = j := by
  rw [entryAddr_eq, entryAddr_eq, BitVec.add_right_inj] at h
  have h' := congrArg BitVec.toNat h
  rw [BitVec.toNat_ofNat, BitVec.toNat_ofNat] at h'
  refine BitVec.eq_of_toNat_eq ?_
  cases C <;> simp only [pteBits] at * <;> omega

/-- The depth of the last level. -/
def leaf : ArmArch → ℕ
  | arm => 2
  | arm64 => 1

/-- The entry that an address selects at a depth. -/
def depthIndex (d : ℕ) (va : BitVec 64) : BitVec 64 :=
  match C, d with
  | _, 0 => C.pgdIndex va
  | arm, 1 => pmdIndex arm va
  | arm, _ + 2 => pteIndex arm va
  | arm64, _ + 1 => pteIndex arm64 va

theorem toNat_depthIndex_lt (d : ℕ) (va : BitVec 64) :
    (C.depthIndex d va).toNat < 2 ^ C.pteBits := by
  have h : ∀ shift bits, bits ≤ C.pteBits → bits < 64 →
      (tableIndex shift bits va).toNat < 2 ^ C.pteBits := by
    intro shift bits hle hbits
    rw [toNat_tableIndex hbits]
    exact lt_of_lt_of_le (Nat.mod_lt _ (Nat.two_pow_pos _)) (Nat.pow_le_pow_right two_pos hle)
  match C, d with
  | arm, 0 => exact h (pgdirShift arm) (pgdBits arm) (by decide) (by decide)
  | arm64, 0 => exact h (pgdirShift arm64) (pgdBits arm64) (by decide) (by decide)
  | arm, 1 => exact h (pmdShift arm) (pmdBits arm) (by decide) (by decide)
  | arm, d + 2 => exact h (pageShift arm) (pteBits arm) (by decide) (by decide)
  | arm64, 1 => exact h (pageShift arm64) (pteBits arm64) (by decide) (by decide)
  | arm64, d + 2 => exact h (pageShift arm64) (pteBits arm64) (by decide) (by decide)

/-- The table that an entry leads to. -/
def next (d : ℕ) (e : BitVec 64) : Option (BitVec 64) :=
  if d < C.leaf ∧ e &&& 3 = pmdTypeTable then some (C.hwTable e) else none

/-- The tables of a build. -/
def radix : Radix (BitVec 64) (BitVec 64) (BitVec 64) where
  index d va := (C.depthIndex d va).toNat
  slot t i := entryAddr t (BitVec.ofNat 64 i)
  page := C.page
  next := C.next
  page_slot d va ht := by
    rw [BitVec.ofNat_toNat, BitVec.setWidth_eq]
    exact C.page_entryAddr ht (C.toNat_depthIndex_lt d va)
  slot_inj {t d v v'} h := by
    rw [BitVec.ofNat_toNat, BitVec.setWidth_eq, BitVec.ofNat_toNat, BitVec.setWidth_eq] at h
    exact congrArg BitVec.toNat
      (C.entryAddr_inj (C.toNat_depthIndex_lt d v) (C.toNat_depthIndex_lt d v') h)
  page_next {d e t} h := by
    unfold next at h
    split_ifs at h
    cases h
    exact C.page_page _

theorem radix_slot (t : BitVec 64) (d : ℕ) (va : BitVec 64) :
    C.radix.slot t (C.radix.index d va) = entryAddr t (C.depthIndex d va) := by
  change entryAddr t (BitVec.ofNat 64 (C.depthIndex d va).toNat) = _
  rw [BitVec.ofNat_toNat, BitVec.setWidth_eq]

/-- A page that a table entry and a pointer can hold. -/
structure GoodPage (p : BitVec 64) : Prop where
  aligned : C.page p = p
  phys : p &&& C.physMask = p
  ulong : C.ulong p = p

variable {C}

theorem and_ulong (x y : BitVec 64) : x &&& C.ulong y = C.ulong (x &&& y) := by
  unfold ulong
  ext i hi
  simp only [BitVec.getElem_and, BitVec.getElem_setWidth, BitVec.getLsbD_setWidth,
    BitVec.getLsbD_and]
  rw [← BitVec.getLsbD_eq_getElem hi, Bool.and_left_comm]

theorem toNat_ulong (x : BitVec 64) : (C.ulong x).toNat = x.toNat % 2 ^ C.ulongBits := by
  unfold ulong
  rw [BitVec.toNat_setWidth, BitVec.toNat_setWidth]
  refine Nat.mod_eq_of_lt ((Nat.mod_lt _ (Nat.two_pow_pos _)).trans_le ?_)
  exact Nat.pow_le_pow_right two_pos (by cases C <;> decide)

theorem ulong_eq_self_iff {x : BitVec 64} : C.ulong x = x ↔ x.toNat < 2 ^ C.ulongBits := by
  rw [← BitVec.toNat_inj, toNat_ulong]
  exact Nat.mod_eq_iff_lt (Nat.two_pow_pos _).ne'

theorem GoodPage.hwTable_link {p : BitVec 64} (h : C.GoodPage p) :
    C.hwTable (p ||| pmdTypeTable) = p := by
  have hlow : pmdTypeTable &&& C.physMask &&& C.pageMaskS32 = 0 := by
    cases C <;> decide
  have hp : p &&& C.physMask &&& C.pageMaskS32 = p := by
    rw [h.phys]
    exact h.aligned
  unfold hwTable
  rw [BitVec.and_or_distrib_right, BitVec.and_or_distrib_right, hp, hlow]
  exact BitVec.or_zero

theorem link_type (p : BitVec 64) : (p ||| pmdTypeTable) &&& 3 = pmdTypeTable := by
  unfold pmdTypeTable
  ext i hi
  rw [BitVec.getElem_and, BitVec.getElem_or]
  cases p[i] <;> simp

theorem pageVaddr_eq (e : BitVec 64) : C.pageVaddr e = C.ulong (C.hwTable e) :=
  rfl

/-! ## The invariant -/

variable (C) in
/-- The tables in memory, and the fresh pages. Sections lie only at the PGDIR entries `S`. -/
structure ArmTables (S : Set (BitVec 64)) (m : ArmMachine) (root : BitVec 64) : Prop where
  stock : C.radix.Stock m.mem root m.pages
  good : ∀ p ∈ m.pages, C.GoodPage p
  linked : ∀ {va d t}, C.radix.table m.mem root va (d + 1) = some t → C.GoodPage t
  upper : ∀ {va d e}, d < C.leaf → C.radix.entry m.mem root va d = some e →
    e = 0 ∨ e &&& 3 = pmdTypeTable ∨ d = 0 ∧ e &&& 3 = pmdTypeSect ∧ C.pgdIndex va ∈ S

section Walk

variable {S : Set (BitVec 64)} {m : ArmMachine} {root t va slot index e : BitVec 64} {d : ℕ}

/-- What was served in the end was served before. -/
theorem served_of_allocPage (h : m.allocPage.2.denied = false) : m.denied = false := by
  unfold ArmMachine.allocPage at h
  cases hpages : m.pages with
  | nil =>
    rw [hpages] at h
    cases h
  | cons p pages =>
    rw [hpages] at h
    exact h

theorem served_of_tableAlloc (h : (C.tableAlloc slot index m).2.denied = false) :
    m.denied = false := by
  unfold tableAlloc at h
  split_ifs at h
  · exact served_of_allocPage h
  · exact h

theorem entry_of_table (ht : C.radix.table m.mem root va d = some t) :
    C.radix.entry m.mem root va d = some (m.mem (entryAddr t (C.depthIndex d va))) := by
  rw [Radix.entry, ht, Option.map_some, radix_slot]

/-- An entry of the upper levels is empty, or leads on, or is a section. -/
theorem next_of_table (hd : d < C.leaf) (he : e &&& 3 = pmdTypeTable) :
    C.radix.next d e = some (C.hwTable e) :=
  if_pos ⟨hd, he⟩

theorem type_of_next (h : C.radix.next d e = some t) :
    e &&& 3 = pmdTypeTable ∧ C.hwTable e = t := by
  change (if _ then _ else _) = _ at h
  split_ifs at h with hc
  exact ⟨hc.2, Option.some.inj h⟩

theorem next_zero (d : ℕ) : C.radix.next d 0 = none :=
  if_neg fun h => absurd h.2 (by decide)

theorem table_next (ht : C.radix.table m.mem root va d = some t) (hd : d < C.leaf)
    (htype : m.mem (entryAddr t (C.depthIndex d va)) &&& 3 = pmdTypeTable) :
    C.radix.table m.mem root va (d + 1) =
      some (C.hwTable (m.mem (entryAddr t (C.depthIndex d va)))) := by
  rw [Radix.table_succ, entry_of_table ht, Option.bind_some, next_of_table hd htype]

/-! ## Leaves -/

theorem low_cases (e : BitVec 64) : e &&& 3 = 0 ∨ e &&& 3 = 1 ∨ e &&& 3 = 2 ∨ e &&& 3 = 3 := by
  have h : (e &&& 3).toNat = e.toNat % 4 := by
    rw [BitVec.toNat_and]
    exact Nat.and_two_pow_sub_one_eq_mod e.toNat 2
  simp only [← BitVec.toNat_inj, h]
  have := Nat.mod_lt e.toNat (show 0 < 4 by norm_num)
  change _ = 0 ∨ _ = 1 ∨ _ = 2 ∨ _ = 3
  omega

theorem and_one_eq (e : BitVec 64) : e &&& 1 = e &&& 3 &&& 1 := by
  rw [BitVec.and_assoc]
  rfl

theorem and_two_eq (e : BitVec 64) : e &&& 2 = e &&& 3 &&& 2 := by
  rw [BitVec.and_assoc]
  rfl

/-- An entry that is neither empty nor a section, for the hardware, is a table. -/
theorem type_cases (e : BitVec 64) :
    e &&& 1 = 0 ∨ e &&& 3 = pmdTypeSect ∧ e &&& 1 ≠ 0 ∧ e &&& 2 = 0 ∨
      e &&& 3 = pmdTypeTable ∧ e &&& 1 ≠ 0 ∧ e &&& 2 ≠ 0 := by
  rw [and_one_eq, and_two_eq]
  rcases low_cases e with h | h | h | h <;> rw [h] <;> decide

/-- The last level : pages. -/
def hwPteLeaf (C : ArmArch) (cells : BitVec 64 → BitVec 64) (table va : BitVec 64) :
    Option (ℕ × BitVec 64) :=
  let e := cells (entryAddr table (C.pteIndex va))
  if e &&& 3 = 3 then some (C.pageShift, e) else none

/-- The middle level of the 32-bit build : blocks and tables. -/
def hwPmdLeaf (C : ArmArch) (cells : BitVec 64 → BitVec 64) (table va : BitVec 64) :
    Option (ℕ × BitVec 64) :=
  let e := cells (entryAddr table (C.pmdIndex va))
  if e &&& 1 = 0 then none
  else if e &&& 2 = 0 then some (C.pmdShift, e)
  else C.hwPteLeaf cells (C.hwTable e) va

/-- The descriptor at which the walk of the hardware ends, which maps `2^shift` bytes. -/
def hwLeaf (C : ArmArch) (cells : BitVec 64 → BitVec 64) (root va : BitVec 64) :
    Option (ℕ × BitVec 64) :=
  let e := cells (C.pgdOffset root va)
  if 2 ^ (C.pgdirShift + C.pgdBits) ≤ va.toNat then none
  else if e &&& 1 = 0 then none
  else if e &&& 2 = 0 then some (C.pgdirShift, e)
  else
    match C with
    | arm => hwPmdLeaf arm cells (hwTable arm e) va
    | arm64 => hwPteLeaf arm64 cells (hwTable arm64 e) va

/-- The walk gives the address that its leaf gives. -/
theorem hwWalk_eq (cells : BitVec 64 → BitVec 64) :
    C.hwWalk cells root va = (C.hwLeaf cells root va).map fun l => C.output l.1 l.2 va := by
  have hpte : ∀ (C : ArmArch) table, C.hwPte cells table va =
      (C.hwPteLeaf cells table va).map fun l => C.output l.1 l.2 va := fun C table => by
    unfold hwPte hwPteLeaf
    dsimp only
    split_ifs <;> rfl
  unfold hwWalk hwLeaf
  dsimp only
  split_ifs
  · rfl
  · rfl
  · rfl
  · cases C with
    | arm =>
      unfold hwPmd hwPmdLeaf
      dsimp only
      split_ifs
      · rfl
      · rfl
      · exact hpte _ _
    | arm64 => exact hpte _ _

/-- What the hardware makes of the entry at which a walk through the tables ends. -/
def leafOf (C : ArmArch) (d : ℕ) (e : BitVec 64) : Option (ℕ × BitVec 64) :=
  if d = 0 ∧ e &&& 3 = pmdTypeSect then some (C.pgdirShift, e)
  else if d = C.leaf ∧ e &&& 3 = pteTypePage then some (C.pageShift, e)
  else none

theorem leafOf_zero (d : ℕ) : C.leafOf d 0 = none := by
  unfold leafOf
  rw [if_neg fun h => absurd h.2 (by decide), if_neg fun h => absurd h.2 (by decide)]

theorem leaf_pos : 0 < C.leaf := by
  cases C <;> decide

/-- At the last level every walk ends. -/
theorem ends_leaf (ht : C.radix.table m.mem root va C.leaf = some t) :
    C.radix.Ends m.mem root va C.leaf (m.mem (entryAddr t (C.depthIndex C.leaf va))) ∧
      C.hwPteLeaf m.mem t va =
        C.leafOf C.leaf (m.mem (entryAddr t (C.depthIndex C.leaf va))) := by
  refine ⟨⟨entry_of_table ht, if_neg fun h => absurd h.1 (lt_irrefl _)⟩, ?_⟩
  have hindex : C.depthIndex C.leaf va = C.pteIndex va := by cases C <;> rfl
  have hleaf : ∀ e : BitVec 64, ¬(C.leaf = 0 ∧ e &&& 3 = pmdTypeSect) := fun e h =>
    leaf_pos.ne' h.1
  unfold hwPteLeaf leafOf
  rw [hindex, if_neg (hleaf _)]
  exact if_congr (and_iff_right rfl).symm rfl rfl

/-- A walk that reaches the middle level ends there or at the last one. -/
theorem ArmTables.exists_leaf_pmd {m : ArmMachine} (h : ArmTables arm S m root)
    (ht : (radix arm).table m.mem root va 1 = some t) :
    ∃ d e, (radix arm).Ends m.mem root va d e ∧ hwPmdLeaf arm m.mem t va = leafOf arm d e := by
  have hupper : m.mem (entryAddr t (pmdIndex arm va)) = 0 ∨
      m.mem (entryAddr t (pmdIndex arm va)) &&& 3 = pmdTypeTable := by
    rcases h.upper (by decide) (entry_of_table ht) with h0 | htype | ⟨hd, -⟩
    · exact Or.inl h0
    · exact Or.inr htype
    · exact absurd hd (by decide)
  unfold hwPmdLeaf
  dsimp only
  rcases hupper with h0 | htype
  · refine ⟨1, 0, ⟨?_, next_zero 1⟩, ?_⟩
    · exact (entry_of_table ht).trans (congrArg some h0)
    · rw [h0, leafOf_zero]
      rfl
  · obtain ⟨hends, hleaf⟩ := ends_leaf (table_next ht (by decide) htype)
    refine ⟨2, _, hends, ?_⟩
    rw [and_one_eq, and_two_eq, htype, if_neg (by decide), if_neg (by decide)]
    exact hleaf

/-- Every walk ends, and the hardware takes its leaf from there. -/
theorem ArmTables.exists_leaf (h : C.ArmTables S m root) (va : BitVec 64) :
    ∃ d e, C.radix.Ends m.mem root va d e ∧ (va.toNat < 2 ^ (C.pgdirShift + C.pgdBits) →
      C.hwLeaf m.mem root va = C.leafOf d e) := by
  have hfirst : C.radix.entry m.mem root va 0 = some (m.mem (C.pgdOffset root va)) :=
    entry_of_table rfl
  unfold hwLeaf
  dsimp only
  rcases type_cases (m.mem (C.pgdOffset root va)) with h1 | ⟨hs, h1, h2⟩ | ⟨htype, h1, h2⟩
  · have hne : m.mem (C.pgdOffset root va) &&& 3 ≠ pmdTypeTable ∧
        m.mem (C.pgdOffset root va) &&& 3 ≠ pmdTypeSect := by
      rw [and_one_eq] at h1
      constructor <;> intro h3 <;> rw [h3] at h1 <;> exact absurd h1 (by decide)
    refine ⟨0, _, ⟨hfirst, if_neg fun hc => hne.1 hc.2⟩, fun hva => ?_⟩
    unfold leafOf
    rw [if_neg (not_le.mpr hva), if_pos h1, if_neg fun hc => hne.2 hc.2,
      if_neg fun hc => leaf_pos.ne hc.1]
  · have hne : m.mem (C.pgdOffset root va) &&& 3 ≠ pmdTypeTable := by
      rw [hs]
      decide
    refine ⟨0, _, ⟨hfirst, if_neg fun hc => hne hc.2⟩, fun hva => ?_⟩
    unfold leafOf
    rw [if_neg (not_le.mpr hva), if_neg h1, if_pos h2, if_pos ⟨rfl, hs⟩]
  · have ht : C.radix.table m.mem root va 1 = some (C.hwTable (m.mem (C.pgdOffset root va))) :=
      table_next (d := 0) rfl leaf_pos htype
    cases C with
    | arm =>
      obtain ⟨d, e, hends, hleaf⟩ := h.exists_leaf_pmd ht
      refine ⟨d, e, hends, fun hva => ?_⟩
      rw [if_neg (not_le.mpr hva), if_neg h1, if_neg h2]
      exact hleaf
    | arm64 =>
      obtain ⟨hends, hleaf⟩ := ends_leaf ht
      refine ⟨1, _, hends, fun hva => ?_⟩
      rw [if_neg (not_le.mpr hva), if_neg h1, if_neg h2]
      exact hleaf

theorem hwLeaf_of_le {cells : BitVec 64 → BitVec 64}
    (hva : 2 ^ (C.pgdirShift + C.pgdBits) ≤ va.toNat) : C.hwLeaf cells root va = none :=
  if_pos hva

theorem ArmTables.hwLeaf_of_ends (h : C.ArmTables S m root)
    (hva : va.toNat < 2 ^ (C.pgdirShift + C.pgdBits)) (hends : C.radix.Ends m.mem root va d e) :
    C.hwLeaf m.mem root va = C.leafOf d e := by
  obtain ⟨d', e', hends', hleaf⟩ := h.exists_leaf va
  obtain ⟨rfl, rfl⟩ := hends.unique _ hends'
  exact hleaf hva

/-- A new table of empty entries, linked into an empty entry, changes no leaf. -/
theorem hwLeaf_graft {m' : ArmMachine} {p : BitVec 64} (h : C.ArmTables S m root)
    (h' : C.ArmTables S m' root)
    (g : C.radix.Graft m.mem m'.mem root va d t p (p ||| pmdTypeTable))
    (h0 : m.mem (entryAddr t (C.depthIndex d va)) = 0)
    (hbare : ∀ v, m'.mem (C.radix.slot p (C.radix.index (d + 1) v)) = 0) (v : BitVec 64) :
    C.hwLeaf m'.mem root v = C.hwLeaf m.mem root v := by
  rcases Nat.lt_or_ge v.toNat (2 ^ (C.pgdirShift + C.pgdBits)) with hv | hv
  · by_cases hagree : C.radix.Agree (d + 1) va v
    · have hbefore := g.ends hagree
      have hafter := g.ends_new hagree
      rw [radix_slot, h0] at hbefore
      rw [hbare] at hafter
      rw [h.hwLeaf_of_ends hv hbefore, h'.hwLeaf_of_ends hv hafter, leafOf_zero, leafOf_zero]
    · obtain ⟨d', e', hends, hleaf⟩ := h.exists_leaf v
      rw [hleaf hv]
      exact h'.hwLeaf_of_ends hv ⟨(g.entry_old hagree).trans hends.1, hends.2⟩
  · rw [hwLeaf_of_le hv, hwLeaf_of_le hv]

/-- An entry that points to a table points there for the code. -/
theorem ArmTables.tableAlloc_of_table (h : C.ArmTables S m root)
    (ht : C.radix.table m.mem root va d = some t) (hd : d < C.leaf)
    (he : m.mem (entryAddr t (C.depthIndex d va)) &&& 3 = pmdTypeTable) (index : BitVec 64) :
    ∃ t', C.radix.table m.mem root va (d + 1) = some t' ∧
      t' = C.hwTable (m.mem (entryAddr t (C.depthIndex d va))) ∧
      C.tableAlloc (entryAddr t (C.depthIndex d va)) index m = (entryAddr t' index, m) := by
  have htable : C.radix.table m.mem root va (d + 1) =
      some (C.hwTable (m.mem (entryAddr t (C.depthIndex d va)))) := by
    rw [Radix.table_succ, entry_of_table ht, Option.bind_some, next_of_table hd he]
  refine ⟨_, htable, rfl, ?_⟩
  have hne : ¬m.mem (entryAddr t (C.depthIndex d va)) = 0 := by
    intro h0
    rw [h0] at he
    exact absurd he (by decide)
  unfold tableAlloc
  rw [if_neg hne, pageVaddr_eq, (h.linked htable).ulong]

/-- A cleared page, linked into an empty entry of the upper levels, is a graft. -/
theorem ArmTables.graft {p : BitVec 64} {l : List (BitVec 64)} (h : C.ArmTables S m root)
    (hl : m.pages = p :: l) (ht : C.radix.table m.mem root va d = some t) (hd : d < C.leaf)
    (h0 : m.mem (entryAddr t (C.depthIndex d va)) = 0) :
    C.radix.Graft m.mem ((m.clearPage C p).store (entryAddr t (C.depthIndex d va))
      (p ||| pmdTypeTable)).mem root va d t p (p ||| pmdTypeTable) := by
  have hmem : p ∈ m.pages := hl ▸ List.mem_cons_self ..
  have hp : C.radix.page p = p := (h.good p hmem).aligned
  unfold ArmMachine.store ArmMachine.clearPage
  rw [← radix_slot]
  refine Radix.Graft.of_clear h.stock.tree ht ?_ hp (h.stock.fresh p hmem) ?_
    (fun a ha => if_neg ha) fun v => ?_
  · rw [radix_slot, h0]
    exact next_zero d
  · rw [next_of_table hd (link_type p), (h.good p hmem).hwTable_link]
  · have hin : C.radix.page (C.radix.slot p (C.radix.index (d + 1) v)) = p :=
      C.radix.page_slot (d + 1) v hp
    change C.radix.next (d + 1) (if C.radix.page _ = p then 0 else m.mem _) = none
    rw [if_pos hin]
    exact next_zero (d + 1)

/-- A graft keeps the invariant. -/
theorem ArmTables.graft_tables {p : BitVec 64} {l : List (BitVec 64)} {m' : ArmMachine}
    (h : C.ArmTables S m root) (hl : m.pages = p :: l) (hl' : m'.pages = l)
    (hbare : ∀ v, m'.mem (C.radix.slot p (C.radix.index (d + 1) v)) = 0)
    (g : C.radix.Graft m.mem m'.mem root va d t p (p ||| pmdTypeTable)) :
    C.ArmTables S m' root where
  stock := by
    rw [hl']
    exact Radix.Stock.graft (hl ▸ h.stock) g
  good q hq := h.good q (hl ▸ List.mem_cons_of_mem p (hl' ▸ hq))
  linked ht := by
    rcases g.table_cases ht with ⟨-, -, rfl⟩ | ht
    · exact h.good _ (hl ▸ List.mem_cons_self ..)
    · exact h.linked ht
  upper hd he := by
    rcases g.entry_cases he with he | ⟨-, ⟨-, rfl⟩ | ⟨-, rfl⟩⟩
    · exact h.upper hd he
    · exact Or.inr (Or.inl (link_type p))
    · exact Or.inl (hbare _)

/-- `pmd_alloc` and `pte_alloc` go one table down, and make it if it is missing. -/
theorem ArmTables.tableAlloc_spec (h : C.ArmTables S m root)
    (ht : C.radix.table m.mem root va d = some t) (hd : d < C.leaf)
    (hsect : d = 0 → C.pgdIndex va ∉ S) (index : BitVec 64)
    (hden : (C.tableAlloc (entryAddr t (C.depthIndex d va)) index m).2.denied = false) :
    ∃ t' m', C.tableAlloc (entryAddr t (C.depthIndex d va)) index m = (entryAddr t' index, m') ∧
      C.ArmTables S m' root ∧ C.radix.table m'.mem root va (d + 1) = some t' ∧
      ∀ v, C.hwLeaf m'.mem root v = C.hwLeaf m.mem root v := by
  rcases h.upper hd (entry_of_table ht) with h0 | htype | ⟨rfl, -, hmem⟩
  · unfold tableAlloc at hden ⊢
    rw [if_pos h0] at hden ⊢
    unfold ArmMachine.allocPage at hden ⊢
    cases hl : m.pages with
    | nil =>
      rw [hl] at hden
      exact absurd hden (by simp [ArmMachine.store, ArmMachine.clearPage])
    | cons p l =>
      have hgood := h.good p (hl ▸ List.mem_cons_self ..)
      have g := h.graft hl ht hd h0
      have hlink : C.pageVaddr (p ||| pmdTypeTable) = p := by
        rw [pageVaddr_eq, hgood.hwTable_link, hgood.ulong]
      let m' := (({ m with pages := l } : ArmMachine).clearPage C p).store
        (entryAddr t (C.depthIndex d va)) (p ||| pmdTypeTable)
      have hbare : ∀ v, m'.mem (C.radix.slot p (C.radix.index (d + 1) v)) = 0 := by
        intro v
        have hzero : C.radix.page (C.radix.slot p (C.radix.index (d + 1) v)) = p :=
          C.radix.page_slot (d + 1) v hgood.aligned
        have hne : C.radix.slot p (C.radix.index (d + 1) v) ≠
            entryAddr t (C.depthIndex d va) := by
          intro hs
          refine g.page_slot_ne ?_
          rw [radix_slot, ← hs, hzero]
        exact (Function.update_of_ne hne _ _).trans (if_pos hzero)
      have h' : C.ArmTables S m' root := h.graft_tables hl rfl hbare g
      refine ⟨p, m', ?_, h', g.table_new fun _ _ => rfl, hwLeaf_graft h h' g h0 hbare⟩
      simp only [hgood.ulong, ArmMachine.store, Function.update_self, hlink]
      rfl
  · obtain ⟨t', ht', -, hrun⟩ := h.tableAlloc_of_table ht hd htype index
    exact ⟨t', m, hrun, h, ht', fun _ => rfl⟩
  · exact absurd hmem (hsect rfl)

/-! ## The walk of the code -/

/-- `get_pte`, down to the table of the last level. -/
theorem getPte_eq : C.getPte root va m =
    match C with
    | arm =>
      let pmd := tableAlloc arm (entryAddr root (depthIndex arm 0 va)) (depthIndex arm 1 va) m
      tableAlloc arm pmd.1 (depthIndex arm 2 va) pmd.2
    | arm64 =>
      tableAlloc arm64 (entryAddr root (depthIndex arm64 0 va)) (depthIndex arm64 1 va) m := by
  cases C <;> rfl

theorem served_of_getPte (h : (C.getPte root va m).2.denied = false) : m.denied = false := by
  rw [getPte_eq] at h
  cases C
  · exact served_of_tableAlloc (served_of_tableAlloc h)
  · exact served_of_tableAlloc h

/-- On an address off the sections, `get_pte` gives an entry of the last level, and changes no
leaf. -/
theorem ArmTables.getPte_spec (h : C.ArmTables S m root) (hva : C.pgdIndex va ∉ S)
    (hden : (C.getPte root va m).2.denied = false) :
    ∃ t m', C.getPte root va m = (entryAddr t (C.depthIndex C.leaf va), m') ∧
      C.ArmTables S m' root ∧ C.radix.table m'.mem root va C.leaf = some t ∧
      ∀ v, C.hwLeaf m'.mem root v = C.hwLeaf m.mem root v := by
  rw [getPte_eq] at hden ⊢
  cases C with
  | arm =>
    have hden₁ : (tableAlloc arm (entryAddr root (depthIndex arm 0 va))
        (depthIndex arm 1 va) m).2.denied = false := served_of_tableAlloc hden
    obtain ⟨t₁, m₁, heq₁, h₁, ht₁, hleaf₁⟩ := h.tableAlloc_spec rfl (by decide)
      (fun _ => hva) _ hden₁
    simp only [heq₁] at hden ⊢
    obtain ⟨t₂, m₂, heq₂, h₂, ht₂, hleaf₂⟩ :=
      h₁.tableAlloc_spec ht₁ (by decide) (fun hd => absurd hd (by decide)) _ hden
    exact ⟨t₂, m₂, heq₂, h₂, ht₂, fun v => (hleaf₂ v).trans (hleaf₁ v)⟩
  | arm64 => exact h.tableAlloc_spec rfl (by decide) (fun _ => hva) _ hden

/-- Where the tables lead to the last level, `get_pte` follows them and changes nothing. -/
theorem ArmTables.getPte_of_table (h : C.ArmTables S m root)
    (ht : C.radix.table m.mem root va C.leaf = some t) :
    C.getPte root va m = (entryAddr t (C.depthIndex C.leaf va), m) := by
  have hstep : ∀ {d t'}, d < C.leaf → C.radix.table m.mem root va (d + 1) = some t' →
      ∃ t, C.radix.table m.mem root va d = some t ∧ ∀ index,
        C.tableAlloc (entryAddr t (C.depthIndex d va)) index m = (entryAddr t' index, m) := by
    intro d t' hd ht'
    obtain ⟨t, ht, hnext⟩ := C.radix.exists_table_of_succ ht'
    refine ⟨t, ht, fun index => ?_⟩
    rw [radix_slot] at hnext
    obtain ⟨t'', ht'', -, hrun⟩ := h.tableAlloc_of_table ht hd (type_of_next hnext).1 index
    rw [ht'] at ht''
    rw [hrun, Option.some.inj ht'']
  rw [getPte_eq]
  cases C with
  | arm =>
    obtain ⟨t₁, ht₁, hrun₁⟩ := hstep (d := 1) (by decide) ht
    obtain ⟨t₀, ht₀, hrun₀⟩ := hstep (d := 0) (by decide) ht₁
    cases ht₀
    simp only [hrun₀, hrun₁]
    rfl
  | arm64 =>
    obtain ⟨t₀, ht₀, hrun₀⟩ := hstep (d := 0) (by decide) ht
    cases ht₀
    exact hrun₀ _

/-! ## Building the tables -/

/-- A write of an entry that leads nowhere keeps the tables, if it is of the last level or a
section of a PGDIR entry in `S`. -/
theorem ArmTables.plant (h : C.ArmTables S m root) (ht : C.radix.table m.mem root va d = some t)
    (hnext : C.radix.next d e = none)
    (he : d < C.leaf → d = 0 ∧ e &&& 3 = pmdTypeSect ∧ C.pgdIndex va ∈ S) :
    C.ArmTables S (m.store (entryAddr t (C.depthIndex d va)) e) root := by
  unfold ArmMachine.store
  rw [← radix_slot]
  refine ⟨h.stock.plant ht hnext, h.good, fun ht' => ?_, fun hd he' => ?_⟩
  · exact h.linked (h.stock.tree.table_plant_cases ht hnext ht').1
  · rcases h.stock.tree.entry_plant_cases ht hnext he' with he' | ⟨rfl, hagree, rfl⟩
    · exact h.upper hd he'
    · obtain ⟨rfl, htype, hmem⟩ := he hd
      have hindex : C.pgdIndex va = C.pgdIndex _ := BitVec.eq_of_toNat_eq (hagree 0 Nat.one_pos)
      exact Or.inr (Or.inr ⟨rfl, htype, hindex ▸ hmem⟩)

/-- The digit of an address that the index of a level is. -/
theorem index_eq_iff {v : BitVec 64} {shift bits : ℕ} (hbits : bits < 64)
    (htable : ∀ a, C.depthIndex d a = tableIndex shift bits a) :
    C.radix.index d va = C.radix.index d v ↔
      va.toNat / 2 ^ shift % 2 ^ bits = v.toNat / 2 ^ shift % 2 ^ bits := by
  change (C.depthIndex d va).toNat = (C.depthIndex d v).toNat ↔ _
  rw [htable, htable, toNat_tableIndex hbits, toNat_tableIndex hbits]

/-- Two addresses of the address space select the same entries if they lie in one page. -/
theorem agree_leaf_iff {v : BitVec 64} (hva : va.toNat < 2 ^ (C.pgdirShift + C.pgdBits))
    (hv : v.toNat < 2 ^ (C.pgdirShift + C.pgdBits)) :
    C.radix.Agree (C.leaf + 1) va v ↔ C.page va = C.page v := by
  rw [← BitVec.toNat_inj, toNat_page, toNat_page, Nat.mul_left_inj (Nat.two_pow_pos _).ne']
  have htop := (Nat.div_eq_of_lt hva).trans (Nat.div_eq_of_lt hv).symm
  have hdiv : ∀ {n k shift : ℕ}, k ≤ shift → n / 2 ^ shift = n / 2 ^ k / 2 ^ (shift - k) := by
    intro n k shift hle
    rw [Nat.div_div_eq_div_mul, ← pow_add, Nat.add_sub_cancel' hle]
  rw [pow_add] at htop
  cases C with
  | arm =>
    have h₀ := @index_eq_iff arm va 0 v (pgdirShift arm) (pgdBits arm) (by decide) fun _ => rfl
    have h₁ := @index_eq_iff arm va 1 v (pmdShift arm) (pmdBits arm) (by decide) fun _ => rfl
    have h₂ := @index_eq_iff arm va 2 v (pageShift arm) (pteBits arm) (by decide) fun _ => rfl
    constructor
    · intro h
      have hpgd := div_eq_of_digit htop (h₀.mp (h 0 (by decide)))
      have hpmd : va.toNat / 2 ^ 21 = v.toNat / 2 ^ 21 :=
        div_eq_of_digit hpgd (h₁.mp (h 1 (by decide)))
      exact div_eq_of_digit hpmd (h₂.mp (h 2 (by decide)))
    · intro hpage d hd
      have hd : d < 3 := hd
      interval_cases d
      · rw [h₀, hdiv (by decide : pageShift arm ≤ _), hpage, ← hdiv (by decide)]
      · rw [h₁, hdiv (by decide : pageShift arm ≤ _), hpage, ← hdiv (by decide)]
      · rw [h₂, hpage]
  | arm64 =>
    have h₀ := @index_eq_iff arm64 va 0 v (pgdirShift arm64) (pgdBits arm64) (by decide)
      fun _ => rfl
    have h₁ := @index_eq_iff arm64 va 1 v (pageShift arm64) (pteBits arm64) (by decide)
      fun _ => rfl
    constructor
    · intro h
      have hpgd := div_eq_of_digit htop (h₀.mp (h 0 (by decide)))
      exact div_eq_of_digit hpgd (h₁.mp (h 1 (by decide)))
    · intro hpage d hd
      have hd : d < 2 := hd
      interval_cases d
      · rw [h₀, hdiv (by decide : pageShift arm64 ≤ _), hpage, ← hdiv (by decide)]
      · rw [h₁, hpage]

/-- A store of a last-level entry changes the leaves of its page only. -/
theorem ArmTables.hwLeaf_plant {v : BitVec 64} (h : C.ArmTables S m root)
    (ht : C.radix.table m.mem root va C.leaf = some t)
    (hva : va.toNat < 2 ^ (C.pgdirShift + C.pgdBits))
    (hv : v.toNat < 2 ^ (C.pgdirShift + C.pgdBits)) :
    C.hwLeaf (m.store (entryAddr t (C.depthIndex C.leaf va)) e).mem root v =
      if C.page va = C.page v then C.leafOf C.leaf e else C.hwLeaf m.mem root v := by
  have hnext : C.radix.next C.leaf e = none := if_neg fun hc => absurd hc.1 (lt_irrefl _)
  have h' := h.plant ht hnext fun hd => absurd hd (lt_irrefl _)
  have hmem : (m.store (entryAddr t (C.depthIndex C.leaf va)) e).mem =
      Function.update m.mem (C.radix.slot t (C.radix.index C.leaf va)) e := by
    rw [radix_slot]
    rfl
  by_cases hpage : C.page va = C.page v
  · rw [if_pos hpage]
    refine h'.hwLeaf_of_ends hv ⟨?_, hnext⟩
    rw [hmem]
    exact h.stock.tree.entry_update_self ht ((agree_leaf_iff hva hv).mpr hpage)
  · rw [if_neg hpage]
    obtain ⟨d', e', hends, hleaf⟩ := h.exists_leaf v
    rw [hleaf hv]
    refine h'.hwLeaf_of_ends hv ⟨?_, hends.2⟩
    rw [hmem, ← hends.1]
    exact h.stock.tree.entry_update ht
      (Or.inr fun hagree => hpage ((agree_leaf_iff hva hv).mp hagree))

theorem served_of_installPageProt {phys : BitVec 64} {prot : PgProt}
    (h : (C.installPageProt root phys va prot m).2.denied = false) : m.denied = false :=
  served_of_getPte h

/-- The entry that `install_page_prot` writes. -/
def pageEntry (phys : BitVec 64) (prot : PgProt) : BitVec 64 :=
  phys ||| (pteTypePage ||| pteAf ||| pteShared) ||| prot.val

theorem pageEntry_type (phys : BitVec 64) (prot : PgProt) :
    pageEntry phys prot &&& 3 = pteTypePage := by
  have hbits : (pteTypePage ||| pteAf ||| pteShared) &&& 3 = 3 := by decide
  have hor : ∀ x : BitVec 64, x &&& 3 ||| 3 = 3 := by
    intro x
    ext i hi
    rw [BitVec.getElem_or, BitVec.getElem_and]
    cases x[i] <;> simp
  unfold pageEntry
  rw [BitVec.and_or_distrib_right, BitVec.and_or_distrib_right, hbits, prot.type_clear, hor]
  rfl

/-- `install_page_prot` changes the leaves of its page only, off the sections. -/
theorem ArmTables.hwLeaf_installPageProt {phys v : BitVec 64} {prot : PgProt}
    (h : C.ArmTables S m root) (hmem : C.pgdIndex va ∉ S)
    (hden : (C.installPageProt root phys va prot m).2.denied = false)
    (hva : va.toNat < 2 ^ (C.pgdirShift + C.pgdBits))
    (hv : v.toNat < 2 ^ (C.pgdirShift + C.pgdBits)) :
    C.hwLeaf (C.installPageProt root phys va prot m).2.mem root v =
      if C.page va = C.page v then some (C.pageShift, pageEntry phys prot)
      else C.hwLeaf m.mem root v := by
  obtain ⟨t, m', heq, h', ht, hleaf⟩ := h.getPte_spec hmem hden
  have hpage : C.leafOf C.leaf (pageEntry phys prot) = some (C.pageShift, pageEntry phys prot) := by
    unfold leafOf
    rw [if_neg fun hc => leaf_pos.ne' hc.1, if_pos ⟨rfl, pageEntry_type phys prot⟩]
  unfold ArmArch.installPageProt installPte
  rw [heq, ← hleaf v, ← hpage]
  exact h'.hwLeaf_plant ht hva hv

/-- `install_page_prot` keeps the tables, off the sections. -/
theorem ArmTables.installPageProt {phys : BitVec 64} {prot : PgProt} (h : C.ArmTables S m root)
    (hva : C.pgdIndex va ∉ S) (hden : (C.installPageProt root phys va prot m).2.denied = false) :
    C.ArmTables S (C.installPageProt root phys va prot m).2 root := by
  obtain ⟨t, m', heq, h', ht, -⟩ := h.getPte_spec hva hden
  unfold ArmArch.installPageProt installPte
  rw [heq]
  exact h'.plant ht (if_neg fun hc => absurd hc.1 (lt_irrefl _)) fun hd => absurd hd (lt_irrefl _)

end Walk

end ArmArch

end AcrnUt
