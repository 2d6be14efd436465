import Mathlib.Data.Set.Insert
import Mathlib.Logic.Function.Basic
import Mathlib.Tactic

/-!
# Radix trees of tables in a store

Tables live in a store `m : A → E` of entries. A key `v` selects entry `index d v` of
the table its walk reaches at depth `d`, and `next` reads off an entry the table it
leads to, if any. `table m root v d` is the table reached at depth `d`, `entry` the
entry selected there.

`Agree d v v'` says that two keys make the same choices above depth `d`. The store is
a tree (`IsTree`) if a table is reached along one path only. Then a write to one entry
moves only the walks that select it (`IsTree.table_update`, `IsTree.entry_update`),
and the two edits of a table walk keep the tree :

* `graft` links a fresh table, from which no entry leads on, into an entry that led
  nowhere;
* `plant` writes an entry that leads nowhere, and drops what hung below.

A walk ends at the entry that leads nowhere (`Ends`). A sequence of grafts that keeps
what the keys see is `Grown`.
-/

set_option linter.unusedSectionVars false

namespace AcrnUt

/-- How a key walks tables : which entry it selects at each depth, where the entries of
a table are, and where an entry leads. The entries of a table lie in the table's page. -/
structure Radix (A E V : Type*) where
  index : ℕ → V → ℕ
  slot : A → ℕ → A
  page : A → A
  next : ℕ → E → Option A
  page_slot : ∀ {t : A} (d : ℕ) (v : V), page t = t → page (slot t (index d v)) = t
  slot_inj : ∀ {t : A} {d : ℕ} {v v' : V}, slot t (index d v) = slot t (index d v') →
    index d v = index d v'
  page_next : ∀ {d : ℕ} {e : E} {t : A}, next d e = some t → page t = t

namespace Radix

variable {A E V : Type*} (R : Radix A E V) {m m' : A → E} {root t : A} {v v' v₀ : V} {d d' d₀ : ℕ}
  {e : E}

/-- The table that the walk of `v` reaches at depth `d`. -/
def table (m : A → E) (root : A) (v : V) : ℕ → Option A
  | 0 => some root
  | d + 1 => (table m root v d).bind fun t => R.next d (m (R.slot t (R.index d v)))

/-- The entry that the walk of `v` selects at depth `d`. -/
def entry (m : A → E) (root : A) (v : V) (d : ℕ) : Option E :=
  (R.table m root v d).map fun t => m (R.slot t (R.index d v))

/-- The tables of the tree. -/
def tables (m : A → E) (root : A) : Set A :=
  {t | ∃ v d, R.table m root v d = some t}

/-- The walk of `v` ends at depth `d`, at an entry that leads nowhere. -/
def Ends (m : A → E) (root : A) (v : V) (d : ℕ) (e : E) : Prop :=
  R.entry m root v d = some e ∧ R.next d e = none

/-- The two keys make the same choices above depth `d`. -/
def Agree (d : ℕ) (v v' : V) : Prop :=
  ∀ k < d, R.index k v = R.index k v'

/-- The tables that hang below the entry `v₀` selects at depth `d₀`. -/
def below (m : A → E) (root : A) (v₀ : V) (d₀ : ℕ) : Set A :=
  {t | ∃ v d, d₀ < d ∧ R.Agree (d₀ + 1) v₀ v ∧ R.table m root v d = some t}

/-- Every table is reached along one path. -/
structure IsTree (m : A → E) (root : A) : Prop where
  page_root : R.page root = root
  path : ∀ {v v' : V} {d d' : ℕ} {t : A}, R.table m root v d = some t →
    R.table m root v' d' = some t → d = d' ∧ R.Agree d v v'

@[simp] theorem table_zero : R.table m root v 0 = some root :=
  rfl

theorem table_succ : R.table m root v (d + 1) = (R.entry m root v d).bind (R.next d) := by
  simp [table, entry, Option.bind_map]

theorem Agree.symm (h : R.Agree d v v') : R.Agree d v' v :=
  fun k hk => (h k hk).symm

theorem Agree.mono (h : R.Agree d v v') (hd : d' ≤ d) : R.Agree d' v v' :=
  fun k hk => h k (hk.trans_le hd)

theorem Agree.trans {v'' : V} (h : R.Agree d v v') (h' : R.Agree d v' v'') : R.Agree d v v'' :=
  fun k hk => (h k hk).trans (h' k hk)

theorem agree_succ : R.Agree (d + 1) v v' ↔ R.Agree d v v' ∧ R.index d v = R.index d v' := by
  constructor
  · exact fun h => ⟨h.mono R (Nat.le_succ d), h d (Nat.lt_succ_self d)⟩
  · rintro ⟨h, hd⟩ k hk
    rcases Nat.lt_succ_iff_lt_or_eq.mp hk with hk | rfl
    · exact h k hk
    · exact hd

/-- Keys that agree above depth `d` reach the same table there. -/
theorem table_eq_of_agree (h : R.Agree d v v') : R.table m root v d = R.table m root v' d := by
  induction d with
  | zero => rfl
  | succ d ih =>
    obtain ⟨h, hd⟩ := (R.agree_succ).mp h
    rw [table, table, ih h, hd]

theorem entry_eq_of_agree (h : R.Agree (d + 1) v v') :
    R.entry m root v d = R.entry m root v' d := by
  obtain ⟨h, hd⟩ := (R.agree_succ).mp h
  rw [entry, entry, R.table_eq_of_agree h, hd]

/-- A walk that reaches depth `d + 1` reached depth `d`. -/
theorem exists_table_of_succ (h : R.table m root v (d + 1) = some t) :
    ∃ t', R.table m root v d = some t' ∧ R.next d (m (R.slot t' (R.index d v))) = some t :=
  Option.bind_eq_some_iff.mp h

theorem table_eq_none (h : R.table m root v d = none) (hd : d ≤ d') :
    R.table m root v d' = none := by
  induction hd with
  | refl => exact h
  | step _ ih => rw [table, ih, Option.bind_none]

/-- Nothing is reached below the end of a walk. -/
theorem Ends.table_eq_none (h : R.Ends m root v d e) (hd : d < d') :
    R.table m root v d' = none := by
  refine R.table_eq_none (d := d + 1) ?_ hd
  rw [table_succ, h.1, Option.bind_some, h.2]

/-- A walk ends once. -/
theorem Ends.unique {e' : E} (h : R.Ends m root v d e) (h' : R.Ends m root v d' e') :
    d = d' ∧ e = e' := by
  have key : ∀ {d d' : ℕ} {e e' : E}, R.Ends m root v d e → R.Ends m root v d' e' → ¬d < d' := by
    intro d d' e e' h h' hlt
    have hnone := h.table_eq_none R hlt
    have hsome := h'.1
    rw [entry, hnone] at hsome
    cases hsome
  obtain rfl : d = d' := Nat.le_antisymm (not_lt.mp (key h' h)) (not_lt.mp (key h h'))
  exact ⟨rfl, Option.some.inj (h.1.symm.trans h'.1)⟩

section Tree

variable {R}

theorem IsTree.page_table (h : R.IsTree m root) (ht : R.table m root v d = some t) :
    R.page t = t := by
  cases d with
  | zero =>
    cases ht
    exact h.page_root
  | succ d =>
    obtain ⟨_, -, hnext⟩ := R.exists_table_of_succ ht
    exact R.page_next hnext

/-- Two walks select the same entry only along the same path. -/
theorem IsTree.slot_path {t' : A} (h : R.IsTree m root) (ht : R.table m root v d = some t)
    (ht' : R.table m root v' d' = some t')
    (hs : R.slot t (R.index d v) = R.slot t' (R.index d' v')) : d = d' ∧ R.Agree (d + 1) v v' := by
  have hpage : t = t' := by
    rw [← R.page_slot d v (h.page_table ht), hs, R.page_slot d' v' (h.page_table ht')]
  subst hpage
  obtain ⟨rfl, hagree⟩ := h.path ht ht'
  exact ⟨rfl, R.agree_succ.mpr ⟨hagree, R.slot_inj hs⟩⟩

/-- A root from which no entry leads on is the whole tree. -/
theorem table_of_bare (h : ∀ v, R.next 0 (m (R.slot root (R.index 0 v))) = none)
    (ht : R.table m root v d = some t) : d = 0 ∧ t = root := by
  cases d with
  | zero => exact ⟨rfl, (Option.some.inj ht).symm⟩
  | succ d =>
    have hends : R.Ends m root v 0 (m (R.slot root (R.index 0 v))) := ⟨rfl, h v⟩
    rw [hends.table_eq_none R (Nat.succ_pos d)] at ht
    cases ht

theorem isTree_of_bare (hpage : R.page root = root)
    (h : ∀ v, R.next 0 (m (R.slot root (R.index 0 v))) = none) : R.IsTree m root where
  page_root := hpage
  path ht ht' := by
    obtain ⟨rfl, -⟩ := R.table_of_bare h ht
    obtain ⟨rfl, -⟩ := R.table_of_bare h ht'
    exact ⟨rfl, fun k hk => absurd hk (Nat.not_lt_zero k)⟩

/-- Stores that agree on the entries that the walks select have the same walks. -/
theorem table_congr_selected
    (heq : ∀ v d t, R.table m root v d = some t →
      m' (R.slot t (R.index d v)) = m (R.slot t (R.index d v))) (v : V) (d : ℕ) :
    R.table m' root v d = R.table m root v d := by
  induction d with
  | zero => rfl
  | succ d ih =>
    rw [table, table, ih]
    cases ht : R.table m root v d with
    | none => rfl
    | some t => rw [Option.bind_some, Option.bind_some, heq v d t ht]

theorem entry_congr_selected
    (heq : ∀ v d t, R.table m root v d = some t →
      m' (R.slot t (R.index d v)) = m (R.slot t (R.index d v))) (v : V) (d : ℕ) :
    R.entry m' root v d = R.entry m root v d := by
  rw [entry, entry, R.table_congr_selected heq]
  cases ht : R.table m root v d with
  | none => rfl
  | some t => rw [Option.map_some, Option.map_some, heq v d t ht]

theorem tables_congr_selected
    (heq : ∀ v d t, R.table m root v d = some t →
      m' (R.slot t (R.index d v)) = m (R.slot t (R.index d v))) :
    R.tables m' root = R.tables m root := by
  simp only [tables, R.table_congr_selected heq]

theorem IsTree.congr_selected (h : R.IsTree m root)
    (heq : ∀ v d t, R.table m root v d = some t →
      m' (R.slot t (R.index d v)) = m (R.slot t (R.index d v))) : R.IsTree m' root where
  page_root := h.page_root
  path ht ht' := by
    rw [R.table_congr_selected heq] at ht ht'
    exact h.path ht ht'

/-- The entries that walks select lie in the pages of the tables. -/
theorem IsTree.selected (h : R.IsTree m root)
    (heq : ∀ a, R.page a ∈ R.tables m root → m' a = m a) (v : V) (d : ℕ) (t : A)
    (ht : R.table m root v d = some t) :
    m' (R.slot t (R.index d v)) = m (R.slot t (R.index d v)) := by
  refine heq _ ?_
  rw [R.page_slot d v (h.page_table ht)]
  exact ⟨v, d, ht⟩

/-- Stores that agree on the pages of the tables have the same walks. -/
theorem IsTree.table_congr (h : R.IsTree m root)
    (heq : ∀ a, R.page a ∈ R.tables m root → m' a = m a) (v : V) (d : ℕ) :
    R.table m' root v d = R.table m root v d :=
  R.table_congr_selected (h.selected heq) v d

theorem IsTree.entry_congr (h : R.IsTree m root)
    (heq : ∀ a, R.page a ∈ R.tables m root → m' a = m a) (v : V) (d : ℕ) :
    R.entry m' root v d = R.entry m root v d :=
  R.entry_congr_selected (h.selected heq) v d

theorem IsTree.tables_congr (h : R.IsTree m root)
    (heq : ∀ a, R.page a ∈ R.tables m root → m' a = m a) :
    R.tables m' root = R.tables m root :=
  R.tables_congr_selected (h.selected heq)

theorem IsTree.congr (h : R.IsTree m root)
    (heq : ∀ a, R.page a ∈ R.tables m root → m' a = m a) : R.IsTree m' root :=
  h.congr_selected (h.selected heq)

/-! ## Writing one entry -/

variable [DecidableEq A] {t₀ : A}

/-- A write to an entry leaves the walks that do not select it above `d`. -/
theorem IsTree.table_update (h : R.IsTree m root) (h₀ : R.table m root v₀ d₀ = some t₀)
    (hv : d ≤ d₀ ∨ ¬R.Agree (d₀ + 1) v₀ v) :
    R.table (Function.update m (R.slot t₀ (R.index d₀ v₀)) e) root v d = R.table m root v d := by
  induction d with
  | zero => rfl
  | succ d ih =>
    rw [table, table, ih (hv.imp_left (Nat.le_of_succ_le))]
    cases ht : R.table m root v d with
    | none => rfl
    | some t =>
      rw [Option.bind_some, Option.bind_some, Function.update_of_ne]
      intro hs
      obtain ⟨rfl, hagree⟩ := h.slot_path h₀ ht hs.symm
      exact hv.elim (fun hd => absurd hd (Nat.not_succ_le_self _)) fun hn => hn hagree

theorem IsTree.entry_update (h : R.IsTree m root) (h₀ : R.table m root v₀ d₀ = some t₀)
    (hv : d < d₀ ∨ ¬R.Agree (d₀ + 1) v₀ v) :
    R.entry (Function.update m (R.slot t₀ (R.index d₀ v₀)) e) root v d = R.entry m root v d := by
  rw [entry, entry, h.table_update h₀ (hv.imp_left Nat.le_of_lt)]
  cases ht : R.table m root v d with
  | none => rfl
  | some t =>
    rw [Option.map_some, Option.map_some, Function.update_of_ne]
    intro hs
    obtain ⟨rfl, hagree⟩ := h.slot_path h₀ ht hs.symm
    exact hv.elim (fun hd => absurd hd (lt_irrefl _)) fun hn => hn hagree

/-- The walks that select the entry read what was written. -/
theorem IsTree.entry_update_self (h : R.IsTree m root) (h₀ : R.table m root v₀ d₀ = some t₀)
    (hv : R.Agree (d₀ + 1) v₀ v) :
    R.entry (Function.update m (R.slot t₀ (R.index d₀ v₀)) e) root v d₀ = some e := by
  rw [R.entry_eq_of_agree (hv.symm R), entry, h.table_update h₀ (Or.inl le_rfl), h₀,
    Option.map_some, Function.update_self]

end Tree

/-! ## Grafting a fresh table -/

variable {p t₀ : A}

/-- `m'` is `m` with the fresh table `p` linked through the entry `e` into the entry that
`v₀` selects at depth `d₀`. That entry led nowhere, and no entry of `p` leads on. -/
structure Graft (m m' : A → E) (root : A) (v₀ : V) (d₀ : ℕ) (t₀ p : A) (e : E) : Prop where
  tree : R.IsTree m root
  reach : R.table m root v₀ d₀ = some t₀
  dead : R.next d₀ (m (R.slot t₀ (R.index d₀ v₀))) = none
  page : R.page p = p
  fresh : p ∉ R.tables m root
  link : R.next d₀ e = some p
  slot : m' (R.slot t₀ (R.index d₀ v₀)) = e
  frame : ∀ a, a ≠ R.slot t₀ (R.index d₀ v₀) → R.page a ≠ p → m' a = m a
  bare : ∀ v, R.next (d₀ + 1) (m' (R.slot p (R.index (d₀ + 1) v))) = none

/-- A cleared page, linked into an entry that leads nowhere, is a graft. -/
theorem Graft.of_clear {R : Radix A E V} [DecidableEq A] {m₁ : A → E} (htree : R.IsTree m root)
    (ht : R.table m root v₀ d₀ = some t₀)
    (hdead : R.next d₀ (m (R.slot t₀ (R.index d₀ v₀))) = none) (hp : R.page p = p)
    (hfresh : p ∉ R.tables m root) (hlink : R.next d₀ e = some p)
    (hframe : ∀ a, R.page a ≠ p → m₁ a = m a)
    (hbare : ∀ v, R.next (d₀ + 1) (m₁ (R.slot p (R.index (d₀ + 1) v))) = none) :
    R.Graft m (Function.update m₁ (R.slot t₀ (R.index d₀ v₀)) e) root v₀ d₀ t₀ p e where
  tree := htree
  reach := ht
  dead := hdead
  page := hp
  fresh := hfresh
  link := hlink
  slot := Function.update_self ..
  frame a ha hap := (Function.update_of_ne ha _ _).trans (hframe a hap)
  bare v := by
    rw [Function.update_of_ne, hbare]
    intro hs
    have hpage := R.page_slot (d₀ + 1) v hp
    rw [hs, R.page_slot d₀ v₀ (htree.page_table ht)] at hpage
    exact hfresh ⟨v₀, d₀, hpage ▸ ht⟩

namespace Graft

variable {R} (g : R.Graft m m' root v₀ d₀ t₀ p e)

include g

/-- The linked entry does not lie in the fresh table. -/
theorem page_slot_ne : R.page (R.slot t₀ (R.index d₀ v₀)) ≠ p := by
  rw [R.page_slot d₀ v₀ (g.tree.page_table g.reach)]
  rintro rfl
  exact g.fresh ⟨v₀, d₀, g.reach⟩

/-- Walks that do not select the linked entry do not change. -/
theorem unmoved (hv : d ≤ d₀ ∨ ¬R.Agree (d₀ + 1) v₀ v) :
    R.table m' root v d = R.table m root v d ∧
      (d < d₀ ∨ ¬R.Agree (d₀ + 1) v₀ v → R.entry m' root v d = R.entry m root v d) := by
  classical
  let m₁ := Function.update m' (R.slot t₀ (R.index d₀ v₀)) (m (R.slot t₀ (R.index d₀ v₀)))
  have hm' : m' = Function.update m₁ (R.slot t₀ (R.index d₀ v₀)) e := by
    rw [Function.update_idem, ← g.slot, Function.update_eq_self]
  have heq : ∀ a, R.page a ∈ R.tables m root → m₁ a = m a := by
    intro a ha
    by_cases hs : a = R.slot t₀ (R.index d₀ v₀)
    · rw [hs]
      exact Function.update_self ..
    · exact (Function.update_of_ne hs _ _).trans (g.frame a hs fun hp => g.fresh (hp ▸ ha))
  have htree := g.tree.congr heq
  have hreach := (g.tree.table_congr heq v₀ d₀).trans g.reach
  rw [hm']
  refine ⟨(htree.table_update hreach hv).trans (g.tree.table_congr heq v d), fun hv' => ?_⟩
  exact (htree.entry_update hreach hv').trans (g.tree.entry_congr heq v d)

theorem entry_link (hv : R.Agree (d₀ + 1) v₀ v) : R.entry m' root v d₀ = some e := by
  rw [← R.entry_eq_of_agree hv, entry, (g.unmoved (Or.inl le_rfl)).1, g.reach, Option.map_some,
    g.slot]

theorem table_new (hv : R.Agree (d₀ + 1) v₀ v) : R.table m' root v (d₀ + 1) = some p := by
  rw [table_succ, g.entry_link hv, Option.bind_some, g.link]

theorem entry_new (hv : R.Agree (d₀ + 1) v₀ v) :
    R.entry m' root v (d₀ + 1) = some (m' (R.slot p (R.index (d₀ + 1) v))) := by
  rw [entry, g.table_new hv, Option.map_some]

/-- Before the graft, the walks through the linked entry ended there. -/
theorem ends (hv : R.Agree (d₀ + 1) v₀ v) :
    R.Ends m root v d₀ (m (R.slot t₀ (R.index d₀ v₀))) := by
  refine ⟨?_, g.dead⟩
  rw [← R.entry_eq_of_agree hv, entry, g.reach, Option.map_some]

/-- After it, they end in the fresh table. -/
theorem ends_new (hv : R.Agree (d₀ + 1) v₀ v) :
    R.Ends m' root v (d₀ + 1) (m' (R.slot p (R.index (d₀ + 1) v))) :=
  ⟨g.entry_new hv, g.bare v⟩

/-- The fresh table is the only new one, and only on the walks through the link. -/
theorem table_old (hv : ¬(d = d₀ + 1 ∧ R.Agree (d₀ + 1) v₀ v)) :
    R.table m' root v d = R.table m root v d := by
  by_cases hagree : R.Agree (d₀ + 1) v₀ v
  · rcases Nat.lt_or_ge d₀ d with hd | hd
    · have hd' : d₀ + 1 < d := lt_of_le_of_ne hd fun h => hv ⟨h.symm, hagree⟩
      rw [(g.ends_new hagree).table_eq_none R hd', (g.ends hagree).table_eq_none R hd]
    · exact (g.unmoved (Or.inl hd)).1
  · exact (g.unmoved (Or.inr hagree)).1

theorem entry_old (hv : ¬R.Agree (d₀ + 1) v₀ v) : R.entry m' root v d = R.entry m root v d :=
  (g.unmoved (Or.inr hv)).2 (Or.inr hv)

/-- An entry after the graft is an old one, the link, or one of the fresh table. -/
theorem entry_cases {e' : E} (he : R.entry m' root v d = some e') :
    R.entry m root v d = some e' ∨ R.Agree (d₀ + 1) v₀ v ∧ (d = d₀ ∧ e' = e ∨
      d = d₀ + 1 ∧ e' = m' (R.slot p (R.index (d₀ + 1) v))) := by
  by_cases hv : R.Agree (d₀ + 1) v₀ v
  · rcases lt_trichotomy d d₀ with hd | rfl | hd
    · exact Or.inl (((g.unmoved (Or.inl hd.le)).2 (Or.inl hd)).symm.trans he)
    · rw [g.entry_link hv] at he
      exact Or.inr ⟨hv, Or.inl ⟨rfl, (Option.some.inj he).symm⟩⟩
    · have hends := g.ends_new hv
      rcases Nat.lt_or_ge (d₀ + 1) d with hlt | hge
      · rw [entry, hends.table_eq_none R hlt] at he
        cases he
      · obtain rfl : d = d₀ + 1 := Nat.le_antisymm hge hd
        exact Or.inr ⟨hv, Or.inr ⟨rfl, Option.some.inj (he.symm.trans hends.1)⟩⟩
  · exact Or.inl ((g.entry_old hv).symm.trans he)

/-- An old entry is still there, or is the one that is linked. -/
theorem entry_old_cases {e' : E} (he : R.entry m root v d = some e') :
    R.entry m' root v d = some e' ∨
      R.Agree (d₀ + 1) v₀ v ∧ d = d₀ ∧ e' = m (R.slot t₀ (R.index d₀ v₀)) := by
  by_cases hv : R.Agree (d₀ + 1) v₀ v
  · have hends := g.ends hv
    rcases lt_trichotomy d d₀ with hd | rfl | hd
    · exact Or.inl (((g.unmoved (Or.inl hd.le)).2 (Or.inl hd)).trans he)
    · rw [hends.1] at he
      exact Or.inr ⟨hv, rfl, (Option.some.inj he).symm⟩
    · rw [entry, hends.table_eq_none R hd] at he
      cases he
  · exact Or.inl ((g.entry_old hv).trans he)

/-- An old entry that leads on is still there. -/
theorem entry_of_next {e' : E} (he : R.entry m root v d = some e') (hnext : R.next d e' ≠ none) :
    R.entry m' root v d = some e' := by
  rcases g.entry_old_cases he with he | ⟨-, rfl, rfl⟩
  · exact he
  · exact absurd g.dead hnext

/-- A walk whose end is not selected by `v₀` keeps it. -/
theorem ends_of_not_agree {e' : E} (h : R.Ends m root v d e') (hv : ¬R.Agree (d + 1) v₀ v) :
    R.Ends m' root v d e' := by
  rcases g.entry_old_cases h.1 with he | ⟨hagree, rfl, -⟩
  · exact ⟨he, h.2⟩
  · exact absurd hagree hv

/-- Nothing changes below the level of the fresh table. -/
theorem below_eq (hd : d₀ < d) (v : V) : R.below m' root v d = R.below m root v d := by
  simp only [below]
  ext t
  refine exists_congr fun v' => exists_congr fun d' => and_congr_right fun hd' => ?_
  rw [g.table_old]
  rintro ⟨rfl, -⟩
  omega

/-- A table of the grafted tree is the fresh one, or an old one along its old path. -/
theorem table_cases (ht : R.table m' root v d = some t) :
    (d = d₀ + 1 ∧ R.Agree (d₀ + 1) v₀ v ∧ t = p) ∨ R.table m root v d = some t := by
  by_cases hv : d = d₀ + 1 ∧ R.Agree (d₀ + 1) v₀ v
  · obtain ⟨rfl, hagree⟩ := hv
    rw [g.table_new hagree] at ht
    exact Or.inl ⟨rfl, hagree, (Option.some.inj ht).symm⟩
  · exact Or.inr ((g.table_old hv).symm.trans ht)

theorem isTree : R.IsTree m' root where
  page_root := g.tree.page_root
  path {v v' d d' t} ht ht' := by
    rcases g.table_cases ht with ⟨rfl, hv, rfl⟩ | ht
    · rcases g.table_cases ht' with ⟨rfl, hv', -⟩ | ht'
      · exact ⟨rfl, (hv.symm R).trans R hv'⟩
      · exact absurd ⟨v', d', ht'⟩ g.fresh
    · rcases g.table_cases ht' with ⟨-, -, rfl⟩ | ht'
      · exact absurd ⟨v, d, ht⟩ g.fresh
      · exact g.tree.path ht ht'

theorem tables_eq : R.tables m' root = insert p (R.tables m root) := by
  ext t
  constructor
  · rintro ⟨v, d, ht⟩
    rcases g.table_cases ht with ⟨-, -, rfl⟩ | ht
    · exact Set.mem_insert _ _
    · exact Set.mem_insert_of_mem _ ⟨v, d, ht⟩
  · rintro (rfl | ⟨v, d, ht⟩)
    · exact ⟨v₀, d₀ + 1, g.table_new fun _ _ => rfl⟩
    · refine ⟨v, d, (g.table_old ?_).trans ht⟩
      rintro ⟨rfl, hv⟩
      rw [(g.ends hv).table_eq_none R (Nat.lt_succ_self d₀)] at ht
      cases ht

end Graft

/-! ## Writing an entry that leads nowhere -/

section Plant

variable {R} [DecidableEq A]

/-- What hung below a written entry is dropped. -/
theorem IsTree.table_plant (h : R.IsTree m root) (h₀ : R.table m root v₀ d₀ = some t₀)
    (he : R.next d₀ e = none) (hv : R.Agree (d₀ + 1) v₀ v) (hd : d₀ < d) :
    R.table (Function.update m (R.slot t₀ (R.index d₀ v₀)) e) root v d = none :=
  Ends.table_eq_none R ⟨h.entry_update_self h₀ hv, he⟩ hd

theorem IsTree.table_plant_cases (h : R.IsTree m root) (h₀ : R.table m root v₀ d₀ = some t₀)
    (he : R.next d₀ e = none)
    (ht : R.table (Function.update m (R.slot t₀ (R.index d₀ v₀)) e) root v d = some t) :
    R.table m root v d = some t ∧ (d ≤ d₀ ∨ ¬R.Agree (d₀ + 1) v₀ v) := by
  have hv : d ≤ d₀ ∨ ¬R.Agree (d₀ + 1) v₀ v := by
    by_contra hcon
    rw [not_or, not_le, not_not] at hcon
    rw [h.table_plant h₀ he hcon.2 hcon.1] at ht
    cases ht
  exact ⟨(h.table_update h₀ hv).symm.trans ht, hv⟩

/-- An entry after the write is an old one, or the one written. -/
theorem IsTree.entry_plant_cases {e' : E} (h : R.IsTree m root)
    (h₀ : R.table m root v₀ d₀ = some t₀) (he : R.next d₀ e = none)
    (he' : R.entry (Function.update m (R.slot t₀ (R.index d₀ v₀)) e) root v d = some e') :
    R.entry m root v d = some e' ∨ d = d₀ ∧ R.Agree (d₀ + 1) v₀ v ∧ e' = e := by
  by_cases hv : d < d₀ ∨ ¬R.Agree (d₀ + 1) v₀ v
  · exact Or.inl ((h.entry_update h₀ hv).symm.trans he')
  · rw [not_or, not_lt, not_not] at hv
    rcases Nat.eq_or_lt_of_le hv.1 with rfl | hd
    · rw [h.entry_update_self h₀ hv.2] at he'
      exact Or.inr ⟨rfl, hv.2, (Option.some.inj he').symm⟩
    · rw [entry, h.table_plant h₀ he hv.2 hd] at he'
      cases he'

theorem IsTree.plant (h : R.IsTree m root) (h₀ : R.table m root v₀ d₀ = some t₀)
    (he : R.next d₀ e = none) :
    R.IsTree (Function.update m (R.slot t₀ (R.index d₀ v₀)) e) root where
  page_root := h.page_root
  path ht ht' :=
    h.path (h.table_plant_cases h₀ he ht).1 (h.table_plant_cases h₀ he ht').1

theorem IsTree.tables_plant (h : R.IsTree m root) (h₀ : R.table m root v₀ d₀ = some t₀)
    (he : R.next d₀ e = none) :
    R.tables (Function.update m (R.slot t₀ (R.index d₀ v₀)) e) root =
      R.tables m root \ R.below m root v₀ d₀ := by
  ext t
  constructor
  · rintro ⟨v, d, ht⟩
    obtain ⟨ht, hv⟩ := h.table_plant_cases h₀ he ht
    refine ⟨⟨v, d, ht⟩, ?_⟩
    rintro ⟨v', d', hd', hv', ht'⟩
    obtain ⟨rfl, hagree⟩ := h.path ht ht'
    refine hv.elim (fun hd => absurd hd' (not_lt.mpr hd)) fun hn => hn ?_
    exact hv'.trans R ((hagree.mono R hd').symm R)
  · rintro ⟨⟨v, d, ht⟩, hbelow⟩
    refine ⟨v, d, (h.table_update h₀ ?_).trans ht⟩
    by_contra hcon
    rw [not_or, not_le, not_not] at hcon
    exact hbelow ⟨v, d, hcon.1, hcon.2, ht⟩

end Plant

/-! ## A stock of fresh pages -/

/-- The tables are a tree, and the pages of the list are different and none of them a
table. -/
structure Stock (m : A → E) (root : A) (l : List A) : Prop where
  tree : R.IsTree m root
  nodup : l.Nodup
  page : ∀ p ∈ l, R.page p = p
  fresh : ∀ p ∈ l, p ∉ R.tables m root

namespace Stock

variable {R} {l : List A}

/-- A graft uses up the page it links. -/
theorem graft (h : R.Stock m root (p :: l)) (g : R.Graft m m' root v₀ d₀ t₀ p e) :
    R.Stock m' root l where
  tree := g.isTree
  nodup := (List.nodup_cons.mp h.nodup).2
  page q hq := h.page q (List.mem_cons_of_mem p hq)
  fresh q hq := by
    rw [g.tables_eq, Set.mem_insert_iff, not_or]
    refine ⟨?_, h.fresh q (List.mem_cons_of_mem p hq)⟩
    rintro rfl
    exact (List.nodup_cons.mp h.nodup).1 hq

/-- A write of an entry that leads nowhere needs no page. -/
theorem plant [DecidableEq A] (h : R.Stock m root l) (h₀ : R.table m root v₀ d₀ = some t₀)
    (he : R.next d₀ e = none) :
    R.Stock (Function.update m (R.slot t₀ (R.index d₀ v₀)) e) root l where
  tree := h.tree.plant h₀ he
  nodup := h.nodup
  page := h.page
  fresh q hq := by
    rw [h.tree.tables_plant h₀ he]
    exact fun hmem => h.fresh q hq hmem.1

end Stock

/-! ## Growing a tree -/

/-- `m'` is a tree grown out of `m` by the fresh tables `used`. Nothing is written off the
tables, and every key keeps its view. -/
structure Grown {X : Type*} (view : (A → E) → V → X) (m m' : A → E) (root : A) (used : List A) :
    Prop where
  tree : R.IsTree m' root
  tables : R.tables m' root = R.tables m root ∪ {t | t ∈ used}
  frame : ∀ a, R.page a ∉ R.tables m' root → m' a = m a
  view : ∀ v, view m' v = view m v

section Grown

variable {R} {X : Type*} {view : (A → E) → V → X} {m'' : A → E} {used used' : List A}

theorem Grown.refl (h : R.IsTree m root) : R.Grown view m m root [] :=
  ⟨h, by simp, fun _ _ => rfl, fun _ => rfl⟩

theorem Grown.trans (h : R.Grown view m m' root used) (h' : R.Grown view m' m'' root used') :
    R.Grown view m m'' root (used ++ used') where
  tree := h'.tree
  tables := by
    rw [h'.tables, h.tables, Set.union_assoc]
    congr 1
    ext t
    simp
  frame a ha := by
    refine (h'.frame a ha).trans (h.frame a fun hmem => ha ?_)
    rw [h'.tables]
    exact Or.inl hmem
  view v := (h'.view v).trans (h.view v)

/-- A graft that keeps the view grows the tree by one table. -/
theorem Graft.grown (g : R.Graft m m' root v₀ d₀ t₀ p e) (hview : ∀ v, view m' v = view m v) :
    R.Grown view m m' root [p] where
  tree := g.isTree
  tables := by
    rw [g.tables_eq, Set.insert_eq, Set.union_comm]
    congr 1
    ext t
    simp
  frame a ha := by
    rw [g.tables_eq, Set.mem_insert_iff, not_or] at ha
    refine g.frame a ?_ ha.1
    rintro rfl
    rw [R.page_slot d₀ v₀ (g.tree.page_table g.reach)] at ha
    exact ha.2 ⟨v₀, d₀, g.reach⟩
  view := hview

end Grown

end Radix

/-- Numbers that agree in the digits above a digit and in it : what an index adds to those above
it. -/
theorem div_eq_of_digit {a b k c : ℕ} (habove : a / (k * c) = b / (k * c))
    (hdigit : a / k % c = b / k % c) : a / k = b / k := by
  rw [← Nat.div_add_mod (a / k) c, ← Nat.div_add_mod (b / k) c, Nat.div_div_eq_div_mul,
    Nat.div_div_eq_div_mul, habove, hdigit]

end AcrnUt
