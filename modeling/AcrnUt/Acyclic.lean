import Mathlib.Data.Finset.Card
import Mathlib.Data.Finset.Filter
import Mathlib.Logic.Relation
import Mathlib.Tactic

/-!
# Relations without cycles

A relation has no cycle if nothing reaches itself (`AcyclicRel`). An edge may be added to such a
relation unless its target reaches its source already (`AcyclicRel.addEdge_iff`). If only finitely
many elements are sources, an element has fewer elements that reach it than its successors do
(`AcyclicRel.card_reaching_lt`), so that a search against the edges ends.
-/

set_option linter.unusedSectionVars false

open Relation

namespace AcrnUt

variable {α : Type*} {r r' : α → α → Prop} {a b x y : α}

/-- Nothing reaches itself. -/
def AcyclicRel (r : α → α → Prop) : Prop :=
  ∀ x, ¬TransGen r x x

/-- The relation with an edge from `a` to `b`. -/
def addEdge (r : α → α → Prop) (a b : α) : α → α → Prop :=
  fun x y => r x y ∨ x = a ∧ y = b

theorem AcyclicRel.mono (h : AcyclicRel r) (hle : r' ≤ r) : AcyclicRel r' :=
  fun x hx => h x (TransGen.mono hle _ _ hx)

/-- A path with the new edge goes along the old ones, or reaches the edge and goes on from it. -/
theorem transGen_addEdge (h : TransGen (addEdge r a b) x y) :
    TransGen r x y ∨ ReflTransGen r x a ∧ ReflTransGen r b y := by
  induction h with
  | single hxy =>
    rcases hxy with hxy | ⟨rfl, rfl⟩
    · exact Or.inl (.single hxy)
    · exact Or.inr ⟨.refl, .refl⟩
  | tail _ hyz ih =>
    rcases hyz with hyz | ⟨rfl, rfl⟩
    · rcases ih with hpath | ⟨hxa, hby⟩
      · exact Or.inl (hpath.tail hyz)
      · exact Or.inr ⟨hxa, hby.tail hyz⟩
    · rcases ih with hpath | ⟨hxa, -⟩
      · exact Or.inr ⟨hpath.to_reflTransGen, .refl⟩
      · exact Or.inr ⟨hxa, .refl⟩

/-- The new edge closes a cycle exactly if its target reaches its source. -/
theorem AcyclicRel.addEdge_iff (h : AcyclicRel r) :
    AcyclicRel (addEdge r a b) ↔ ¬ReflTransGen r b a := by
  constructor
  · intro hadd hba
    have hback : ReflTransGen (addEdge r a b) b a := ReflTransGen.mono (fun _ _ => Or.inl) _ _ hba
    exact hadd a (TransGen.head' (Or.inr ⟨rfl, rfl⟩) hback)
  · intro hba x hx
    rcases transGen_addEdge hx with hx | ⟨hxa, hbx⟩
    · exact h x hx
    · exact hba (hbx.trans hxa)

open Classical in
/-- The elements of `s` that reach `x`. -/
noncomputable def reaching (r : α → α → Prop) (s : Finset α) (x : α) : Finset α :=
  s.filter fun z => TransGen r z x

theorem mem_reaching {s : Finset α} {z : α} : z ∈ reaching r s x ↔ z ∈ s ∧ TransGen r z x := by
  classical
  exact Finset.mem_filter

/-- What reaches `x` reaches the successors of `x`, and so does `x`. -/
theorem AcyclicRel.card_reaching_lt (h : AcyclicRel r) {s : Finset α} (hx : x ∈ s) (hxy : r x y) :
    (reaching r s x).card < (reaching r s y).card := by
  refine Finset.card_lt_card ((Finset.ssubset_iff_of_subset fun z hz => ?_).2 ⟨x, ?_, ?_⟩)
  · obtain ⟨hzs, hzx⟩ := mem_reaching.1 hz
    exact mem_reaching.2 ⟨hzs, hzx.tail hxy⟩
  · exact mem_reaching.2 ⟨hx, .single hxy⟩
  · exact fun hz => h x (mem_reaching.1 hz).2

/-- An element does not reach itself. -/
theorem AcyclicRel.card_reaching_lt_card (h : AcyclicRel r) {s : Finset α} (hx : x ∈ s) :
    (reaching r s x).card < s.card := by
  refine Finset.card_lt_card ((Finset.ssubset_iff_of_subset fun z hz => ?_).2 ⟨x, hx, ?_⟩)
  · exact (mem_reaching.1 hz).1
  · exact fun hz => h x (mem_reaching.1 hz).2

end AcrnUt
