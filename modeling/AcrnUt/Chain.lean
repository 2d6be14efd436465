import Mathlib.Data.List.Nodup
import Mathlib.Logic.Function.Basic

/-!
# Linked lists threaded through a store

A store is a function `next` from cells to cells. `Seg next p l q` says that the
pointer `p` leads through the cells `l`, in order, to the pointer `q`. A chain is a
segment that ends in the null pointer and visits no null cell (`Chain`).

A store determines the chain of a pointer (`Chain.unique`), so a chain visits no
cell twice (`Chain.nodup`) : the cells after a repeated one would be two lists of
different lengths. A segment may repeat cells, and leads to the same end without its
loops (`Seg.exists_nodup`). Writing one cell only moves the segments through it
(`Seg.update_of_notMem`), and redirecting the last cell of a segment moves its end
(`Seg.redirect`), which is how a block of cells is unlinked (`Chain.unlink`).
-/

namespace AcrnUt

variable {α : Type*}

/-- A cell of a store that was written is the written one, or one that was not touched. -/
theorem update_cases {β : Type*} [DecidableEq α] {f : α → β} {a b : α} {v x : β}
    (h : Function.update f a v b = x) : b = a ∧ v = x ∨ b ≠ a ∧ f b = x := by
  rcases eq_or_ne b a with rfl | hne
  · exact Or.inl ⟨rfl, (Function.update_self ..).symm.trans h⟩
  · exact Or.inr ⟨hne, (Function.update_of_ne hne _ _).symm.trans h⟩

theorem update_iff {β : Type*} [DecidableEq α] {f : α → β} {a b : α} {v x : β} :
    Function.update f a v b = x ↔ (b = a ∧ v = x) ∨ (b ≠ a ∧ f b = x) := by
  refine ⟨update_cases, ?_⟩
  rintro (⟨rfl, rfl⟩ | ⟨hne, rfl⟩)
  · exact Function.update_self ..
  · exact Function.update_of_ne hne ..

/-- From `p`, the store leads through the cells `l` to `q`. -/
def Seg (next : α → α) : α → List α → α → Prop
  | p, [], q => p = q
  | p, a :: l, q => p = a ∧ Seg next (next a) l q

/-- From `p`, the store leads through the cells `l` to the null pointer. -/
def Chain (next : α → α) (null p : α) (l : List α) : Prop :=
  Seg next p l null ∧ null ∉ l

variable {next : α → α} {null p q a v : α} {l l₁ l₂ : List α}

@[simp] theorem seg_nil : Seg next p [] q ↔ p = q :=
  Iff.rfl

@[simp] theorem seg_cons : Seg next p (a :: l) q ↔ p = a ∧ Seg next (next a) l q :=
  Iff.rfl

/-- A segment splits where its list does. -/
theorem seg_append : Seg next p (l₁ ++ l₂) q ↔ ∃ r, Seg next p l₁ r ∧ Seg next r l₂ q := by
  induction l₁ generalizing p with
  | nil => simp
  | cons a l ih =>
    simp only [List.cons_append, seg_cons, ih]
    constructor
    · rintro ⟨rfl, r, h₁, h₂⟩
      exact ⟨r, ⟨rfl, h₁⟩, h₂⟩
    · rintro ⟨r, ⟨rfl, h₁⟩, h₂⟩
      exact ⟨rfl, r, h₁, h₂⟩

/-- The end of a segment is where its last cell points. -/
theorem seg_concat : Seg next p (l ++ [a]) q ↔ Seg next p l a ∧ next a = q := by
  simp [seg_append]

/-- Two stores that agree on the cells of a segment lead through the same cells. -/
theorem Seg.congr {next' : α → α} (h : Seg next p l q) (heq : ∀ a ∈ l, next' a = next a) :
    Seg next' p l q := by
  induction l generalizing p with
  | nil => exact h
  | cons a l ih =>
    refine ⟨h.1, ?_⟩
    rw [heq a (by simp)]
    exact ih h.2 fun b hb => heq b (by simp [hb])

/-- Writing a cell that is not on the segment leaves the segment alone. -/
theorem Seg.update_of_notMem [DecidableEq α] (h : Seg next p l q) (ha : a ∉ l) :
    Seg (Function.update next a v) p l q :=
  h.congr fun _ hb => Function.update_of_ne (ne_of_mem_of_not_mem hb ha) _ _

/-- Redirecting the last cell of a segment, which it visits once, moves its end. -/
theorem Seg.redirect [DecidableEq α] (h : Seg next p (l ++ [a]) q) (ha : a ∉ l) :
    Seg (Function.update next a v) p (l ++ [a]) v := by
  obtain ⟨h₁, -⟩ := seg_concat.mp h
  exact seg_concat.mpr ⟨h₁.update_of_notMem ha, Function.update_self ..⟩

/-- Two stores that lead through the same cells point the same way at each of them. -/
theorem Seg.next_eq {next' : α → α} {p' : α} (h : Seg next p l q) (h' : Seg next' p' l q) :
    ∀ a ∈ l, next' a = next a := by
  induction l generalizing p p' with
  | nil => exact fun _ ha => absurd ha List.not_mem_nil
  | cons b l ih =>
    refine List.forall_mem_cons.mpr ⟨?_, ih h.2 h'.2⟩
    cases l with
    | nil => exact h'.2.trans h.2.symm
    | cons c l => exact h'.2.1.trans h.2.1.symm

/-- Without its loops, a segment leads to the same end. -/
theorem Seg.exists_nodup (h : Seg next p l q) : ∃ l', Seg next p l' q ∧ l'.Nodup ∧ l' ⊆ l := by
  induction l generalizing p with
  | nil => exact ⟨[], h, List.nodup_nil, List.Subset.refl _⟩
  | cons a l ih =>
    obtain ⟨rfl, hrest⟩ := h
    obtain ⟨l', hseg, hnodup, hsub⟩ := ih hrest
    by_cases hmem : p ∈ l'
    · -- the rest comes back to the cell : the loop is left out
      obtain ⟨l₁, l₂, rfl⟩ := List.append_of_mem hmem
      obtain ⟨r, -, hr⟩ := seg_append.mp hseg
      obtain ⟨rfl, -⟩ := id hr
      refine ⟨_, hr, (List.nodup_append.mp hnodup).2.1, fun b hb => ?_⟩
      exact List.mem_cons_of_mem _ (hsub (List.mem_append_right _ hb))
    · exact ⟨p :: l', ⟨rfl, hseg⟩, List.nodup_cons.mpr ⟨hmem, hnodup⟩,
        List.cons_subset_cons _ hsub⟩

theorem chain_nil : Chain next null p [] ↔ p = null := by
  simp [Chain]

theorem chain_cons : Chain next null p (a :: l) ↔
    p = a ∧ a ≠ null ∧ Chain next null (next a) l := by
  simp only [Chain, seg_cons, List.mem_cons, not_or]
  constructor
  · rintro ⟨⟨h₁, h₂⟩, h₃, h₄⟩
    exact ⟨h₁, Ne.symm h₃, h₂, h₄⟩
  · rintro ⟨h₁, h₂, h₃, h₄⟩
    exact ⟨⟨h₁, h₃⟩, Ne.symm h₂, h₄⟩

/-- A chain splits into a segment and the chain of the segment's end. -/
theorem chain_append : Chain next null p (l₁ ++ l₂) ↔
    ∃ r, Seg next p l₁ r ∧ null ∉ l₁ ∧ Chain next null r l₂ := by
  simp only [Chain, seg_append, List.mem_append, not_or]
  constructor
  · rintro ⟨⟨r, h₁, h₂⟩, h₃, h₄⟩
    exact ⟨r, h₁, h₃, h₂, h₄⟩
  · rintro ⟨r, h₁, h₃, h₂, h₄⟩
    exact ⟨⟨r, h₁, h₂⟩, h₃, h₄⟩

theorem Chain.ne_null (h : Chain next null p l) (ha : a ∈ l) : a ≠ null :=
  fun heq => h.2 (heq ▸ ha)

/-- Stores that agree on the cells of a chain have the same chain. -/
theorem Chain.congr {next' : α → α} (h : Chain next null p l)
    (heq : ∀ a ∈ l, next' a = next a) : Chain next' null p l :=
  ⟨h.1.congr heq, h.2⟩

/-- A pointer has one chain. -/
theorem Chain.unique (h₁ : Chain next null p l₁) (h₂ : Chain next null p l₂) : l₁ = l₂ := by
  induction l₁ generalizing p l₂ with
  | nil =>
    cases l₂ with
    | nil => rfl
    | cons b l₂ =>
      obtain ⟨rfl, hb, -⟩ := chain_cons.mp h₂
      exact absurd (chain_nil.mp h₁) hb
  | cons a l₁ ih =>
    obtain ⟨rfl, ha, h₁⟩ := chain_cons.mp h₁
    cases l₂ with
    | nil => exact absurd (chain_nil.mp h₂) ha
    | cons b l₂ =>
      obtain ⟨rfl, -, h₂⟩ := chain_cons.mp h₂
      rw [ih h₁ h₂]

/-- A chain visits no cell twice : from a repeated cell there would be two chains. -/
theorem Chain.nodup (h : Chain next null p l) : l.Nodup := by
  induction l generalizing p with
  | nil => exact List.nodup_nil
  | cons a l ih =>
    obtain ⟨rfl, hp, hl⟩ := chain_cons.mp h
    refine List.nodup_cons.mpr ⟨fun hmem => ?_, ih hl⟩
    obtain ⟨l₁, l₂, rfl⟩ := List.append_of_mem hmem
    obtain ⟨r, -, -, hr⟩ := chain_append.mp hl
    obtain ⟨rfl, -, hl₂⟩ := chain_cons.mp hr
    have hlen := congrArg List.length (hl.unique hl₂)
    simp only [List.length_append, List.length_cons] at hlen
    omega

/-- Pushing a new cell in front of a chain. -/
theorem Chain.push [DecidableEq α] (h : Chain next null p l) (ha : a ∉ l) (h0 : a ≠ null) :
    Chain (Function.update next a p) null a (a :: l) := by
  refine chain_cons.mpr ⟨rfl, h0, ?_⟩
  rw [Function.update_self]
  exact ⟨h.1.update_of_notMem ha, h.2⟩

/-- Redirecting the cell before a block of a chain to the block's end unlinks the block. -/
theorem Chain.unlink [DecidableEq α] {blk : List α} {r : α}
    (h : Chain next null p ((l₁ ++ [a]) ++ (blk ++ l₂)))
    (hr : ∃ s, Seg next s blk r ∧ Chain next null r l₂) :
    Chain (Function.update next a r) null p (l₁ ++ [a] ++ l₂) := by
  have hnd := h.nodup
  obtain ⟨s, hs, hnull, -⟩ := chain_append.mp h
  obtain ⟨-, -, hrest⟩ := hr
  have ha : a ∉ l₁ := by
    have := (List.nodup_append.mp (List.nodup_append.mp hnd).1).2.2
    exact fun hmem => this a hmem a (by simp) rfl
  have ha₂ : a ∉ l₂ := fun hmem =>
    (List.nodup_append.mp hnd).2.2 a (by simp) a (by simp [hmem]) rfl
  exact chain_append.mpr ⟨r, hs.redirect ha, hnull, hrest.1.update_of_notMem ha₂, hrest.2⟩

end AcrnUt
