import Mathlib.Tactic

/-!
# Packing blocks in ascending order

A bump allocator places blocks one after another, each at the next multiple of its size
(`packEnd`). Blocks that only go up (`Stacked`) lie between the first start and the last end,
and no two of them overlap.
-/

set_option linter.unusedSectionVars false

namespace AcrnUt

variable {s x y e a : ℕ} {l l' : List ℕ}

/-- `x`, rounded up to a multiple of `s`. -/
def alignUp (s x : ℕ) : ℕ :=
  (x + (s - 1)) / s * s

theorem le_alignUp (hs : 0 < s) (x : ℕ) : x ≤ alignUp s x := by
  have h := Nat.lt_div_mul_add hs (a := x + (s - 1))
  unfold alignUp
  omega

theorem alignUp_le (hs : 0 < s) (h : x ≤ y) (hy : s ∣ y) : alignUp s x ≤ y := by
  obtain ⟨k, rfl⟩ := hy
  unfold alignUp
  rw [Nat.mul_comm s k]
  refine Nat.mul_le_mul_right s (Nat.le_of_lt_succ ?_)
  rw [Nat.div_lt_iff_lt_mul hs, Nat.succ_mul, Nat.mul_comm k s]
  omega

theorem alignUp_of_dvd (hs : 0 < s) (h : s ∣ x) : alignUp s x = x :=
  Nat.le_antisymm (alignUp_le hs le_rfl h) (le_alignUp hs x)

/-- The end of the blocks of sizes `l`, packed from `x` on. -/
def packEnd (x : ℕ) (l : List ℕ) : ℕ :=
  l.foldl (fun e s => alignUp s e + s) x

@[simp] theorem packEnd_nil (x : ℕ) : packEnd x [] = x :=
  rfl

@[simp] theorem packEnd_concat (x : ℕ) (l : List ℕ) (s : ℕ) :
    packEnd x (l ++ [s]) = alignUp s (packEnd x l) + s :=
  List.foldl_concat ..

/-- Blocks, with start and size, that lie one above another between `x` and `e`. -/
structure Stacked (x e : ℕ) (l : List (ℕ × ℕ)) : Prop where
  le : x ≤ e
  bounds : ∀ b ∈ l, x ≤ b.1 ∧ b.1 + b.2 ≤ e
  ascending : l.Pairwise fun b c => b.1 + b.2 ≤ c.1

theorem Stacked.nil (x : ℕ) : Stacked x x [] :=
  ⟨le_rfl, fun _ h => absurd h List.not_mem_nil, List.Pairwise.nil⟩

theorem Stacked.concat {l : List (ℕ × ℕ)} (h : Stacked x e l) (ha : e ≤ a) :
    Stacked x (a + s) (l ++ [(a, s)]) where
  le := h.le.trans (ha.trans (Nat.le_add_right a s))
  bounds b hb := by
    rcases List.mem_append.mp hb with hb | hb
    · have hbounds := h.bounds b hb
      omega
    · rw [List.mem_singleton.mp hb]
      exact ⟨h.le.trans ha, le_rfl⟩
  ascending := by
    refine List.pairwise_append.mpr ⟨h.ascending, List.pairwise_singleton _ _, fun b hb c hc => ?_⟩
    rw [List.mem_singleton.mp hc]
    exact (h.bounds b hb).2.trans ha

end AcrnUt
