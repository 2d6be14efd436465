import Mathlib.Data.List.Nodup
import Mathlib.Logic.Function.Basic
import Mathlib.Tactic

/-!
# Chains of swaps between registers and memory

`xchg r, a` swaps a register with a word of memory. In a chain that names every register and every
word at most once (`XchgChain`) the swaps do not meet : each register ends with its word's old
value and the other way round, the rest is untouched. So the same chain, run before and after code
that replaces all registers, hands the words over to that code, takes its registers back and
restores the old ones (`XchgChain.around`).

A word's address is the sum of the sizes of the fields declared before it (`packedOffset`).
-/

set_option linter.unusedSectionVars false

namespace AcrnUt

/-- The byte offset of a field in a structure without padding, given fields and sizes in the order
of declaration. -/
def packedOffset {φ : Type*} [DecidableEq φ] : List (φ × ℕ) → φ → ℕ
  | [], _ => 0
  | (g, size) :: fields, f => if g = f then 0 else size + packedOffset fields f

variable {ρ α β : Type*} [DecidableEq ρ] [DecidableEq α]

/-- Registers, and memory as words by their addresses. -/
structure RegMem (ρ α β : Type*) where
  gpr : ρ → β
  mem : α → β

/-- `xchg r, a`. -/
def xchg (s : RegMem ρ α β) (x : ρ × α) : RegMem ρ α β where
  gpr := Function.update s.gpr x.1 (s.mem x.2)
  mem := Function.update s.mem x.2 (s.gpr x.1)

/-- Instructions `xchg r, a`, one after the other. -/
def xchgAll (pairs : List (ρ × α)) (s : RegMem ρ α β) : RegMem ρ α β :=
  pairs.foldl xchg s

/-! ## One register, one word -/

section Chain

variable {pairs : List (ρ × α)} {s : RegMem ρ α β} {r : ρ} {a : α}

/-- A register that no swap names keeps its value. -/
theorem gpr_xchgAll_of_notMem (h : r ∉ pairs.map Prod.fst) : (xchgAll pairs s).gpr r = s.gpr r := by
  induction pairs generalizing s with
  | nil => rfl
  | cons x pairs ih =>
    rw [List.map_cons, List.mem_cons, not_or] at h
    have hx : (xchg s x).gpr r = s.gpr r := Function.update_of_ne h.1 _ _
    exact (ih h.2).trans hx

/-- A word that no swap names keeps its value. -/
theorem mem_xchgAll_of_notMem (h : a ∉ pairs.map Prod.snd) : (xchgAll pairs s).mem a = s.mem a := by
  induction pairs generalizing s with
  | nil => rfl
  | cons x pairs ih =>
    rw [List.map_cons, List.mem_cons, not_or] at h
    have hx : (xchg s x).mem a = s.mem a := Function.update_of_ne h.1 _ _
    exact (ih h.2).trans hx

/-- A register swapped once gets the word's value. -/
theorem gpr_xchgAll (hr : (pairs.map Prod.fst).Nodup) (ha : (pairs.map Prod.snd).Nodup)
    (h : (r, a) ∈ pairs) : (xchgAll pairs s).gpr r = s.mem a := by
  induction pairs generalizing s with
  | nil => simp at h
  | cons x pairs ih =>
    rw [List.map_cons, List.nodup_cons] at hr ha
    rcases List.mem_cons.1 h with rfl | h
    · have hx : (xchg s (r, a)).gpr r = s.mem a := Function.update_self _ _ _
      exact (gpr_xchgAll_of_notMem hr.1).trans hx
    · -- the head names another word, so the word still has its value
      have hne : a ≠ x.2 := fun heq => ha.1 (heq ▸ List.mem_map_of_mem h)
      have hx : (xchg s x).mem a = s.mem a := Function.update_of_ne hne _ _
      exact (ih hr.2 ha.2 h).trans hx

/-- A word swapped once gets the register's value. -/
theorem mem_xchgAll (hr : (pairs.map Prod.fst).Nodup) (ha : (pairs.map Prod.snd).Nodup)
    (h : (r, a) ∈ pairs) : (xchgAll pairs s).mem a = s.gpr r := by
  induction pairs generalizing s with
  | nil => simp at h
  | cons x pairs ih =>
    rw [List.map_cons, List.nodup_cons] at hr ha
    rcases List.mem_cons.1 h with rfl | h
    · have hx : (xchg s (r, a)).mem a = s.gpr r := Function.update_self _ _ _
      exact (mem_xchgAll_of_notMem ha.1).trans hx
    · have hne : r ≠ x.1 := fun heq => hr.1 (heq ▸ List.mem_map_of_mem h)
      have hx : (xchg s x).gpr r = s.gpr r := Function.update_of_ne hne _ _
      exact (ih hr.2 ha.2 h).trans hx

end Chain

/-! ## A chain around other code -/

/-- Swaps whose registers and words are all different. -/
structure XchgChain (ρ α : Type*) where
  pairs : List (ρ × α)
  regs : (pairs.map Prod.fst).Nodup
  words : (pairs.map Prod.snd).Nodup

namespace XchgChain

variable (c : XchgChain ρ α) (s : RegMem ρ α β)

/-- The chain's effect. -/
def run : RegMem ρ α β :=
  xchgAll c.pairs s

variable {c s} {r : ρ} {a : α}

theorem gpr_run (h : (r, a) ∈ c.pairs) : (c.run s).gpr r = s.mem a :=
  gpr_xchgAll c.regs c.words h

theorem mem_run (h : (r, a) ∈ c.pairs) : (c.run s).mem a = s.gpr r :=
  mem_xchgAll c.regs c.words h

/-- The chain, code that leaves the memory alone and the registers `exit`, the chain again : the
named word holds that code's register, and the register has its old value. -/
theorem around {exit : ρ → β} (h : (r, a) ∈ c.pairs) :
    (c.run { c.run s with gpr := exit }).mem a = exit r ∧
      (c.run { c.run s with gpr := exit }).gpr r = s.gpr r :=
  ⟨mem_run h, (gpr_run h).trans (mem_run h)⟩

end XchgChain

end AcrnUt
