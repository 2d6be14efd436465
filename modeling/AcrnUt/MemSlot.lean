import AcrnUt.Chain

/-!
# The memory slots of a KVM virtual machine

`mem_map` of `api/memmap.cc` keeps the slot numbers that are not in use in a stack, and a `mem_slot`
takes one from it and gives it back. The slots are registered with `set_memory_region`, whose every
call may throw. A run is any sequence of constructions, destructions and `set_dirty_logging`s, with
any of the calls throwing.

A constructor whose registration throws does not give its number back, because the destructor of an
object that was not built does not run, and neither does the destructor of a slot of size 0. Every
number of a `mem_map` is accounted for after a run if and only if no such step was made
(`MemMap.run_accounted`).
-/

set_option linter.unusedSectionVars false

namespace AcrnUt

/-! ## The code -/

/-- `KVM_MEM_LOG_DIRTY_PAGES`. -/
def kvmMemLogDirtyPages : BitVec 32 := 1

/-- The arguments of a call of `set_memory_region`. -/
structure MemoryRegion where
  slot : ℕ
  hva : BitVec 64
  gpa : BitVec 64
  size : BitVec 64
  flags : BitVec 32

/-- `struct mem_slot`, without the reference to its map. -/
structure MemSlot where
  slot : ℕ
  gpa : BitVec 64
  size : BitVec 64
  hva : BitVec 64
  dirtyLogEnabled : Bool
  log : List (BitVec 64)

/-- What `mem_slot::update` asks of `set_memory_region`. -/
def MemSlot.update (m : MemSlot) : MemoryRegion :=
  ⟨m.slot, m.hva, m.gpa, m.size, if m.dirtyLogEnabled then kvmMemLogDirtyPages else 0⟩

/-- The words of the dirty log of `size` bytes, as the `int` that `set_dirty_logging` computes. -/
def logsize (size : BitVec 64) : BitVec 32 :=
  (((size >>> 12) + 63) / 64).setWidth 32

/-- `_log.resize`. -/
def resizeLog (log : List (BitVec 64)) (n : ℕ) : List (BitVec 64) :=
  log.take n ++ List.replicate (n - log.length) 0

/-- `struct mem_map` with the slots that live on it, and the calls of `set_memory_region` so far,
each with whether it threw. -/
structure MemMap (Obj : Type*) where
  freeSlots : List ℕ
  slots : Obj → Option MemSlot
  calls : List (MemoryRegion × Bool)

namespace MemMap

variable {Obj : Type*} [DecidableEq Obj]

/-- `mem_map::mem_map`, for `n` slots : the last number is on top. -/
def init (n : ℕ) : MemMap Obj :=
  ⟨(List.range n).reverse, fun _ => none, []⟩

/-- A call of `set_memory_region`. -/
def setMemoryRegion (r : MemoryRegion) (throws : Bool) (s : MemMap Obj) : MemMap Obj :=
  { s with calls := s.calls ++ [(r, throws)] }

/-- `mem_slot::mem_slot`. It needs a number on the stack. -/
def construct (o : Obj) (gpa size hva : BitVec 64) (throws : Bool) (s : MemMap Obj) :
    Option (MemMap Obj) :=
  match s.freeSlots with
  | [] => none
  | slot :: rest =>
    let m : MemSlot := ⟨slot, gpa, size, hva, false, []⟩
    let s := { s with freeSlots := rest }
    if size = 0 then
      some { s with slots := Function.update s.slots o (some m) }
    else
      let s := s.setMemoryRegion m.update throws
      if throws then some s
      else some { s with slots := Function.update s.slots o (some m) }

/-- `mem_slot::~mem_slot`. -/
def destroy (o : Obj) (m : MemSlot) (throws : Bool) (s : MemMap Obj) : MemMap Obj :=
  let s := { s with slots := Function.update s.slots o none }
  if m.size = 0 then s
  else
    let m := { m with size := 0 }
    let s := s.setMemoryRegion m.update throws
    -- can't do much if we can't undo slot registration - leak the slot
    if throws then s
    else { s with freeSlots := m.slot :: s.freeSlots }

/-- `mem_slot::set_dirty_logging`. `noMem` : the log cannot be resized, as when the size is a
negative `int`. The slot keeps what was assigned before an exception. -/
def setDirtyLogging (o : Obj) (m : MemSlot) (enabled noMem throws : Bool) (s : MemMap Obj) :
    MemMap Obj :=
  if m.dirtyLogEnabled = enabled then s
  else
    let m := { m with dirtyLogEnabled := enabled }
    if enabled ∧ (noMem ∨ (logsize m.size).msb) then
      { s with slots := Function.update s.slots o (some m) }
    else
      let m := { m with log := resizeLog m.log (if enabled then (logsize m.size).toNat else 0) }
      let s := { s with slots := Function.update s.slots o (some m) }
      if m.size = 0 then s else s.setMemoryRegion m.update throws

/-! ## Runs -/

/-- What a program does with its slots. -/
inductive Op (Obj : Type*) where
  | construct (o : Obj) (gpa size hva : BitVec 64)
  | destroy (o : Obj)
  | setDirtyLogging (o : Obj) (enabled noMem : Bool)

/-- An operation, and whether `set_memory_region` throws if the operation calls it. -/
structure Event (Obj : Type*) where
  op : Op Obj
  throws : Bool

/-- An event. Only what does not live is built, and only what lives is used or destroyed. -/
def step (s : MemMap Obj) (e : Event Obj) : Option (MemMap Obj) :=
  match e.op with
  | .construct o gpa size hva =>
    match s.slots o with
    | none => s.construct o gpa size hva e.throws
    | some _ => none
  | .destroy o => (s.slots o).map fun m => s.destroy o m e.throws
  | .setDirtyLogging o enabled noMem =>
    (s.slots o).map fun m => s.setDirtyLogging o m enabled noMem e.throws

/-- The state after events on a `mem_map` of `n` slots, with each event and the state it is made
in. -/
inductive Run (n : ℕ) : List (MemMap Obj × Event Obj) → MemMap Obj → Prop
  | init : Run n [] (init n)
  | step {steps : List (MemMap Obj × Event Obj)} {s s' : MemMap Obj} {e : Event Obj} :
      Run n steps s → s.step e = some s' → Run n (steps ++ [(s, e)]) s'

/-- `o` owns the number `i`. -/
def Owns (s : MemMap Obj) (o : Obj) (i : ℕ) : Prop :=
  ∃ m, s.slots o = some m ∧ m.slot = i

/-- The number `i` could not be unregistered. -/
def Lost (s : MemMap Obj) (i : ℕ) : Prop :=
  ∃ r, (r, true) ∈ s.calls ∧ r.slot = i ∧ r.size = 0

/-- Every number is free exactly once or owned by exactly one slot, except those that could not be
unregistered. -/
def Accounted (n : ℕ) (s : MemMap Obj) : Prop :=
  ∀ i < n, ¬s.Lost i →
    (s.freeSlots.count i = 1 ∧ ∀ o, ¬s.Owns o i) ∨ (s.freeSlots.count i = 0 ∧ ∃! o, s.Owns o i)

/-- The steps that do not give a number back : a constructor whose registration throws, and the
destructor of a slot of size 0. -/
def Leaks (s : MemMap Obj) (e : Event Obj) : Prop :=
  match e.op with
  | .construct _ _ size _ => size ≠ 0 ∧ e.throws
  | .destroy o => ∃ m, s.slots o = some m ∧ m.size = 0
  | .setDirtyLogging _ _ _ => False

/-! ## The fate of a number -/

/-- Where a number is. A number that is `gone` is nowhere, as are those of no slot. -/
inductive Fate (Obj : Type*) where
  | free
  | owned (o : Obj)
  | lost
  | gone

/-- The state has every number where `fate` says. -/
structure Books (fate : ℕ → Fate Obj) (s : MemMap Obj) : Prop where
  nodup : s.freeSlots.Nodup
  free : ∀ i, i ∈ s.freeSlots ↔ fate i = .free
  owned : ∀ o i, s.Owns o i ↔ fate i = .owned o
  lost : ∀ i, s.Lost i ↔ fate i = .lost

section Steps

variable {s s' : MemMap Obj} {fate : ℕ → Fate Obj} {o : Obj} {m : MemSlot} {i : ℕ} {rest : List ℕ}
  {gpa size hva : BitVec 64} {throws : Bool}

theorem Books.init (n : ℕ) :
    Books (fun i => if i < n then .free else .gone) (init n : MemMap Obj) where
  nodup := List.nodup_reverse.mpr List.nodup_range
  free i := by
    show i ∈ (List.range n).reverse ↔ _
    rw [List.mem_reverse, List.mem_range]
    split <;> simp_all
  owned o i := by
    refine iff_of_false (fun ⟨m, hm, _⟩ => by cases hm) ?_
    split <;> simp
  lost i := by
    refine iff_of_false (fun ⟨r, hr, _⟩ => absurd hr List.not_mem_nil) ?_
    split <;> simp

/-- Each number is accounted for if and only if none below `n` is gone. -/
theorem Books.accounted_iff (h : Books fate s) (n : ℕ) :
    s.Accounted n ↔ ∀ i < n, fate i ≠ .gone := by
  have hcount : ∀ i, s.freeSlots.count i = 1 ↔ fate i = .free := fun i => by
    rw [← h.free, ← List.count_pos_iff]
    have := List.nodup_iff_count_le_one.mp h.nodup i
    omega
  refine forall₂_congr fun i _ => ?_
  rw [h.lost, hcount, List.count_eq_zero, h.free]
  simp only [h.owned]
  cases hfate : fate i with
  | free => simp
  | owned o => simp
  | lost => simp
  | gone => simp

/-- A slot is put in the place of what `o` is. -/
theorem owns_update (h : s'.slots = Function.update s.slots o (some m)) (o' : Obj) (j : ℕ) :
    s'.Owns o' j ↔ (o' = o ∧ j = m.slot) ∨ (o' ≠ o ∧ s.Owns o' j) := by
  unfold Owns
  rw [h]
  simp only [update_iff]
  constructor
  · rintro ⟨m', ⟨rfl, hm⟩ | ⟨hne, hm⟩, rfl⟩
    · cases hm
      exact Or.inl ⟨rfl, rfl⟩
    · exact Or.inr ⟨hne, m', hm, rfl⟩
  · rintro (⟨rfl, rfl⟩ | ⟨hne, m', hm, rfl⟩)
    · exact ⟨m, Or.inl ⟨rfl, rfl⟩, rfl⟩
    · exact ⟨m', Or.inr ⟨hne, hm⟩, rfl⟩

/-- A slot is removed. -/
theorem owns_remove (h : s'.slots = Function.update s.slots o none) (o' : Obj) (j : ℕ) :
    s'.Owns o' j ↔ o' ≠ o ∧ s.Owns o' j := by
  unfold Owns
  rw [h]
  simp only [update_iff]
  constructor
  · rintro ⟨m', ⟨-, hm⟩ | ⟨hne, hm⟩, rfl⟩
    · cases hm
    · exact ⟨hne, m', hm, rfl⟩
  · rintro ⟨hne, m', hm, rfl⟩
    exact ⟨m', Or.inr ⟨hne, hm⟩, rfl⟩

/-- Only a call for size 0 that throws loses a number. -/
theorem lost_append {r : MemoryRegion} (h : s'.calls = s.calls ++ [(r, throws)]) (j : ℕ) :
    s'.Lost j ↔ s.Lost j ∨ (throws = true ∧ j = r.slot ∧ r.size = 0) := by
  unfold Lost
  rw [h]
  constructor
  · rintro ⟨r', hr, rfl, hsize⟩
    rcases List.mem_append.mp hr with hr | hr
    · exact Or.inl ⟨r', hr, rfl, hsize⟩
    · cases List.mem_singleton.mp hr
      exact Or.inr ⟨rfl, rfl, hsize⟩
  · rintro (⟨r', hr, hslot, hsize⟩ | ⟨rfl, rfl, hsize⟩)
    · exact ⟨r', List.mem_append_left _ hr, hslot, hsize⟩
    · exact ⟨r, List.mem_append_right _ (List.mem_singleton.mpr rfl), rfl, hsize⟩

theorem lost_append_of_ne {r : MemoryRegion} (h : s'.calls = s.calls ++ [(r, throws)])
    (hr : throws = true → r.size ≠ 0) (j : ℕ) : s'.Lost j ↔ s.Lost j := by
  rw [lost_append h]
  exact or_iff_left fun hlost => hr hlost.1 hlost.2.2

/-- What moves one number moves it in the books. -/
theorem Books.move (h : Books fate s) {f : Fate Obj} (hnodup : s'.freeSlots.Nodup)
    (hfree : ∀ j, j ∈ s'.freeSlots ↔ (j = i ∧ f = .free) ∨ (j ≠ i ∧ j ∈ s.freeSlots))
    (howned : ∀ o j, s'.Owns o j ↔ (j = i ∧ f = .owned o) ∨ (j ≠ i ∧ s.Owns o j))
    (hlost : ∀ j, s'.Lost j ↔ (j = i ∧ f = .lost) ∨ (j ≠ i ∧ s.Lost j)) :
    Books (Function.update fate i f) s' where
  nodup := hnodup
  free j := by rw [hfree, update_iff, h.free]
  owned o j := by rw [howned, update_iff, h.owned]
  lost j := by rw [hlost, update_iff, h.lost]

/-- The number on top of the stack moves elsewhere. -/
theorem Books.take (h : Books fate s) {f : Fate Obj} (hi : s.freeSlots = i :: rest)
    (hf : f ≠ .free) (hrest : s'.freeSlots = rest)
    (howned : ∀ o j, s'.Owns o j ↔ (j = i ∧ f = .owned o) ∨ s.Owns o j)
    (hlost : f ≠ .lost) (hlost' : ∀ j, s'.Lost j ↔ s.Lost j) :
    fate i ≠ .gone ∧ Books (Function.update fate i f) s' := by
  have hnodup := h.nodup
  rw [hi, List.nodup_cons] at hnodup
  have hfate : fate i = .free := (h.free i).mp (hi ▸ List.mem_cons_self)
  refine ⟨by simp [hfate], h.move (hrest ▸ hnodup.2) (fun j => ?_) (fun o j => ?_) fun j => ?_⟩
  · rw [hrest, hi, List.mem_cons]
    rcases eq_or_ne j i with rfl | hne
    · simp [hf, hnodup.1]
    · simp [hne]
  · rw [howned, h.owned]
    rcases eq_or_ne j i with rfl | hne
    · simp [hfate]
    · simp [hne]
  · rw [hlost', h.lost]
    rcases eq_or_ne j i with rfl | hne
    · simp [hfate, hlost]
    · simp [hne]

/-- The number of a slot that is destroyed moves elsewhere. -/
theorem Books.release (h : Books fate s) {f : Fate Obj} (hm : s.slots o = some m)
    (hf : ∀ o', f ≠ .owned o') (hslots : s'.slots = Function.update s.slots o none)
    (hfree : (f = .free ∧ s'.freeSlots = m.slot :: s.freeSlots) ∨
      (f ≠ .free ∧ s'.freeSlots = s.freeSlots))
    (hlost : ∀ j, s'.Lost j ↔ s.Lost j ∨ (f = .lost ∧ j = m.slot)) :
    fate m.slot ≠ .gone ∧ Books (Function.update fate m.slot f) s' := by
  have hfate : fate m.slot = .owned o := (h.owned o _).mp ⟨m, hm, rfl⟩
  have hnot : m.slot ∉ s.freeSlots := fun hmem => by
    rw [h.free, hfate] at hmem
    cases hmem
  refine ⟨by simp [hfate], h.move ?_ (fun j => ?_) (fun o' j => ?_) fun j => ?_⟩
  · rcases hfree with ⟨-, hfree⟩ | ⟨-, hfree⟩
    · rw [hfree]
      exact List.nodup_cons.mpr ⟨hnot, h.nodup⟩
    · rw [hfree]
      exact h.nodup
  · rcases hfree with ⟨rfl, hfree⟩ | ⟨hne, hfree⟩
    · rw [hfree, List.mem_cons]
      by_cases hj : j = m.slot <;> simp [hj]
    · rw [hfree]
      rcases eq_or_ne j m.slot with rfl | hj
      · simp [hne, hnot]
      · simp [hj]
  · rw [owns_remove hslots, h.owned]
    rcases eq_or_ne j m.slot with rfl | hj
    · simp [hfate, hf, eq_comm]
    · simp only [hj, false_and, false_or, ne_eq, not_false_eq_true, true_and, and_iff_right_iff_imp]
      -- What `o` owned was this number.
      rintro howns rfl
      obtain ⟨m', hm', rfl⟩ := (h.owned o' j).mpr howns
      rw [hm] at hm'
      cases hm'
      exact hj rfl
  · rw [hlost, h.lost]
    rcases eq_or_ne j m.slot with rfl | hj
    · simp [hfate]
    · simp [hj]

/-- A constructor leaks if its registration throws. -/
theorem Books.construct (h : Books fate s) (ho : s.slots o = none)
    (hs : s.construct o gpa size hva throws = some s') :
    ∃ i f, fate i ≠ .gone ∧ (f = .gone ↔ size ≠ 0 ∧ throws) ∧
      Books (Function.update fate i f) s' := by
  unfold MemMap.construct at hs
  rcases hfree : s.freeSlots with _ | ⟨i, rest⟩
  · rw [hfree] at hs
    cases hs
  rw [hfree] at hs
  dsimp only at hs
  suffices hmove : ∃ f, (f = .gone ↔ size ≠ 0 ∧ throws) ∧ fate i ≠ .gone ∧
      Books (Function.update fate i f) s' by
    obtain ⟨f, hf, hi, hbooks⟩ := hmove
    exact ⟨i, f, hi, hf, hbooks⟩
  -- The object owns the number once it is built.
  have howned : ∀ {s' : MemMap Obj} {m : MemSlot}, m.slot = i →
      s'.slots = Function.update s.slots o (some m) →
      ∀ o' j, s'.Owns o' j ↔ (j = i ∧ Fate.owned o = .owned o') ∨ s.Owns o' j := by
    intro s' m hm hslots o' j
    rw [owns_update hslots, hm, Fate.owned.injEq]
    rcases eq_or_ne o' o with rfl | hne
    · unfold Owns
      simp [ho]
    · simp [hne, hne.symm]
  by_cases hsize : size = 0
  · rw [if_pos hsize, Option.some.injEq] at hs
    subst hs
    exact ⟨.owned o, by simp [hsize], h.take hfree (by simp) rfl (howned rfl rfl) (by simp)
      fun j => Iff.rfl⟩
  · rw [if_neg hsize] at hs
    cases throws with
    | true =>
      rw [if_pos rfl, Option.some.injEq] at hs
      subst hs
      exact ⟨.gone, iff_of_true rfl ⟨hsize, rfl⟩,
        h.take hfree (by simp) rfl (fun o' j => (or_iff_right fun h => by cases h.2).symm) (by simp)
          (lost_append_of_ne rfl fun _ => hsize)⟩
    | false =>
      rw [if_neg (by simp), Option.some.injEq] at hs
      subst hs
      exact ⟨.owned o, by simp, h.take hfree (by simp) rfl (howned rfl rfl) (by simp)
        (lost_append_of_ne rfl fun h => by cases h)⟩

/-- A destructor leaks if the size is 0. -/
theorem Books.destroy (h : Books fate s) (throws : Bool) (hm : s.slots o = some m) :
    ∃ i f, fate i ≠ .gone ∧ (f = .gone ↔ m.size = 0) ∧
      Books (Function.update fate i f) (s.destroy o m throws) := by
  suffices hmove : ∃ f, (f = .gone ↔ m.size = 0) ∧ fate m.slot ≠ .gone ∧
      Books (Function.update fate m.slot f) (s.destroy o m throws) by
    obtain ⟨f, hf, hi, hbooks⟩ := hmove
    exact ⟨m.slot, f, hi, hf, hbooks⟩
  unfold MemMap.destroy
  by_cases hsize : m.size = 0
  · rw [if_pos hsize]
    exact ⟨.gone, iff_of_true rfl hsize, h.release hm (by simp) rfl (Or.inr ⟨by simp, rfl⟩)
      fun j => (or_iff_left fun h => by cases h.1).symm⟩
  · rw [if_neg hsize]
    cases throws with
    | true =>
      rw [if_pos rfl]
      exact ⟨.lost, iff_of_false (by simp) hsize,
        h.release hm (by simp) rfl (Or.inr ⟨by simp, rfl⟩) fun j =>
          (lost_append (s := s) rfl j).trans
          (or_congr_right ⟨fun h => ⟨rfl, h.2.1⟩, fun h => ⟨rfl, h.2, rfl⟩⟩)⟩
    | false =>
      rw [if_neg (by simp)]
      exact ⟨.free, iff_of_false (by simp) hsize, h.release hm (by simp) rfl (Or.inl ⟨rfl, rfl⟩)
        fun j => (lost_append_of_ne (s := s) rfl (fun h => by cases h) j).trans
          (or_iff_left fun h => by cases h.1).symm⟩

/-- `set_dirty_logging` leaves every number where it is. -/
theorem Books.setDirtyLogging (h : Books fate s) (hm : s.slots o = some m) (enabled noMem : Bool) :
    Books fate (s.setDirtyLogging o m enabled noMem throws) := by
  have hkeep : ∀ {s' : MemMap Obj} {m' : MemSlot},
      s'.slots = Function.update s.slots o (some m') → m'.slot = m.slot →
      s'.freeSlots = s.freeSlots → (∀ j, s'.Lost j ↔ s.Lost j) → Books fate s' := by
    intro s' m' hslots hslot hfree hlost
    refine ⟨hfree ▸ h.nodup, fun j => hfree ▸ h.free j, fun o' j => ?_,
      fun j => (hlost j).trans (h.lost j)⟩
    rw [← h.owned, owns_update hslots, hslot]
    rcases eq_or_ne o' o with rfl | hne
    · unfold Owns
      simp [hm, eq_comm]
    · simp [hne]
  unfold MemMap.setDirtyLogging
  split
  · exact h
  · dsimp only
    split
    · exact hkeep rfl rfl rfl fun j => Iff.rfl
    · split
      · exact hkeep rfl rfl rfl fun j => Iff.rfl
      · next hsize =>
        exact hkeep rfl rfl rfl (lost_append_of_ne rfl fun _ => hsize)

/-- A step moves one number, and it is gone where the step leaks. -/
theorem Books.step (h : Books fate s) {e : Event Obj} (hs : s.step e = some s') :
    ∃ i f, fate i ≠ .gone ∧ (f = .gone ↔ s.Leaks e) ∧ Books (Function.update fate i f) s' := by
  obtain ⟨op, throws⟩ := e
  unfold MemMap.step at hs
  cases op with
  | construct o gpa size hva =>
    dsimp only at hs
    split at hs
    · next ho => exact h.construct ho hs
    · cases hs
  | destroy o =>
    obtain ⟨m, hm, rfl⟩ := Option.map_eq_some_iff.mp hs
    obtain ⟨i, f, hi, hf, hbooks⟩ := h.destroy throws hm
    refine ⟨i, f, hi, hf.trans ⟨fun hsize => ⟨m, hm, hsize⟩, ?_⟩, hbooks⟩
    rintro ⟨m', hm', hsize⟩
    cases hm.symm.trans hm'
    exact hsize
  | setDirtyLogging o enabled noMem =>
    obtain ⟨m, hm, rfl⟩ := Option.map_eq_some_iff.mp hs
    have hfate : fate m.slot = .owned o := (h.owned o _).mp ⟨m, hm, rfl⟩
    refine ⟨m.slot, .owned o, by simp [hfate], iff_of_false (by simp) id, ?_⟩
    rw [← hfate, Function.update_eq_self]
    exact h.setDirtyLogging hm enabled noMem

variable {n : ℕ} {steps : List (MemMap Obj × Event Obj)}

/-- After a run, some number is gone if and only if a step leaked. -/
theorem Run.books (h : Run n steps s) :
    ∃ fate, Books fate s ∧ (∀ i, n ≤ i → fate i = .gone) ∧
      ((∃ i < n, fate i = .gone) ↔ ∃ p ∈ steps, p.1.Leaks p.2) := by
  induction h with
  | init =>
    refine ⟨_, .init n, fun i hi => if_neg (by omega), iff_of_false ?_ (by simp)⟩
    rintro ⟨i, hi, hgone⟩
    rw [if_pos hi] at hgone
    cases hgone
  | @step steps s s' e _ hs ih =>
    obtain ⟨fate, hbooks, hout, hiff⟩ := ih
    obtain ⟨i, f, hi, hf, hbooks'⟩ := hbooks.step hs
    have hin : i < n := Nat.lt_of_not_le fun hle => hi (hout i hle)
    refine ⟨_, hbooks', fun j hj => ?_, ?_⟩
    · rw [Function.update_of_ne (by omega)]
      exact hout j hj
    · -- What was gone stays gone, and the number of this step is gone if the step leaks.
      have hsplit : (∃ p ∈ steps ++ [(s, e)], p.1.Leaks p.2) ↔
          (∃ p ∈ steps, p.1.Leaks p.2) ∨ s.Leaks e := by
        simp [or_and_right, exists_or]
      rw [hsplit, ← hiff, ← hf]
      constructor
      · rintro ⟨j, hj, hgone⟩
        rcases update_cases hgone with ⟨-, rfl⟩ | ⟨-, hgone⟩
        · exact Or.inr rfl
        · exact Or.inl ⟨j, hj, hgone⟩
      · rintro (⟨j, hj, hgone⟩ | rfl)
        · refine ⟨j, hj, ?_⟩
          rw [Function.update_of_ne (by rintro rfl; exact hi hgone)]
          exact hgone
        · exact ⟨i, hin, Function.update_self ..⟩

/-- For every number of slots and every sequence of constructions, destructions and
`set_dirty_logging`s, with any calls of `set_memory_region` throwing, every number is accounted for
if and only if no constructor's registration threw and no slot of size 0 was destroyed. -/
theorem run_accounted (h : Run n steps s) :
    s.Accounted n ↔ ∀ p ∈ steps, ¬p.1.Leaks p.2 := by
  obtain ⟨fate, hbooks, -, hiff⟩ := h.books
  rw [hbooks.accounted_iff]
  have hneg := not_congr hiff
  push Not at hneg
  exact hneg

end Steps

/-- A slot is built, logs its dirty pages and is destroyed : both numbers are free again. -/
theorem run_accounted_destroyed : ∃ steps, ∃ s : MemMap Unit, Run 2 steps s ∧
    steps.map Prod.snd = [⟨.construct () 0x1000 0x2000 0x7000, false⟩,
      ⟨.setDirtyLogging () true false, false⟩, ⟨.destroy (), false⟩] ∧
    s.freeSlots = [1, 0] ∧ s.Accounted 2 := by
  have hinit : Run 2 [] (init 2 : MemMap Unit) := .init
  have hbuilt := hinit.step (e := ⟨.construct () 0x1000 0x2000 0x7000, false⟩) rfl
  have hlogged := hbuilt.step (e := ⟨.setDirtyLogging () true false, false⟩) rfl
  have hrun := hlogged.step (e := ⟨.destroy (), false⟩) rfl
  refine ⟨_, _, hrun, rfl, rfl, (run_accounted hrun).mpr ?_⟩
  simp only [List.nil_append, List.cons_append, List.forall_mem_cons]
  refine ⟨fun ⟨_, h⟩ => (by cases h), id, fun ⟨m, hm, hsize⟩ => ?_, fun _ h => (by cases h)⟩
  cases hm
  cases hsize

/-- No number is free, owned or lost. -/
theorem not_accounted_of_empty {s : MemMap Unit} (hfree : s.freeSlots = [])
    (hslots : s.slots () = none) (hcalls : ∀ r, (r, true) ∈ s.calls → r.size ≠ 0) :
    ¬s.Accounted 1 := by
  intro h
  rcases h 0 Nat.one_pos fun ⟨r, hr, _, hsize⟩ => hcalls r hr hsize with
    ⟨hcount, -⟩ | ⟨-, o, ⟨m, hm, -⟩, -⟩
  · rw [hfree] at hcount
    cases hcount
  · cases hslots.symm.trans hm

/-- The only number of a map is gone after a slot of size 0 was built and destroyed, and after a
constructor threw. The next constructor pops an empty stack. -/
theorem number_gone :
    (∃ steps, ∃ s : MemMap Unit, Run 1 steps s ∧
      steps.map Prod.snd = [⟨.construct () 0 0 0, false⟩, ⟨.destroy (), false⟩] ∧
      ¬s.Accounted 1 ∧ s.step ⟨.construct () 0x1000 0x2000 0x7000, false⟩ = none) ∧
    ∃ steps, ∃ s : MemMap Unit, Run 1 steps s ∧
      steps.map Prod.snd = [⟨.construct () 0x1000 0x2000 0x7000, true⟩] ∧
      ¬s.Accounted 1 ∧ s.step ⟨.construct () 0x1000 0x2000 0x7000, false⟩ = none := by
  have hinit : Run 1 [] (init 1 : MemMap Unit) := .init
  have hempty := (hinit.step (e := ⟨.construct () 0 0 0, false⟩) rfl).step
    (e := ⟨.destroy (), false⟩) rfl
  have hthrown := hinit.step (e := ⟨.construct () 0x1000 0x2000 0x7000, true⟩) rfl
  refine ⟨⟨_, _, hempty, rfl, not_accounted_of_empty rfl rfl fun r hr => ?_, rfl⟩,
    ⟨_, _, hthrown, rfl, not_accounted_of_empty rfl rfl fun r hr => ?_, rfl⟩⟩
  · cases hr
  · cases List.mem_singleton.mp hr
    intro h
    cases h

end MemMap

end AcrnUt
