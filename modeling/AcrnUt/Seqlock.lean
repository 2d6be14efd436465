import Mathlib.Tactic

/-!
# Records that change in versions

A writer changes a record word by word, between the start and the end of an update, and a
reader loads its words one by one at the same time. The clock of a record (`Versioned`)
counts the starts and the ends, so it is odd during an update, and the contents at the end
of each update are recorded. Between two updates the record holds its last version
(`Versioned.Sound`).

A reader that finds the clock where it was when it started, at rest, has loaded words of one
version only (`Versioned.Snapshot.content`). How a reader finds that out is up to the
protocol : what it sees of the clock is a sequence word.
-/

set_option linter.unusedSectionVars false

namespace AcrnUt

variable {ι α : Type*} [DecidableEq ι]

/-- A record, with its clock and the contents of its versions so far. -/
structure Versioned (ι α : Type*) where
  clock : ℕ
  mem : ι → α
  versions : List (ι → α)

theorem getElem?_of_prefix {l l' : List α} (h : l <+: l') {k : ℕ} {a : α}
    (hk : l[k]? = some a) : l'[k]? = some a := by
  obtain ⟨hlt, -⟩ := List.getElem?_eq_some_iff.mp hk
  obtain ⟨m, rfl⟩ := h
  rwa [List.getElem?_append_left hlt]

namespace Versioned

/-- A record that has not been updated. -/
def init (mem : ι → α) : Versioned ι α :=
  ⟨0, mem, [mem]⟩

/-- A step of the writer. -/
inductive Update (v : Versioned ι α) : Versioned ι α → Prop
  | start : v.clock % 2 = 0 → Update v { v with clock := v.clock + 1 }
  | write {i : ι} {a : α} : v.clock % 2 = 1 →
      Update v { v with mem := Function.update v.mem i a }
  | finish : v.clock % 2 = 1 →
      Update v { v with clock := v.clock + 1, versions := v.versions ++ [v.mem] }

/-- The versions are those of the updates that have ended, and at rest the record holds the
last of them. -/
structure Sound (v : Versioned ι α) : Prop where
  length : v.versions.length = v.clock / 2 + 1
  rest : v.clock % 2 = 0 → v.versions[v.clock / 2]? = some v.mem

variable {v v' : Versioned ι α} {start : ℕ} {loaded : ι → Option α}

theorem init_sound (mem : ι → α) : (init mem).Sound :=
  ⟨by simp [init], fun _ => by simp [init]⟩

theorem Update.clock_le (h : v.Update v') : v.clock ≤ v'.clock := by
  cases h with
  | start => exact Nat.le_succ _
  | write => exact le_rfl
  | finish => exact Nat.le_succ _

theorem Update.versions_prefix (h : v.Update v') : v.versions <+: v'.versions := by
  cases h with
  | start => exact List.prefix_refl _
  | write => exact List.prefix_refl _
  | finish => exact List.prefix_append ..

/-- A version keeps its contents. -/
theorem Update.getElem?_versions (h : v.Update v') {k : ℕ} {content : ι → α}
    (hk : v.versions[k]? = some content) : v'.versions[k]? = some content :=
  getElem?_of_prefix h.versions_prefix hk

theorem Sound.update (h : v.Sound) (hu : v.Update v') : v'.Sound := by
  have hlen := h.length
  cases hu with
  | start heven =>
    refine ⟨?_, fun hodd => ?_⟩
    · show v.versions.length = (v.clock + 1) / 2 + 1
      omega
    · have hodd : (v.clock + 1) % 2 = 0 := hodd
      omega
  | write hodd =>
    refine ⟨hlen, fun heven => ?_⟩
    have heven : v.clock % 2 = 0 := heven
    omega
  | finish hodd =>
    have hidx : (v.clock + 1) / 2 = v.versions.length := by omega
    refine ⟨?_, fun _ => ?_⟩
    · show (v.versions ++ [v.mem]).length = (v.clock + 1) / 2 + 1
      rw [List.length_append, hidx]
      rfl
    · show (v.versions ++ [v.mem])[(v.clock + 1) / 2]? = some v.mem
      rw [hidx, List.getElem?_concat_length]

/-- What a reader has loaded since the clock was `start` : as long as the clock has not moved
and the record is at rest, its words. -/
structure Snapshot (v : Versioned ι α) (start : ℕ) (loaded : ι → Option α) : Prop where
  start_le : start ≤ v.clock
  words : v.clock = start → start % 2 = 0 → ∀ i a, loaded i = some a → a = v.mem i

theorem Snapshot.empty (v : Versioned ι α) : v.Snapshot v.clock fun _ => none :=
  ⟨le_rfl, nofun⟩

theorem Snapshot.load (h : v.Snapshot start loaded) (i : ι) :
    v.Snapshot start (Function.update loaded i (some (v.mem i))) where
  start_le := h.start_le
  words hclock heven j a hj := by
    rcases eq_or_ne j i with rfl | hne
    · rw [Function.update_self] at hj
      exact (Option.some.inj hj).symm
    · rw [Function.update_of_ne hne] at hj
      exact h.words hclock heven j a hj

/-- The writer may go on while the reader reads. -/
theorem Snapshot.update (h : v.Snapshot start loaded) (hu : v.Update v') :
    v'.Snapshot start loaded := by
  refine ⟨h.start_le.trans hu.clock_le, fun hclock heven i a hi => ?_⟩
  have hle := h.start_le
  cases hu with
  | start =>
    have hclock : v.clock + 1 = start := hclock
    omega
  | write hodd =>
    have hclock : v.clock = start := hclock
    omega
  | finish =>
    have hclock : v.clock + 1 = start := hclock
    omega

/-- Words loaded while the clock did not move, at rest, are of one version. -/
theorem Snapshot.content (h : v.Snapshot start loaded) (hv : v.Sound) (hclock : v.clock = start)
    (heven : start % 2 = 0) : ∃ content, v.versions[start / 2]? = some content ∧
      ∀ i a, loaded i = some a → a = content i :=
  ⟨v.mem, hclock ▸ hv.rest (hclock ▸ heven), h.words hclock heven⟩

end Versioned

end AcrnUt
