import Mathlib.Logic.Function.Basic
import Mathlib.Logic.Relation

/-!
# Critical sections as single steps

Threads with private states share a state, which they touch between the acquisition and the
release of one lock and nowhere else (`Program`). The lock is code of its own, whose steps
interleave with those of the threads (`Lock`). It excludes if it can only be acquired while no
thread holds it (`Excludes`).

A run over a lock that excludes is a run in which each section is one step, made at its release
(`Sections.run_atomic`). So what whole sections keep of the shared state holds whenever no thread
is inside one, and what they keep of a thread holds whenever it is outside
(`Sections.invariant`).
-/

set_option linter.unusedSectionVars false

namespace AcrnUt

namespace Sections

/-- What a thread does next : nothing, a step on its private state, the acquisition, an access to
the shared state, or the release. -/
inductive Action (S L : Type*)
  | stop
  | own (l : L)
  | acquire (l : L)
  | access (f : S → S × L)
  | release (l : L)

/-- The threads' code, with the private states that are inside a section. -/
structure Program (T S L : Type*) where
  next : T → L → Action S L
  Inside : T → L → Prop
  own {t l l'} : next t l = .own l' → (Inside t l' ↔ Inside t l)
  acquire {t l l'} : next t l = .acquire l' → ¬ Inside t l ∧ Inside t l'
  access {t l f} : next t l = .access f → Inside t l ∧ ∀ s, Inside t (f s).2
  release {t l l'} : next t l = .release l' → Inside t l ∧ ¬ Inside t l'

/-- The steps of a lock's code : inside the acquisition or the release, or the last of one. -/
inductive Label
  | internal
  | acquired
  | released

/-- The code of a lock, as the steps a thread makes in it on the lock's state. -/
structure Lock (T W : Type*) where
  step : T → Label → W → W → Prop

/-- From `w₀`, a thread acquires the lock only while none holds it. -/
structure Excludes {T W : Type*} (k : Lock T W) (w₀ : W) where
  Ok : W → Prop
  Holds : W → T → Prop
  start : Ok w₀ ∧ ∀ t, ¬ Holds w₀ t
  internal {t w w'} : Ok w → k.step t .internal w w' → Ok w' ∧ ∀ u, Holds w' u ↔ Holds w u
  acquired {t w w'} : Ok w → k.step t .acquired w w' →
    Ok w' ∧ (∀ u, ¬ Holds w u) ∧ ∀ u, Holds w' u ↔ u = t
  released {t w w'} : Ok w → Holds w t → k.step t .released w w' → Ok w' ∧ ∀ u, ¬ Holds w' u

end Sections

/-- The state of the lock, the shared state, and the threads' private states. -/
structure Sections (T S L W : Type*) where
  lock : W
  shared : S
  thread : T → L

namespace Sections

variable {T S L W : Type*} [DecidableEq T]

/-- One step of thread `t`. While it acquires or releases, the steps are those of the lock. -/
inductive Step (P : Program T S L) (k : Lock T W) (t : T) (s : Sections T S L W) :
    Sections T S L W → Prop
  | own {l : L} : P.next t (s.thread t) = .own l →
      Step P k t s { s with thread := Function.update s.thread t l }
  | acquiring {l : L} {w : W} : P.next t (s.thread t) = .acquire l →
      k.step t .internal s.lock w → Step P k t s { s with lock := w }
  | acquired {l : L} {w : W} : P.next t (s.thread t) = .acquire l →
      k.step t .acquired s.lock w →
      Step P k t s { s with lock := w, thread := Function.update s.thread t l }
  | access {f : S → S × L} : P.next t (s.thread t) = .access f →
      Step P k t s { s with
        shared := (f s.shared).1
        thread := Function.update s.thread t (f s.shared).2 }
  | releasing {l : L} {w : W} : P.next t (s.thread t) = .release l →
      k.step t .internal s.lock w → Step P k t s { s with lock := w }
  | released {l : L} {w : W} : P.next t (s.thread t) = .release l →
      k.step t .released s.lock w →
      Step P k t s { s with lock := w, thread := Function.update s.thread t l }

/-- The states that are reached from `s₀`, whichever thread makes each step. -/
def Run (P : Program T S L) (k : Lock T W) (s₀ s : Sections T S L W) : Prop :=
  Relation.ReflTransGen (fun s s' => ∃ t, Step P k t s s') s₀ s

/-- The states that are reached from `s₀` while thread `t` alone makes steps. -/
def RunAlone (P : Program T S L) (k : Lock T W) (t : T) (s₀ s : Sections T S L W) : Prop :=
  Relation.ReflTransGen (Step P k t) s₀ s

section RunAlone

variable {P : Program T S L} {k : Lock T W} {t : T} {s s' : Sections T S L W}

theorem Step.run (h : Step P k t s s') : Run P k s s' :=
  .single ⟨t, h⟩

theorem RunAlone.run (h : RunAlone P k t s s') : Run P k s s' :=
  Relation.ReflTransGen.mono (fun _ _ hs => ⟨t, hs⟩) _ _ h

/-- A thread that acquires may go on in the lock's code. -/
theorem RunAlone.acquiring {l : L} {w : W} (hn : P.next t (s.thread t) = .acquire l)
    (h : Relation.ReflTransGen (k.step t .internal) s.lock w) :
    RunAlone P k t s { s with lock := w } := by
  induction h with
  | refl => exact .refl
  | tail _ hk ih => exact ih.tail (.acquiring hn hk)

end RunAlone

/-! ## Whole sections -/

/-- One step of a thread inside a section, on the shared state and its own. -/
inductive Within (P : Program T S L) (t : T) : S × L → S × L → Prop
  | own {s : S} {l l' : L} : P.next t l = .own l' → Within P t (s, l) (s, l')
  | access {s : S} {l : L} {f : S → S × L} : P.next t l = .access f → Within P t (s, l) (f s)

/-- A section, from the acquisition to the release. -/
def Section (P : Program T S L) (t : T) (s : S) (l : L) (s' : S) (l' : L) : Prop :=
  ∃ l₁ l₂, P.next t l = .acquire l₁ ∧ Relation.ReflTransGen (Within P t) (s, l₁) (s', l₂) ∧
    P.next t l₂ = .release l'

/-- One step where sections are single steps. -/
inductive AtomicStep (P : Program T S L) : S × (T → L) → S × (T → L) → Prop
  | own {s : S} {th : T → L} {t : T} {l : L} : ¬ P.Inside t (th t) → P.next t (th t) = .own l →
      AtomicStep P (s, th) (s, Function.update th t l)
  | whole {s s' : S} {th : T → L} {t : T} {l : L} : Section P t s (th t) s' l →
      AtomicStep P (s, th) (s', Function.update th t l)

/-- The states that are reached from `a₀` where sections are single steps. -/
def AtomicRun (P : Program T S L) (a₀ a : S × (T → L)) : Prop :=
  Relation.ReflTransGen (AtomicStep P) a₀ a

section Simulation

variable {P : Program T S L} {k : Lock T W} {s s' s₀ : Sections T S L W} {a : S × (T → L)}

/-- No thread is inside a section. -/
def Quiet (P : Program T S L) (s : Sections T S L W) : Prop :=
  ∀ t, ¬ P.Inside t (s.thread t)

/-- `a` is `s` with the section of the thread that is inside one not begun. -/
structure Simulates {w₀ : W} (P : Program T S L) (E : Excludes k w₀) (a : S × (T → L))
    (s : Sections T S L W) : Prop where
  ok : E.Ok s.lock
  holds : ∀ t, E.Holds s.lock t ↔ P.Inside t (s.thread t)
  alone : ∀ t u, P.Inside t (s.thread t) → P.Inside u (s.thread u) → t = u
  outside : ∀ t, ¬ P.Inside t (s.thread t) → a.2 t = s.thread t
  quiet : Quiet P s → a.1 = s.shared
  inside : ∀ t, P.Inside t (s.thread t) → ∃ l₁, P.next t (a.2 t) = .acquire l₁ ∧
    Relation.ReflTransGen (Within P t) (a.1, l₁) (s.shared, s.thread t)

variable {w₀ : W} {E : Excludes k w₀}

/-- A thread that steps outside every section makes the same step of `a`. -/
theorem Simulates.own_outside (h : Simulates P E a s) {t : T} {l : L}
    (hn : P.next t (s.thread t) = .own l) (ht : ¬ P.Inside t (s.thread t)) :
    Simulates P E (a.1, Function.update a.2 t l)
      { s with thread := Function.update s.thread t l } := by
  have hin : ∀ u, P.Inside u (Function.update s.thread t l u) ↔ P.Inside u (s.thread u) := by
    intro u
    rcases eq_or_ne u t with rfl | hne
    · simpa using P.own hn
    · simp [hne]
  refine ⟨h.ok, fun u => (h.holds u).trans (hin u).symm, ?_, ?_, ?_, ?_⟩
  · intro u v hu hv
    exact h.alone u v ((hin u).mp hu) ((hin v).mp hv)
  · intro u hu
    rcases eq_or_ne u t with rfl | hne
    · simp
    · simpa [hne] using h.outside u fun hu' => hu ((hin u).mpr hu')
  · exact fun hq => h.quiet fun u hu => hq u ((hin u).mpr hu)
  · intro u hu
    have hu' := (hin u).mp hu
    have hne : u ≠ t := fun e => ht (e ▸ hu')
    simpa [hne] using h.inside u hu'

/-- A step inside a section is not seen in `a`. -/
theorem Simulates.within (h : Simulates P E a s) {t : T} {y : S × L}
    (hin : P.Inside t (s.thread t)) (hin' : P.Inside t y.2)
    (hw : Within P t (s.shared, s.thread t) y) :
    Simulates P E a
      { s with shared := y.1, thread := Function.update s.thread t y.2 } := by
  have hiff : ∀ u, P.Inside u (Function.update s.thread t y.2 u) ↔ P.Inside u (s.thread u) := by
    intro u
    rcases eq_or_ne u t with rfl | hne
    · simp [hin, hin']
    · simp [hne]
  refine ⟨h.ok, fun u => (h.holds u).trans (hiff u).symm, ?_, ?_, ?_, ?_⟩
  · intro u v hu hv
    exact h.alone u v ((hiff u).mp hu) ((hiff v).mp hv)
  · intro u hu
    have hu' : ¬ P.Inside u (s.thread u) := fun e => hu ((hiff u).mpr e)
    have hne : u ≠ t := fun e => hu' (e ▸ hin)
    simpa [hne] using h.outside u hu'
  · exact fun hq => absurd ((hiff t).mpr hin) (hq t)
  · intro u hu
    obtain rfl : u = t := h.alone u t ((hiff u).mp hu) hin
    obtain ⟨l₁, hl₁, hrun⟩ := h.inside u hin
    refine ⟨l₁, hl₁, ?_⟩
    simpa using hrun.tail hw

/-- Nor is a step of the lock's code that is not its last. -/
theorem Simulates.internal (h : Simulates P E a s) {t : T} {w : W}
    (hk : k.step t .internal s.lock w) : Simulates P E a { s with lock := w } := by
  obtain ⟨hok, hh⟩ := E.internal h.ok hk
  exact ⟨hok, fun u => (hh u).trans (h.holds u), h.alone, h.outside, h.quiet, h.inside⟩

/-- The lock is acquired while no thread is inside, and the section then begins at `a`. -/
theorem Simulates.acquired (h : Simulates P E a s) {t : T} {l : L} {w : W}
    (hn : P.next t (s.thread t) = .acquire l) (hk : k.step t .acquired s.lock w) :
    Simulates P E a { s with lock := w, thread := Function.update s.thread t l } := by
  obtain ⟨hok, hfree, hh⟩ := E.acquired h.ok hk
  have hquiet : Quiet P s := fun u hu => hfree u ((h.holds u).mpr hu)
  have hin : ∀ u, P.Inside u (Function.update s.thread t l u) ↔ u = t := by
    intro u
    rcases eq_or_ne u t with rfl | hne
    · simpa using (P.acquire hn).2
    · simpa [hne] using hquiet u
  refine ⟨hok, fun u => (hh u).trans (hin u).symm, ?_, ?_, ?_, ?_⟩
  · intro u v hu hv
    rw [(hin u).mp hu, (hin v).mp hv]
  · intro u hu
    have hne : u ≠ t := fun e => hu ((hin u).mpr e)
    simpa [hne] using h.outside u (hquiet u)
  · exact fun hq => absurd ((hin t).mpr rfl) (hq t)
  · intro u hu
    obtain rfl := (hin u).mp hu
    refine ⟨l, ?_, ?_⟩
    · rwa [h.outside u (hquiet u)]
    · rw [h.quiet hquiet]
      simp [Relation.ReflTransGen.refl]

/-- At the release, the section is a step of `a`. -/
theorem Simulates.released (h : Simulates P E a s) {t : T} {l : L} {w : W}
    (hn : P.next t (s.thread t) = .release l) (hk : k.step t .released s.lock w) :
    AtomicStep P a (s.shared, Function.update a.2 t l) ∧
      Simulates P E (s.shared, Function.update a.2 t l)
        { s with lock := w, thread := Function.update s.thread t l } := by
  obtain ⟨hin, hout⟩ := P.release hn
  obtain ⟨hok, hh⟩ := E.released h.ok ((h.holds t).mpr hin) hk
  have hnone : ∀ u, ¬ P.Inside u (Function.update s.thread t l u) := by
    intro u
    rcases eq_or_ne u t with rfl | hne
    · simpa using hout
    · simpa [hne] using fun hu => hne (h.alone u t hu hin)
  obtain ⟨l₁, hl₁, hrun⟩ := h.inside t hin
  refine ⟨.whole ⟨l₁, s.thread t, hl₁, hrun, hn⟩, hok, ?_, ?_, ?_, fun _ => rfl, ?_⟩
  · exact fun u => iff_of_false (hh u) (hnone u)
  · exact fun u _ hu => absurd hu (hnone u)
  · intro u hu
    rcases eq_or_ne u t with rfl | hne
    · simp
    · simpa [hne] using h.outside u fun hu' => hne (h.alone u t hu' hin)
  · exact fun u hu => absurd hu (hnone u)

/-- A step is a step of `a` or is not seen in it. -/
theorem Simulates.step (h : Simulates P E a s) {t : T} (hs : Step P k t s s') :
    ∃ a', Relation.ReflTransGen (AtomicStep P) a a' ∧ Simulates P E a' s' := by
  cases hs with
  | own hn =>
    by_cases ht : P.Inside t (s.thread t)
    · exact ⟨a, .refl, h.within ht ((P.own hn).mpr ht) (.own hn)⟩
    · refine ⟨_, .single (.own ?_ ?_), h.own_outside hn ht⟩
      · rwa [h.outside t ht]
      · rwa [h.outside t ht]
  | acquiring _ hk => exact ⟨a, .refl, h.internal hk⟩
  | acquired hn hk => exact ⟨a, .refl, h.acquired hn hk⟩
  | access hn =>
    obtain ⟨hin, hin'⟩ := P.access hn
    exact ⟨a, .refl, h.within hin (hin' s.shared) (.access hn)⟩
  | releasing _ hk => exact ⟨a, .refl, h.internal hk⟩
  | released hn hk =>
    obtain ⟨hstep, hsim⟩ := h.released hn hk
    exact ⟨_, .single hstep, hsim⟩

/-- A run from a start at which no thread is inside is a run of whole sections. -/
theorem run_atomic (E : Excludes k s₀.lock) (hquiet : Quiet P s₀) (h : Run P k s₀ s) :
    ∃ a, AtomicRun P (s₀.shared, s₀.thread) a ∧ Simulates P E a s := by
  induction h with
  | refl =>
    refine ⟨_, .refl, E.start.1, ?_, ?_, fun _ _ => rfl, fun _ => rfl, ?_⟩
    · exact fun t => iff_of_false (E.start.2 t) (hquiet t)
    · exact fun t _ ht => absurd ht (hquiet t)
    · exact fun t ht => absurd ht (hquiet t)
  | tail _ hstep ih =>
    obtain ⟨a, hrun, hsim⟩ := ih
    obtain ⟨t, hstep⟩ := hstep
    obtain ⟨a', hrun', hsim'⟩ := hsim.step hstep
    exact ⟨a', hrun.trans hrun', hsim'⟩

/-- No two threads are inside their sections. -/
theorem exclusive (E : Excludes k s₀.lock) (hquiet : Quiet P s₀) (h : Run P k s₀ s) {t u : T}
    (ht : P.Inside t (s.thread t)) (hu : P.Inside u (s.thread u)) : t = u := by
  obtain ⟨a, -, hsim⟩ := run_atomic E hquiet h
  exact hsim.alone t u ht hu

/-! ## Invariants of whole sections -/

variable {I : S → Prop} {J : T → L → Prop}

/-- What sections and private steps keep of the shared state and of each thread, a run of whole
sections keeps. -/
theorem AtomicRun.invariant {a₀ : S × (T → L)} (h : AtomicRun P a₀ a) (hI : I a₀.1)
    (hJ : ∀ t, J t (a₀.2 t))
    (hown : ∀ {t l l'}, J t l → ¬ P.Inside t l → P.next t l = .own l' → J t l')
    (hsec : ∀ {t s l s' l'}, I s → J t l → Section P t s l s' l' → I s' ∧ J t l') :
    I a.1 ∧ ∀ t, J t (a.2 t) := by
  induction h with
  | refl => exact ⟨hI, hJ⟩
  | tail _ hstep ih =>
    obtain ⟨ihI, ihJ⟩ := ih
    cases hstep with
    | @own s th t l hout hn =>
      refine ⟨ihI, fun u => ?_⟩
      rcases eq_or_ne u t with rfl | hne
      · simpa using hown (ihJ u) hout hn
      · simpa [hne] using ihJ u
    | @whole s s' th t l hs =>
      obtain ⟨hI', hJ'⟩ := hsec ihI (ihJ t) hs
      refine ⟨hI', fun u => ?_⟩
      rcases eq_or_ne u t with rfl | hne
      · simpa using hJ'
      · simpa [hne] using ihJ u

/-- So it holds of a run over a lock that excludes : of the shared state while no thread is
inside, and of every thread that is outside. -/
theorem invariant (E : Excludes k s₀.lock) (hquiet : Quiet P s₀) (h : Run P k s₀ s)
    (hI : I s₀.shared) (hJ : ∀ t, J t (s₀.thread t))
    (hown : ∀ {t l l'}, J t l → ¬ P.Inside t l → P.next t l = .own l' → J t l')
    (hsec : ∀ {t s l s' l'}, I s → J t l → Section P t s l s' l' → I s' ∧ J t l') :
    (Quiet P s → I s.shared) ∧ ∀ t, ¬ P.Inside t (s.thread t) → J t (s.thread t) := by
  obtain ⟨a, hrun, hsim⟩ := run_atomic E hquiet h
  obtain ⟨hIa, hJa⟩ := hrun.invariant hI hJ hown hsec
  refine ⟨fun hq => hsim.quiet hq ▸ hIa, fun t ht => ?_⟩
  rw [← hsim.outside t ht]
  exact hJa t

end Simulation

end Sections

end AcrnUt
