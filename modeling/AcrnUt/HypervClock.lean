import AcrnUt.Seqlock

/-!
# The Hyper-V reference clock

`hvclock_get_time_values` of `x86/hyperv_clock.c` copies the reference page of the hypervisor
between two looks at `tsc_sequence`, and tries again when they differ. The hypervisor marks
the start of an update by a number of its own and ends it with a new number.

The second look is at the copy. So the loop notices an update only if it began before the
copy came to `tsc_sequence` : if none has changed a word between that and the copy of the word,
the turn that exits has copied one update (`HvClock.snapshot_of_atRest`). One that does is not
seen (`HvClock.torn`).
-/

set_option linter.unusedSectionVars false

namespace AcrnUt

/-- The words of `struct hv_reference_tsc_page` that are copied, but for `tsc_sequence`. -/
inductive HvTscWord
  | scale
  | offset
  deriving DecidableEq

/-- `scale_delta` : the high word of the product. -/
def hvScaleDelta (delta mulFrac : BitVec 64) : BitVec 64 :=
  ((delta.setWidth 128 * mulFrac.setWidth 128) >>> 64).setWidth 64

/-- `hvclock_tsc_to_ticks`. -/
def hvclockTscToTicks (shadow : HvTscWord → BitVec 64) (tsc : BitVec 64) : BitVec 64 :=
  hvScaleDelta tsc (shadow .scale) + shadow .offset

/-- Where the reader is in `hvclock_get_time_values` : before the loop, in the copy with the
number it has seen first, the number it has copied and the words it has copied, or past the
loop with its shadow. The clock of the page at both looks is recorded. -/
inductive HvClockPc
  | begin
  | copying (seq : BitVec 32) (start : ℕ) (shadowSeq : Option (BitVec 32 × ℕ))
      (shadow : HvTscWord → Option (BitVec 64))
  | done (shadowSeq : BitVec 32) (shadow : HvTscWord → BitVec 64) (ticks : BitVec 64)

/-- The reference page, with the number of each of its versions, and the reader. The numbers
that the page has had since the reader's first look are recorded. -/
structure HvClock where
  page : Versioned HvTscWord (BitVec 64)
  tscSequence : BitVec 32
  numbers : List (BitVec 32)
  recent : List (BitVec 32)
  pc : HvClockPc

namespace HvClock

variable {mark : BitVec 32 → Prop}

/-- A page that has not been updated. -/
def init (seq : BitVec 32) (mem : HvTscWord → BitVec 64) : HvClock where
  page := .init mem
  tscSequence := seq
  numbers := [seq]
  recent := []
  pc := .begin

/-- No update was in progress when the clock was `c`, and none has changed the word since. -/
def AtRest (s : HvClock) (c : ℕ) (word : Option HvTscWord) : Prop :=
  c % 2 = 0 ∧ ∀ w ∈ word, s.page.versions[c / 2]?.map (· w) = some (s.page.mem w)

/-- A step of the hypervisor, whose numbers that mark an update are those of `mark`, or of the
reader. From its copy of `tsc_sequence` on, the reader copies where `cond` holds, for the
clock at that copy, if the number copied is the one it has seen first. -/
inductive Step (mark : BitVec 32 → Prop) (cond : HvClock → ℕ → Option HvTscWord → Prop)
    (s : HvClock) : HvClock → Prop
  | start {seq : BitVec 32} : s.page.clock % 2 = 0 → mark seq →
      Step mark cond s { s with
        page := { s.page with clock := s.page.clock + 1 }
        tscSequence := seq
        recent := s.recent ++ [seq] }
  | write {word : HvTscWord} {a : BitVec 64} : s.page.clock % 2 = 1 →
      Step mark cond s { s with
        page := { s.page with mem := Function.update s.page.mem word a } }
  | finish {seq : BitVec 32} : s.page.clock % 2 = 1 → ¬mark seq → seq ∉ s.recent →
      Step mark cond s { s with
        page := { s.page with
          clock := s.page.clock + 1
          versions := s.page.versions ++ [s.page.mem] }
        tscSequence := seq
        numbers := s.numbers ++ [seq]
        recent := s.recent ++ [seq] }
  | look : s.pc = .begin →
      Step mark cond s { s with
        recent := [s.tscSequence]
        pc := .copying s.tscSequence s.page.clock none fun _ => none }
  | copySequence {seq : BitVec 32} {start : ℕ} {shadow : HvTscWord → Option (BitVec 64)} :
      s.pc = .copying seq start none shadow →
      (s.tscSequence = seq → cond s s.page.clock none) →
      Step mark cond s { s with
        pc := .copying seq start (some (s.tscSequence, s.page.clock)) shadow }
  | copyWord {seq : BitVec 32} {start : ℕ} {shadowSeq : Option (BitVec 32 × ℕ)}
      {shadow : HvTscWord → Option (BitVec 64)} {word : HvTscWord} :
      s.pc = .copying seq start shadowSeq shadow → shadow word = none →
      (∀ c, shadowSeq = some (seq, c) → cond s c (some word)) →
      Step mark cond s { s with
        pc := .copying seq start shadowSeq
          (Function.update shadow word (some (s.page.mem word))) }
  | retry {seq q : BitVec 32} {start c : ℕ} {shadow : HvTscWord → Option (BitVec 64)}
      {src : HvTscWord → BitVec 64} : s.pc = .copying seq start (some (q, c)) shadow →
      (∀ word, shadow word = some (src word)) → q ≠ seq →
      Step mark cond s { s with pc := .begin }
  | exit {seq q : BitVec 32} {start c : ℕ} {shadow : HvTscWord → Option (BitVec 64)}
      {src : HvTscWord → BitVec 64} {tsc : BitVec 64} :
      s.pc = .copying seq start (some (q, c)) shadow →
      (∀ word, shadow word = some (src word)) → q = seq →
      Step mark cond s { s with pc := .done q src (hvclockTscToTicks src tsc) }
  | next {q : BitVec 32} {src : HvTscWord → BitVec 64} {ticks : BitVec 64} :
      s.pc = .done q src ticks → Step mark cond s { s with pc := .begin }

/-- The states that are reached from a page that has not been updated. -/
inductive Run (mark : BitVec 32 → Prop) (cond : HvClock → ℕ → Option HvTscWord → Prop) :
    HvClock → Prop
  | init {seq : BitVec 32} {mem : HvTscWord → BitVec 64} : ¬mark seq →
      Run mark cond (init seq mem)
  | step {s s' : HvClock} : Run mark cond s → s.Step mark cond s' → Run mark cond s'

/-- The number and the words are those of one update. -/
def Consistent (s : HvClock) (q : BitVec 32) (src : HvTscWord → BitVec 64) : Prop :=
  ∃ k : ℕ, s.numbers[k]? = some q ∧ s.page.versions[k]? = some src

/-- The copy so far is of the version `start / 2`. -/
def Partial (s : HvClock) (q : BitVec 32) (start : ℕ) (shadow : HvTscWord → Option (BitVec 64)) :
    Prop :=
  ∃ content, s.numbers[start / 2]? = some q ∧ s.page.versions[start / 2]? = some content ∧
    ∀ word a, shadow word = some a → a = content word

/-- The number on the page is a mark during an update, and else that of the last version. -/
structure Numbered (mark : BitVec 32 → Prop) (s : HvClock) : Prop where
  page : s.page.Sound
  length : s.numbers.length = s.page.clock / 2 + 1
  rest : s.page.clock % 2 = 0 →
    ¬mark s.tscSequence ∧ s.numbers[s.page.clock / 2]? = some s.tscSequence

/-- What the reader knows of the number `seq` it has seen when the clock was `start`. -/
structure Looked (s : HvClock) (seq : BitVec 32) (start : ℕ) : Prop where
  start_le : start ≤ s.page.clock
  mem : seq ∈ s.recent
  fresh : s.page.clock % 2 = 0 → s.tscSequence = seq → s.page.clock = start

/-- What holds at each point of the loop. -/
def PcInv (s : HvClock) : HvClockPc → Prop
  | .begin => True
  | .copying seq start none shadow => s.Looked seq start ∧ s.page.Snapshot start shadow
  | .copying seq start (some (q, c)) shadow =>
    s.Looked seq start ∧ (q = seq → c = start ∧ s.Partial q start shadow)
  | .done q src _ => s.Consistent q src

section Steps

variable {s s' : HvClock} {q seq : BitVec 32} {start c : ℕ}
  {shadow : HvTscWord → Option (BitVec 64)} {src : HvTscWord → BitVec 64}

/-- The hypervisor may work on the page at any point that the reader is at. -/
theorem PcInv.update (hpage : s.page.Update s'.page) (hnumbers : s.numbers <+: s'.numbers)
    (hlooked : ∀ {seq start}, s.Looked seq start → s'.Looked seq start) :
    ∀ {pc : HvClockPc}, s.PcInv pc → s'.PcInv pc
  | .begin, _ => trivial
  | .copying _ _ none _, ⟨hlook, hshadow⟩ => ⟨hlooked hlook, hshadow.update hpage⟩
  | .copying _ _ (some _) _, ⟨hlook, hshadow⟩ => by
    refine ⟨hlooked hlook, fun heq => ?_⟩
    obtain ⟨hc, content, hnumber, hcontent, hwords⟩ := hshadow heq
    exact ⟨hc, content, getElem?_of_prefix hnumbers hnumber, hpage.getElem?_versions hcontent,
      hwords⟩
  | .done _ _ _, ⟨k, hnumber, hcontent⟩ =>
    ⟨k, getElem?_of_prefix hnumbers hnumber, hpage.getElem?_versions hcontent⟩

/-- At rest the page holds the version whose number it shows. -/
theorem Numbered.partial_of_snapshot (h : s.Numbered mark) (hshadow : s.page.Snapshot start shadow)
    (hclock : s.page.clock = start) (heven : start % 2 = 0) :
    s.Partial s.tscSequence start shadow := by
  obtain ⟨content, hcontent, hwords⟩ := hshadow.content h.page hclock heven
  exact ⟨content, hclock ▸ (h.rest (hclock ▸ heven)).2, hcontent, hwords⟩

/-- A word that no update has changed is of the version of the number. -/
theorem Partial.copyWord {word : HvTscWord} (h : s.Partial q start shadow)
    (hrest : s.AtRest start (some word)) :
    s.Partial q start (Function.update shadow word (some (s.page.mem word))) := by
  obtain ⟨content, hnumber, hcontent, hwords⟩ := h
  have hmem := hrest.2 word rfl
  rw [hcontent, Option.map_some] at hmem
  refine ⟨content, hnumber, hcontent, fun w a hw => ?_⟩
  rcases eq_or_ne w word with rfl | hne
  · rw [Function.update_self] at hw
    rw [Option.some.inj hmem]
    exact (Option.some.inj hw).symm
  · rw [Function.update_of_ne hne] at hw
    exact hwords w a hw

/-- The loop exits with what it has copied. -/
theorem Partial.consistent (h : s.Partial q start shadow)
    (hsrc : ∀ word, shadow word = some (src word)) : s.Consistent q src := by
  obtain ⟨content, hnumber, hcontent, hwords⟩ := h
  have heq : src = content := funext fun word => hwords word _ (hsrc word)
  exact ⟨start / 2, hnumber, heq ▸ hcontent⟩

theorem Numbered.setPc (h : s.Numbered mark) (pc : HvClockPc) : Numbered mark { s with pc := pc } :=
  ⟨h.page, h.length, h.rest⟩

theorem Looked.setPc (h : s.Looked seq start) (pc : HvClockPc) :
    Looked { s with pc := pc } seq start :=
  ⟨h.start_le, h.mem, h.fresh⟩

theorem Step.inv (h : s.Step mark AtRest s') (hpage : s.Numbered mark) (hpc : s.PcInv s.pc) :
    s'.Numbered mark ∧ s'.PcInv s'.pc := by
  cases h with
  | start heven =>
    have hupdate := Versioned.Update.start heven
    refine ⟨⟨hpage.page.update hupdate, ?_, fun hodd => ?_⟩, ?_⟩
    · show s.numbers.length = (s.page.clock + 1) / 2 + 1
      rw [hpage.length]
      omega
    · have hodd : (s.page.clock + 1) % 2 = 0 := hodd
      omega
    · refine PcInv.update hupdate ?_ (fun hlook => ?_) hpc
      · exact List.prefix_refl s.numbers
      · refine ⟨Nat.le_succ_of_le hlook.start_le, List.mem_append_left _ hlook.mem, fun hodd => ?_⟩
        have hodd : (s.page.clock + 1) % 2 = 0 := hodd
        omega
  | @write word a hodd =>
    have hupdate := @Versioned.Update.write _ _ _ s.page word a hodd
    refine ⟨⟨hpage.page.update hupdate, hpage.length, hpage.rest⟩, ?_⟩
    refine PcInv.update hupdate ?_ (fun hlook => ?_) hpc
    · exact List.prefix_refl s.numbers
    · exact ⟨hlook.start_le, hlook.mem, hlook.fresh⟩
  | @finish new hodd hmark hnew =>
    have hupdate := Versioned.Update.finish hodd
    have hlen := hpage.length
    have hidx : (s.page.clock + 1) / 2 = s.numbers.length := by omega
    refine ⟨⟨hpage.page.update hupdate, ?_, fun _ => ⟨hmark, ?_⟩⟩, ?_⟩
    · show (s.numbers ++ [new]).length = (s.page.clock + 1) / 2 + 1
      rw [List.length_append, hidx]
      rfl
    · show (s.numbers ++ [new])[(s.page.clock + 1) / 2]? = some new
      rw [hidx, List.getElem?_concat_length]
    · refine PcInv.update hupdate (List.prefix_append s.numbers [new]) (fun hlook => ?_) hpc
      refine ⟨Nat.le_succ_of_le hlook.start_le, List.mem_append_left _ hlook.mem, ?_⟩
      rintro - rfl
      exact absurd hlook.mem hnew
  | look =>
    exact ⟨⟨hpage.page, hpage.length, hpage.rest⟩,
      ⟨le_rfl, List.mem_singleton_self _, fun _ _ => rfl⟩, .empty s.page⟩
  | copySequence heq hrest =>
    rw [heq] at hpc
    refine ⟨hpage.setPc _, hpc.1.setPc _, fun hseq => ?_⟩
    have heven := (hrest hseq).1
    have hclock := hpc.1.fresh heven hseq
    exact ⟨hclock, hpage.partial_of_snapshot hpc.2 hclock (hclock ▸ heven)⟩
  | @copyWord seq start shadowSeq shadow word heq _ hrest =>
    rw [heq] at hpc
    refine ⟨hpage.setPc _, ?_⟩
    cases shadowSeq with
    | none => exact ⟨hpc.1.setPc _, hpc.2.load word⟩
    | some qc =>
      obtain ⟨q, c⟩ := qc
      refine ⟨hpc.1.setPc _, fun hseq => ?_⟩
      subst hseq
      obtain ⟨rfl, hpart⟩ := hpc.2 rfl
      exact ⟨rfl, hpart.copyWord (hrest _ rfl)⟩
  | retry => exact ⟨hpage.setPc _, trivial⟩
  | exit heq hsrc hseq =>
    rw [heq] at hpc
    exact ⟨hpage.setPc _, (hpc.2 hseq).2.consistent hsrc⟩
  | next => exact ⟨hpage.setPc _, trivial⟩

theorem Run.inv (h : Run mark AtRest s) : s.Numbered mark ∧ s.PcInv s.pc := by
  induction h with
  | init hmark =>
    exact ⟨⟨Versioned.init_sound _, by simp [HvClock.init, Versioned.init],
      fun _ => ⟨hmark, by simp [HvClock.init, Versioned.init]⟩⟩, trivial⟩
  | step _ hstep ih => exact hstep.inv ih.1 ih.2

/-- In a run in which, for each turn that copies the number it has seen first, no update is in
progress at the copy of `tsc_sequence` or changes a word between that and the copy of the word, the
loop exits with the number and the words of one update. -/
theorem snapshot_of_atRest (h : Run mark AtRest s) {ticks : BitVec 64}
    (hpc : s.pc = .done q src ticks) : s.Consistent q src := by
  have hinv := h.inv.2
  rw [hpc] at hinv
  exact hinv

/-- A read that sees the mark of an update and tries again, and finishes its copy in the next
update, before that has written anything. -/
theorem snapshot_of_atRest_second : ∃ s : HvClock, ∃ src ticks, s.pc = .done 2 src ticks ∧
    s.page.clock = 3 ∧ src .scale = 7 ∧ s.Consistent 2 src := by
  have h := @Run.init (· = 0) AtRest 1 (fun _ => 3) (by decide)
  have h := h.step (.look rfl)
  have h := h.step (@Step.start _ _ _ 0 rfl rfl)
  have h := h.step (.copySequence rfl fun hseq => absurd hseq (by decide))
  have h := h.step (@Step.write _ _ _ .scale 7 rfl)
  have h := h.step (@Step.copyWord _ _ _ _ _ _ _ .scale rfl rfl fun _ hseq => by cases hseq)
  have h := h.step (@Step.copyWord _ _ _ _ _ _ _ .offset rfl rfl fun _ hseq => by cases hseq)
  have h := h.step (@Step.finish _ _ _ 2 rfl (by decide) (by decide))
  have h := h.step (@Step.retry _ _ _ _ _ _ _ _ (Function.update (fun _ => 3) .scale 7) rfl
    (by rintro (_ | _) <;> rfl) (by decide))
  have h := h.step (.look rfl)
  have h := h.step (.copySequence rfl fun _ => ⟨rfl, fun _ hword => by cases hword⟩)
  have h := h.step (@Step.start _ _ _ 0 rfl rfl)
  have h := h.step (@Step.copyWord _ _ _ _ _ _ _ .scale rfl rfl
    fun _ hseq => by cases hseq; exact ⟨rfl, fun _ hword => by cases hword; rfl⟩)
  have h := h.step (@Step.copyWord _ _ _ _ _ _ _ .offset rfl rfl
    fun _ hseq => by cases hseq; exact ⟨rfl, fun _ hword => by cases hword; rfl⟩)
  have h := h.step (@Step.exit _ _ _ _ _ _ _ _ (Function.update (fun _ => 3) .scale 7) 0 rfl
    (by rintro (_ | _) <;> rfl) rfl)
  exact ⟨_, _, _, rfl, rfl, rfl, snapshot_of_atRest h rfl⟩

/-- The copy takes `tsc_sequence` and the scale, an update runs, and the copy takes the new
offset. -/
theorem torn : ∃ s : HvClock, Run (· = 0) (fun _ _ _ => True) s ∧ ∃ src ticks,
    s.pc = .done 1 src ticks ∧ src .scale = 3 ∧ src .offset = 7 ∧ ¬s.Consistent 1 src := by
  obtain ⟨s, hrun, ⟨src, ticks, hpc, hscale, hoffset⟩, hnumbers, hversion⟩ : ∃ s : HvClock,
      Run (· = 0) (fun _ _ _ => True) s ∧ (∃ src ticks, s.pc = .done 1 src ticks ∧
        src .scale = 3 ∧ src .offset = 7) ∧ s.numbers = [1, 2] ∧
        s.page.versions[0]? = some fun _ => 3 := by
    have h := @Run.init (· = 0) (fun _ _ _ => True) 1 (fun _ => 3) (by decide)
    have h := h.step (.look rfl)
    have h := h.step (.copySequence rfl fun _ => trivial)
    have h := h.step (@Step.copyWord _ _ _ _ _ _ _ .scale rfl rfl fun _ _ => trivial)
    have h := h.step (@Step.start _ _ _ 0 rfl rfl)
    have h := h.step (@Step.write _ _ _ .scale 7 rfl)
    have h := h.step (@Step.write _ _ _ .offset 7 rfl)
    have h := h.step (@Step.finish _ _ _ 2 rfl (by decide) (by decide))
    have h := h.step (@Step.copyWord _ _ _ _ _ _ _ .offset rfl rfl fun _ _ => trivial)
    have h := h.step (@Step.exit _ _ _ _ _ _ _ _ (Function.update (fun _ => 3) .offset 7) 0 rfl
      (by rintro (_ | _) <;> rfl) rfl)
    exact ⟨_, h, ⟨_, _, rfl, rfl, rfl⟩, rfl, rfl⟩
  refine ⟨s, hrun, src, ticks, hpc, hscale, hoffset, fun ⟨k, hnumber, hcontent⟩ => ?_⟩
  rw [hnumbers] at hnumber
  match k with
  | 0 =>
    rw [hversion] at hcontent
    rw [← Option.some.inj hcontent] at hoffset
    exact absurd hoffset (by decide)
  | 1 => exact absurd (Option.some.inj hnumber) (by decide)
  | k + 2 => exact nomatch hnumber

end Steps

end HvClock

end AcrnUt
