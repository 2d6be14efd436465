import AcrnUt.Page
import AcrnUt.Seqlock

/-!
# The paravirtual clock

`pvclock_clocksource_read` of `x86/kvmclock.c`, in two parts. First the loop that reads a
snapshot of the time info of a CPU while the hypervisor updates it (`PvclockRead`). The
version is the clock of the page in 32 bits; the reader clears its lowest bit, so a version
that was odd is not found again before the counter wraps (`PvclockRead.snapshot_consistent`).

Then the loop that keeps the clock from going backwards (`PvclockCalls`) : any number of CPUs
read `last_value` and replace it by a compare-exchange that leaves the loop only on seeing the
value it was to write (`PvclockCalls.monotonic`).
-/

set_option linter.unusedSectionVars false

namespace AcrnUt

/-! ## Reading the time info -/

/-- The words of `struct pvclock_vcpu_time_info` that are read after the version, in 32 bits
each. -/
inductive PvclockWord
  | tscTimestamp (high : Bool)
  | systemTime (high : Bool)
  | tscToSystemMul
  | tscShift
  | flags
  deriving DecidableEq

/-- A field of two words. -/
def pvclockU64 (word : Bool → BitVec 32) : BitVec 64 :=
  word true ++ word false

/-- `scale_delta`. -/
def scaleDelta (delta : BitVec 64) (mulFrac : BitVec 32) (shift : BitVec 8) : BitVec 64 :=
  let delta := if shift.slt 0 then delta >>> (-shift).toNat else delta <<< shift.toNat
  ((delta.setWidth 128 * mulFrac.setWidth 128) >>> 32).setWidth 64

/-- `__pvclock_read_cycles`, from the words that it loads. -/
def pvclockReadCycles (tsc : BitVec 64) (src : PvclockWord → BitVec 32) : BitVec 64 :=
  let delta := tsc - pvclockU64 fun high => src (.tscTimestamp high)
  let offset := scaleDelta delta (src .tscToSystemMul) ((src .tscShift).setWidth 8)
  (pvclockU64 fun high => src (.systemTime high)) + offset

/-- Where the reader is : before the loop, after `pvclock_read_begin` with the version and the
words loaded since, or past the loop with its words. The clock of the page when the version was
read, and when it was read again, is recorded. -/
inductive PvclockPc
  | begin
  | reading (version : BitVec 32) (start : ℕ) (loaded : PvclockWord → Option (BitVec 32))
  | done (start stop : ℕ) (src : PvclockWord → BitVec 32) (ret : BitVec 64)

/-- The time info of a CPU, and the CPU that reads it. -/
structure PvclockRead where
  page : Versioned PvclockWord (BitVec 32)
  pc : PvclockPc

namespace PvclockRead

/-- `src->version`. -/
def version (s : PvclockRead) : BitVec 32 :=
  BitVec.ofNat 32 s.page.clock

/-- A step of the hypervisor, or of the reader. -/
inductive Step (s : PvclockRead) : PvclockRead → Prop
  | update {page : Versioned PvclockWord (BitVec 32)} : s.page.Update page →
      Step s { s with page := page }
  | readBegin : s.pc = .begin →
      Step s { s with pc := .reading (s.version &&& ~~~1#32) s.page.clock fun _ => none }
  | load {version : BitVec 32} {start : ℕ} {loaded : PvclockWord → Option (BitVec 32)}
      {word : PvclockWord} : s.pc = .reading version start loaded →
      Step s { s with
        pc := .reading version start (Function.update loaded word (some (s.page.mem word))) }
  | retry {version : BitVec 32} {start : ℕ} {loaded : PvclockWord → Option (BitVec 32)}
      {src : PvclockWord → BitVec 32} : s.pc = .reading version start loaded →
      (∀ word, loaded word = some (src word)) → version ≠ s.version →
      Step s { s with pc := .begin }
  | exit {version : BitVec 32} {start : ℕ} {loaded : PvclockWord → Option (BitVec 32)}
      {src : PvclockWord → BitVec 32} {tsc : BitVec 64} : s.pc = .reading version start loaded →
      (∀ word, loaded word = some (src word)) → version = s.version →
      Step s { s with pc := .done start s.page.clock src (pvclockReadCycles tsc src) }
  | next {start stop : ℕ} {src : PvclockWord → BitVec 32} {ret : BitVec 64} :
      s.pc = .done start stop src ret →
      Step s { s with pc := .begin }

/-- The states that are reached from a page that has not been updated. -/
inductive Run (mem : PvclockWord → BitVec 32) : PvclockRead → Prop
  | init : Run mem ⟨.init mem, .begin⟩
  | step {s s' : PvclockRead} : Run mem s → s.Step s' → Run mem s'

/-- Fewer than `2 ^ 31` updates end between two values of the clock. -/
def FewUpdates (start stop : ℕ) : Prop :=
  stop / 2 - start / 2 < 2 ^ 31

/-- The reading is of the version whose number was read. -/
def Snapshot (s : PvclockRead) (start : ℕ) (src : PvclockWord → BitVec 32) (ret : BitVec 64) :
    Prop :=
  start % 2 = 0 ∧ s.page.versions[start / 2]? = some src ∧ ∃ tsc, ret = pvclockReadCycles tsc src

/-- What holds at each point of the loop. -/
def PcInv (s : PvclockRead) : PvclockPc → Prop
  | .begin => True
  | .reading version start loaded =>
    version = BitVec.ofNat 32 start &&& ~~~1#32 ∧ s.page.Snapshot start loaded
  | .done start stop src ret => FewUpdates start stop → s.Snapshot start src ret

/-- With few updates, only a version that was even is found again, and then no update has
started. -/
theorem eq_of_version_eq {start stop : ℕ} (hle : start ≤ stop) (hfew : FewUpdates start stop)
    (h : BitVec.ofNat 32 start &&& ~~~1#32 = BitVec.ofNat 32 stop) :
    start % 2 = 0 ∧ stop = start := by
  have hone : (1#32 <<< 1) - 1 = 1#32 := by decide
  have heq := congrArg BitVec.toNat h
  rw [← hone, toNat_and_not_mask _ (by decide), BitVec.toNat_ofNat, BitVec.toNat_ofNat] at heq
  rw [FewUpdates] at hfew
  omega

section Run

variable {mem : PvclockWord → BitVec 32} {s s' : PvclockRead}

/-- The hypervisor may update the page at any point. -/
theorem PcInv.update {page : Versioned PvclockWord (BitVec 32)} (hu : s.page.Update page) :
    ∀ {pc : PvclockPc}, s.PcInv pc → PcInv { s with page := page } pc
  | .begin, _ => trivial
  | .reading _ _ _, ⟨hversion, hloaded⟩ => ⟨hversion, hloaded.update hu⟩
  | .done _ _ _ _, h => fun hfew =>
    have ⟨heven, hcontent, htsc⟩ := h hfew
    ⟨heven, hu.getElem?_versions hcontent, htsc⟩

theorem Step.inv (h : s.Step s') (hpage : s.page.Sound) (hpc : s.PcInv s.pc) :
    s'.page.Sound ∧ s'.PcInv s'.pc := by
  cases h with
  | update hu => exact ⟨hpage.update hu, hpc.update hu⟩
  | readBegin => exact ⟨hpage, rfl, .empty s.page⟩
  | load heq =>
    rw [heq] at hpc
    exact ⟨hpage, hpc.1, hpc.2.load _⟩
  | retry => exact ⟨hpage, trivial⟩
  | @exit version start loaded src tsc heq hloaded hversion =>
    rw [heq] at hpc
    refine ⟨hpage, fun hfew => ?_⟩
    obtain ⟨heven, hclock⟩ := eq_of_version_eq hpc.2.start_le hfew (hpc.1.symm.trans hversion)
    obtain ⟨content, hcontent, hwords⟩ := hpc.2.content hpage hclock heven
    have hsrc : src = content := funext fun word => hwords word _ (hloaded word)
    exact ⟨heven, hsrc ▸ hcontent, tsc, rfl⟩
  | next => exact ⟨hpage, trivial⟩

theorem Run.inv (h : Run mem s) : s.page.Sound ∧ s.PcInv s.pc := by
  induction h with
  | init => exact ⟨Versioned.init_sound mem, trivial⟩
  | step _ hstep ih => exact hstep.inv ih.1 ih.2

/-- When the loop exits, and fewer than `2 ^ 31` updates have ended since it read the version,
every word that the result is made of is of that version. -/
theorem snapshot_consistent (h : Run mem s) {start stop : ℕ} {src : PvclockWord → BitVec 32}
    {ret : BitVec 64} (hpc : s.pc = .done start stop src ret) (hfew : FewUpdates start stop) :
    s.Snapshot start src ret := by
  have hinv := h.inv.2
  rw [hpc] at hinv
  exact hinv hfew

/-- A read between two updates. -/
theorem snapshot_consistent_second : ∃ s : PvclockRead, ∃ src ret, s.pc = .done 2 2 src ret ∧
    src .tscShift = 5 ∧ s.Snapshot 2 src ret := by
  have h := @Run.init fun _ => 0
  have h := h.step (.update (.start rfl))
  have h := h.step (.update (@Versioned.Update.write _ _ _ _ .tscShift 5 rfl))
  have h := h.step (.update (.finish rfl))
  have h := h.step (.readBegin rfl)
  have h := h.step (@Step.load _ _ _ _ (.tscTimestamp true) rfl)
  have h := h.step (@Step.load _ _ _ _ (.tscTimestamp false) rfl)
  have h := h.step (@Step.load _ _ _ _ .tscToSystemMul rfl)
  have h := h.step (@Step.load _ _ _ _ .tscShift rfl)
  have h := h.step (@Step.load _ _ _ _ (.systemTime true) rfl)
  have h := h.step (@Step.load _ _ _ _ (.systemTime false) rfl)
  have h := h.step (@Step.load _ _ _ _ .flags rfl)
  have h := h.step (@Step.exit _ _ _ _ (Function.update (fun _ => 0) .tscShift 5) 0 rfl
    (by rintro (⟨_ | _⟩ | ⟨_ | _⟩ | _ | _ | _) <;> rfl) (by decide))
  exact ⟨_, _, _, rfl, rfl, snapshot_consistent h rfl (show 2 / 2 - 2 / 2 < 2 ^ 31 by decide)⟩

end Run

end PvclockRead

/-! ## The monotonic clock -/

/-- `PVCLOCK_TSC_STABLE_BIT`. -/
def pvclockTscStableBit : BitVec 8 :=
  1 <<< 0

/-- `PVCLOCK_RAW_CYCLE_BIT`. -/
def pvclockRawCycleBit : BitVec 8 :=
  1 <<< 7

/-- Where a CPU is in `pvclock_clocksource_read` : in no call, in the loop that reads the time
info, past it with the reading and the flags, past the bypass, before a compare-exchange, or
about to return. A call knows how many calls had returned when it started. -/
inductive PvclockCall
  | out
  | reading (since : ℕ)
  | raw (since : ℕ) (ret : BitVec 64) (flags : BitVec 8)
  | slow (since : ℕ) (ret : BitVec 64)
  | cas (since : ℕ) (ret last : BitVec 64)
  | done (since : ℕ) (ret : BitVec 64)

/-- The top of the loop : `last` is returned if it is ahead, else the compare-exchange comes. -/
def PvclockCall.loop (since : ℕ) (ret last : BitVec 64) : PvclockCall :=
  if ret < last then .done since last else .cas since ret last

/-- `last_value`, the flags set by `pvclock_set_flags`, the calls of the CPUs, and the values
returned so far. -/
structure PvclockCalls (Cpu : Type*) where
  lastValue : BitVec 64
  validFlags : BitVec 8
  call : Cpu → PvclockCall
  returned : List (BitVec 64)

namespace PvclockCalls

variable {Cpu : Type*} [DecidableEq Cpu]

/-- No CPU is in a call. -/
def init (validFlags : BitVec 8) : PvclockCalls Cpu :=
  ⟨0, validFlags, fun _ => .out, []⟩

/-- The reading is returned as it is. -/
def Bypass (validFlags flags : BitVec 8) : Prop :=
  validFlags &&& pvclockRawCycleBit ≠ 0 ∨
    validFlags &&& pvclockTscStableBit ≠ 0 ∧ flags &&& pvclockTscStableBit ≠ 0

instance (validFlags flags : BitVec 8) : Decidable (Bypass validFlags flags) :=
  inferInstanceAs (Decidable (_ ∨ _))

/-- A step of a CPU. The reading and the flags are any. -/
inductive Step (s : PvclockCalls Cpu) : PvclockCalls Cpu → Prop
  | start {p : Cpu} : s.call p = .out →
      Step s { s with call := Function.update s.call p (.reading s.returned.length) }
  | read {p : Cpu} {since : ℕ} {ret : BitVec 64} {flags : BitVec 8} : s.call p = .reading since →
      Step s { s with call := Function.update s.call p (.raw since ret flags) }
  | bypass {p : Cpu} {since : ℕ} {ret : BitVec 64} {flags : BitVec 8} :
      s.call p = .raw since ret flags → Bypass s.validFlags flags →
      Step s { s with call := Function.update s.call p (.done since ret) }
  | noBypass {p : Cpu} {since : ℕ} {ret : BitVec 64} {flags : BitVec 8} :
      s.call p = .raw since ret flags → ¬Bypass s.validFlags flags →
      Step s { s with call := Function.update s.call p (.slow since ret) }
  | load {p : Cpu} {since : ℕ} {ret : BitVec 64} : s.call p = .slow since ret →
      Step s { s with call := Function.update s.call p (.loop since ret s.lastValue) }
  | casSucceeds {p : Cpu} {since : ℕ} {ret last : BitVec 64} :
      s.call p = .cas since ret last → s.lastValue = last →
      Step s { s with
        lastValue := ret
        call := Function.update s.call p
          (if last ≠ ret then .loop since ret last else .done since ret) }
  | casFails {p : Cpu} {since : ℕ} {ret last : BitVec 64} :
      s.call p = .cas since ret last → s.lastValue ≠ last →
      Step s { s with
        call := Function.update s.call p
          (if s.lastValue ≠ ret then .loop since ret s.lastValue else .done since ret) }
  | next {p : Cpu} {since : ℕ} {ret : BitVec 64} : s.call p = .done since ret →
      Step s { s with
        call := Function.update s.call p .out
        returned := s.returned ++ [ret] }

/-- The states that are reached when no CPU is in a call. -/
inductive Run (validFlags : BitVec 8) : PvclockCalls Cpu → Prop
  | init : Run validFlags (init validFlags)
  | step {s s' : PvclockCalls Cpu} : Run validFlags s → s.Step s' → Run validFlags s'

/-- The values that had been returned when the call started are at most `v`. -/
def Above (s : PvclockCalls Cpu) (since : ℕ) (v : BitVec 64) : Prop :=
  ∀ u ∈ s.returned.take since, u ≤ v

/-- What holds at each point of a call. -/
def CallInv (s : PvclockCalls Cpu) : PvclockCall → Prop
  | .out => True
  | .reading since => since ≤ s.returned.length
  | .raw since _ _ => since ≤ s.returned.length
  | .slow since _ => since ≤ s.returned.length
  | .cas since ret last => since ≤ s.returned.length ∧ last ≤ ret ∧ s.Above since last
  | .done since ret => since ≤ s.returned.length ∧ ret ≤ s.lastValue ∧ s.Above since ret

/-- No returned value is ahead of `last_value`, and every call is where it should be. -/
structure Inv (s : PvclockCalls Cpu) : Prop where
  slow : ∀ flags, ¬Bypass s.validFlags flags
  returned : ∀ u ∈ s.returned, u ≤ s.lastValue
  call : ∀ p, s.CallInv (s.call p)

section Steps

variable {s s' : PvclockCalls Cpu} {p : Cpu} {since : ℕ} {ret last v : BitVec 64}

theorem Above.mono (h : s.Above since last) (hle : last ≤ v) : s.Above since v :=
  fun u hu => BitVec.le_trans (h u hu) hle

/-- Calls that return and a `last_value` that grows keep what holds of a call. -/
theorem CallInv.mono (hreturned : s.returned <+: s'.returned) (hlast : s.lastValue ≤ s'.lastValue)
    {c : PvclockCall} (h : s.CallInv c) : s'.CallInv c := by
  have hlen := hreturned.length_le
  have habove : ∀ {since v}, since ≤ s.returned.length → s.Above since v → s'.Above since v := by
    intro since v hsince habove
    obtain ⟨l, hl⟩ := hreturned
    rwa [Above, ← hl, List.take_append_of_le_length hsince]
  cases c with
  | out => exact trivial
  | reading => exact Nat.le_trans h hlen
  | raw => exact Nat.le_trans h hlen
  | slow => exact Nat.le_trans h hlen
  | cas => exact ⟨h.1.trans hlen, h.2.1, habove h.1 h.2.2⟩
  | done => exact ⟨h.1.trans hlen, BitVec.le_trans h.2.1 hlast, habove h.1 h.2.2⟩

/-- The top of the loop, with a `last` seen since the call started. -/
theorem callInv_loop (hsince : since ≤ s.returned.length) (hlast : last ≤ s.lastValue)
    (habove : s.Above since last) : s.CallInv (.loop since ret last) := by
  rw [PvclockCall.loop]
  split
  · exact ⟨hsince, hlast, habove⟩
  · next hge => exact ⟨hsince, BitVec.not_lt.mp hge, habove⟩

theorem Inv.above_lastValue (h : s.Inv) (since : ℕ) : s.Above since s.lastValue :=
  fun u hu => h.returned u (List.mem_of_mem_take hu)

@[simp] theorem callInv_call {call : Cpu → PvclockCall} {c : PvclockCall} :
    CallInv { s with call := call } c ↔ s.CallInv c := by
  cases c <;> exact Iff.rfl

/-- A call moves on its own. -/
theorem Inv.move (h : s.Inv) {c : PvclockCall} (hc : s.CallInv c) :
    Inv { s with call := Function.update s.call p c } where
  slow := h.slow
  returned := h.returned
  call q := by
    rw [callInv_call]
    rcases eq_or_ne q p with rfl | hne
    · simpa using hc
    · simpa [hne] using h.call q

/-- `last_value` grows, or a call returns. -/
theorem Inv.grow (h : s.Inv) {l : List (BitVec 64)} (hlast : s.lastValue ≤ v)
    (hreturned : s.returned <+: l) (hle : ∀ u ∈ l, u ≤ v) :
    Inv { s with lastValue := v, returned := l } where
  slow := h.slow
  returned := hle
  call q := (h.call q).mono hreturned hlast

theorem Step.inv (h : s.Step s') (hinv : s.Inv) : s'.Inv ∧ s.lastValue ≤ s'.lastValue := by
  cases h with
  | start => exact ⟨hinv.move (Nat.le_refl s.returned.length), (BitVec.le_refl _)⟩
  | @read p _ _ _ hp =>
    have hc := hinv.call p
    rw [hp] at hc
    exact ⟨hinv.move hc, (BitVec.le_refl _)⟩
  | bypass _ hbypass => exact absurd hbypass (hinv.slow _)
  | @noBypass p _ _ _ hp =>
    have hc := hinv.call p
    rw [hp] at hc
    exact ⟨hinv.move hc, (BitVec.le_refl _)⟩
  | @load p _ _ hp =>
    have hc := hinv.call p
    rw [hp] at hc
    exact ⟨hinv.move (callInv_loop hc (BitVec.le_refl _) (hinv.above_lastValue _)),
      (BitVec.le_refl _)⟩
  | @casSucceeds p since ret last hp heq =>
    have hc := hinv.call p
    rw [hp] at hc
    obtain ⟨hsince, hle, habove⟩ := hc
    have hgrow : s.lastValue ≤ ret := heq ▸ hle
    have hset : Inv { s with lastValue := ret } :=
      hinv.grow hgrow (List.prefix_refl _) fun u hu => BitVec.le_trans (hinv.returned u hu) hgrow
    refine ⟨hset.move ?_, hgrow⟩
    split
    · exact callInv_loop hsince hle habove
    · exact ⟨hsince, (BitVec.le_refl _), habove.mono hle⟩
  | @casFails p since ret last hp hne =>
    have hc := hinv.call p
    rw [hp] at hc
    refine ⟨hinv.move ?_, (BitVec.le_refl _)⟩
    split
    · exact callInv_loop hc.1 (BitVec.le_refl _) (hinv.above_lastValue _)
    · next heq =>
      rw [← not_not.mp heq]
      exact ⟨hc.1, (BitVec.le_refl _), hinv.above_lastValue _⟩
  | @next p since ret hp =>
    have hc := hinv.call p
    rw [hp] at hc
    have hlog : Inv { s with returned := s.returned ++ [ret] } :=
      hinv.grow (BitVec.le_refl _) (List.prefix_append ..) fun u hu =>
        (List.mem_append.mp hu).elim (hinv.returned u) fun hu => List.mem_singleton.mp hu ▸ hc.2.1
    exact ⟨hlog.move trivial, (BitVec.le_refl _)⟩

theorem Run.inv {validFlags : BitVec 8} (hraw : validFlags &&& pvclockRawCycleBit = 0)
    (hstable : validFlags &&& pvclockTscStableBit = 0) (h : Run validFlags s) : s.Inv := by
  induction h with
  | init =>
    refine ⟨fun flags hbypass => ?_, nofun, fun _ => trivial⟩
    rcases hbypass with hbypass | ⟨hbypass, -⟩
    · exact hbypass hraw
    · exact hbypass hstable
  | step _ hstep ih => exact (hstep.inv ih).1

end Steps

/-- The clock of all CPUs, between any two steps. -/
structure Monotonic (s : PvclockCalls Cpu) : Prop where
  /-- `last_value` never decreases. -/
  step : ∀ s', s.Step s' → s.lastValue ≤ s'.lastValue
  /-- A value is at most `last_value` when it is returned. -/
  atMost : ∀ p since ret, s.call p = .done since ret → ret ≤ s.lastValue
  /-- A call returns at least what had been returned when it started. -/
  later : ∀ p since ret, s.call p = .done since ret → ∀ v ∈ s.returned.take since, v ≤ ret

/-- With neither bypass flag in `valid_flags`, the clock does not go backwards. -/
theorem monotonic {validFlags : BitVec 8} (hraw : validFlags &&& pvclockRawCycleBit = 0)
    (hstable : validFlags &&& pvclockTscStableBit = 0) {s : PvclockCalls Cpu}
    (h : Run validFlags s) : s.Monotonic := by
  have hinv := h.inv hraw hstable
  have hdone : ∀ p since ret, s.call p = .done since ret → s.CallInv (.done since ret) :=
    fun p since ret hp => hp ▸ hinv.call p
  exact ⟨fun s' hstep => (hstep.inv hinv).2, fun p since ret hp => (hdone p since ret hp).2.1,
    fun p since ret hp => (hdone p since ret hp).2.2⟩

/-- Two CPUs : the second reads 5 after the first has written 7, and returns 7. -/
theorem monotonic_two_cpus : ∃ s : PvclockCalls (Fin 2), s.returned = [7] ∧
    s.call 1 = .done 1 7 ∧ s.Monotonic := by
  have h := @Run.init (Fin 2) _ 0
  have h := h.step (@Step.start _ _ _ 0 rfl)
  have h := h.step (@Step.read _ _ _ 0 _ 7 0 rfl)
  have h := h.step (@Step.noBypass _ _ _ 0 _ _ _ rfl (by decide))
  have h := h.step (@Step.load _ _ _ 0 _ _ rfl)
  have h := h.step (@Step.casSucceeds _ _ _ 0 _ _ _ rfl rfl)
  have h := h.step (@Step.casFails _ _ _ 0 _ _ _ rfl (by decide))
  have h := h.step (@Step.next _ _ _ 0 _ _ rfl)
  have h := h.step (@Step.start _ _ _ 1 rfl)
  have h := h.step (@Step.read _ _ _ 1 _ 5 0 rfl)
  have h := h.step (@Step.noBypass _ _ _ 1 _ _ _ rfl (by decide))
  have h := h.step (@Step.load _ _ _ 1 _ _ rfl)
  exact ⟨_, rfl, rfl, monotonic (by decide) (by decide) h⟩

end PvclockCalls

end AcrnUt
