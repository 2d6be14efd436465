import AcrnUt.MaskedSucc
import Mathlib.Data.BitVec

/-!
# Configurations of the access test

`ac_test_bump` of `x86/access.c`, and the loop of `ac_test_run` that it drives. A configuration is a
word of flags : `ac_test_bump_one` counts over the bits outside `invalid_mask`, `ac_test_bump` goes
on while the word is not legal, and the carry past the last flag ends the loop. The words that the
loop runs the test for are 0 and all legal words disjoint from the mask, in ascending order
(`AccessTest.acTestRun_words`).
-/

set_option linter.unusedSectionVars false

namespace AcrnUt

/-- The flags of a configuration, from bit 0 on. -/
inductive AcFlag
  | ptePresent | pteWritable | pteUser | pteAccessed | pteDirty | pteNx | pteBit51
  | pdePresent | pdeWritable | pdeUser | pdeAccessed | pdeDirty | pdePse | pdeNx | pdeBit51
  | pdeBit13
  | pkuAd | pkuWd | pkuPkey
  | accessUser | accessWrite | accessFetch | accessTwice
  | cpuEferNx | cpuCr0Wp | cpuCr4Smep | cpuCr4Pke

/-- `NR_AC_FLAGS`. -/
def nrAcFlags : ℕ := 27

namespace AccessTest

/-- `F(x)` of the word `flags`. -/
def hasFlag (flags : BitVec 32) (x : AcFlag) : Bool :=
  flags &&& (1#32 <<< x.ctorIdx) != 0

/-- `ac_test_legal`. -/
def acTestLegal (flags : BitVec 32) : Bool :=
  if hasFlag flags .accessFetch && hasFlag flags .accessWrite then false
  else if hasFlag flags .accessUser && hasFlag flags .cpuCr4Smep then false
  else if !hasFlag flags .cpuCr4Pke && (hasFlag flags .pkuAd || hasFlag flags .pkuWd) then false
  else if !hasFlag flags .pdePse && hasFlag flags .pdeBit13 then false
  else true

/-- The word that `ac_test_bump_one` leaves in `at->flags`. -/
def acTestBumpOne (invalidMask flags : BitVec 32) : BitVec 32 :=
  ((flags ||| invalidMask) + 1) &&& ~~~invalidMask

/-- What `ac_test_bump_one` returns for the word that it leaves. -/
def inRange (flags : BitVec 32) : Bool :=
  flags < 1#32 <<< nrAcFlags

/-- `ac_test_bump` : the word it leaves and what it returns. -/
def acTestBump (invalidMask : BitVec 32) : ℕ → BitVec 32 → Option (BitVec 32 × Bool)
  | 0, _ => none
  | fuel + 1, flags =>
    let flags := acTestBumpOne invalidMask flags
    if inRange flags && !acTestLegal flags then acTestBump invalidMask fuel flags
    else some (flags, inRange flags)

/-- The loop of `ac_test_run`, from `flags` on : the words that `ac_test_exec` is called for. -/
def acTestRun (invalidMask : BitVec 32) : ℕ → BitVec 32 → Option (List (BitVec 32))
  | 0, _ => none
  | fuel + 1, flags =>
    (acTestBump invalidMask fuel flags).bind fun r =>
      if r.2 then (acTestRun invalidMask fuel r.1).map (flags :: ·) else some [flags]

/-! ## The next word -/

variable (invalidMask : BitVec 32)

theorem toNat_and_not (x y : BitVec 32) : (x &&& ~~~y).toNat = Nat.ldiff x.toNat y.toNat := by
  apply Nat.eq_of_testBit_eq
  intro i
  rw [Nat.testBit_ldiff, BitVec.testBit_toNat, BitVec.testBit_toNat, BitVec.testBit_toNat,
    BitVec.getLsbD_and, BitVec.getLsbD_not]
  by_cases hi : i < 32
  · rw [decide_eq_true hi, Bool.true_and]
  · rw [BitVec.getLsbD_of_ge x i (by omega), Bool.false_and, Bool.false_and]

theorem acTestBumpOne_toNat {invalidMask flags : BitVec 32}
    (hm : invalidMask.toNat < 2 ^ nrAcFlags) (hf : flags.toNat < 2 ^ nrAcFlags) :
    (acTestBumpOne invalidMask flags).toNat = maskedSucc invalidMask.toNat flags.toNat := by
  have hlt := Nat.or_lt_two_pow hf hm
  have hone : (1 : BitVec 32).toNat = 1 := rfl
  rw [nrAcFlags] at hlt
  rw [acTestBumpOne, toNat_and_not, BitVec.toNat_add, BitVec.toNat_or, maskedSucc, hone,
    Nat.mod_eq_of_lt (by omega)]

theorem inRange_iff {flags : BitVec 32} :
    inRange flags = true ↔ flags.toNat < 2 ^ nrAcFlags := by
  rw [inRange, decide_eq_true_iff, BitVec.lt_def]
  rfl

/-- The words that the test is to be run for, as numbers. -/
def Wanted (f : ℕ) : Prop :=
  MaskFree invalidMask.toNat f ∧ acTestLegal (BitVec.ofNat 32 f) = true

instance : DecidablePred (Wanted invalidMask) := fun _ =>
  inferInstanceAs (Decidable (_ ∧ _))

variable {invalidMask}

/-- The words above `flags` that the test is to be run for. -/
def wantedAbove (invalidMask flags : BitVec 32) : List ℕ :=
  members (Wanted invalidMask) (flags.toNat + 1) (2 ^ nrAcFlags)

/-- `ac_test_bump` goes to the first wanted word above, and past the last flag if there is none. -/
theorem acTestBump_spec (hm : invalidMask.toNat < 2 ^ nrAcFlags) (fuel : ℕ) (flags : BitVec 32)
    (hf : flags.toNat < 2 ^ nrAcFlags) (hfree : MaskFree invalidMask.toNat flags.toNat)
    (hfuel : 2 ^ nrAcFlags - flags.toNat ≤ fuel) :
    (wantedAbove invalidMask flags = [] ∧
      ∃ next, acTestBump invalidMask fuel flags = some (next, false)) ∨
    ∃ next, acTestBump invalidMask fuel flags = some (next, true) ∧ flags.toNat < next.toNat ∧
      next.toNat < 2 ^ nrAcFlags ∧ MaskFree invalidMask.toNat next.toNat ∧
      wantedAbove invalidMask flags = next.toNat :: wantedAbove invalidMask next := by
  induction fuel generalizing flags with
  | zero => omega
  | succ fuel ih =>
    obtain ⟨⟨hlt, hnfree⟩, hmin⟩ := maskedSucc_isLeast _ _ hfree
    rw [← acTestBumpOne_toNat hm hf] at hlt hnfree hmin
    rw [acTestBump]
    generalize acTestBumpOne invalidMask flags = next at hlt hnfree hmin
    -- no word between the two is disjoint from the mask
    have hskip : wantedAbove invalidMask flags =
        members (Wanted invalidMask) next.toNat (2 ^ nrAcFlags) :=
      members_skip _ hlt fun g hg hgn hw => absurd (hmin ⟨hg, hw.1⟩) (by omega)
    by_cases hr : next.toNat < 2 ^ nrAcFlags
    · have hrange := inRange_iff.mpr hr
      by_cases hlegal : acTestLegal next = true
      · right
        refine ⟨next, by simp [hrange, hlegal], hlt, hr, hnfree, ?_⟩
        rw [hskip]
        refine members_eq_cons _ hr ⟨hnfree, ?_⟩
        rwa [BitVec.ofNat_toNat, BitVec.setWidth_eq]
      · have hnot : ¬ Wanted invalidMask next.toNat := by
          rw [Wanted, BitVec.ofNat_toNat, BitVec.setWidth_eq]
          exact fun h => hlegal h.2
        have hskip' : wantedAbove invalidMask flags = wantedAbove invalidMask next := by
          rw [hskip, members_eq_of_not _ hnot, wantedAbove]
        simp only [hrange, hlegal, Bool.not_false, Bool.and_self, if_true]
        rcases ih next hr hnfree (by omega) with ⟨hnil, hb⟩ | ⟨n, hb, hn, hnr, hnf, hcons⟩
        · exact .inl ⟨hskip'.trans hnil, hb⟩
        · exact .inr ⟨n, hb, by omega, hnr, hnf, hskip'.trans hcons⟩
    · have hrange : inRange next = false := by
        rwa [← Bool.not_eq_true, inRange_iff]
      left
      refine ⟨by rw [hskip, members_of_le _ (by omega)], next, by simp [hrange]⟩

/-- The loop, by induction on the words that are left. -/
theorem acTestRun_eq (hm : invalidMask.toNat < 2 ^ nrAcFlags) (fuel : ℕ) (flags : BitVec 32)
    (hf : flags.toNat < 2 ^ nrAcFlags) (hfree : MaskFree invalidMask.toNat flags.toNat)
    (hfuel : 2 ^ nrAcFlags - flags.toNat < fuel) :
    acTestRun invalidMask fuel flags =
      some (flags :: (wantedAbove invalidMask flags).map (BitVec.ofNat 32)) := by
  induction fuel generalizing flags with
  | zero => omega
  | succ fuel ih =>
    rw [acTestRun]
    rcases acTestBump_spec hm fuel flags hf hfree (by omega) with
      ⟨hnil, next, hb⟩ | ⟨next, hb, hlt, hr, hnf, hcons⟩
    · rw [hb, hnil]
      rfl
    · rw [hb, hcons, Option.bind_some, if_pos rfl, ih next hr hnf (by omega), List.map_cons,
        BitVec.ofNat_toNat, BitVec.setWidth_eq, Option.map_some]

theorem toNat_of_mem_wantedAbove {flags : BitVec 32} {g : ℕ}
    (hg : g ∈ wantedAbove invalidMask flags) :
    (BitVec.ofNat 32 g).toNat = g := by
  have := ((mem_members _).mp hg).2.1
  rw [nrAcFlags] at this
  rw [BitVec.toNat_ofNat, Nat.mod_eq_of_lt (by omega)]

theorem wantedAbove_pairwise_lt (flags : BitVec 32) :
    ((wantedAbove invalidMask flags).map (BitVec.ofNat 32)).Pairwise (· < ·) := by
  rw [List.pairwise_map]
  refine (members_pairwise_lt _ _ _).imp_of_mem fun {a b} ha hb hab => ?_
  rwa [BitVec.lt_def, toNat_of_mem_wantedAbove ha, toNat_of_mem_wantedAbove hb]

theorem mem_wantedAbove_zero {f : BitVec 32} :
    f ∈ (wantedAbove invalidMask 0).map (BitVec.ofNat 32) ↔
      f ≠ 0 ∧ f.toNat < 2 ^ nrAcFlags ∧ f &&& invalidMask = 0 ∧ acTestLegal f = true := by
  have hfree : MaskFree invalidMask.toNat f.toNat ↔ f &&& invalidMask = 0 := by
    rw [MaskFree, Nat.and_comm, ← BitVec.toNat_and, BitVec.and_comm]
    exact (BitVec.toNat_eq (y := 0)).symm
  have hzero : f ≠ 0 ↔ 0 < f.toNat := by
    rw [Nat.pos_iff_ne_zero]
    exact not_congr BitVec.toNat_eq
  rw [List.mem_map, hzero]
  constructor
  · rintro ⟨g, hg, rfl⟩
    have hgNat := toNat_of_mem_wantedAbove hg
    obtain ⟨hpos, hlt, hgfree, hlegal⟩ := (mem_members _).mp hg
    rw [hgNat] at hfree ⊢
    exact ⟨hpos, hlt, hfree.mp hgfree, hlegal⟩
  · rintro ⟨hpos, hlt, hand, hlegal⟩
    refine ⟨f.toNat, (mem_members _).mpr ⟨hpos, hlt, hfree.mpr hand, ?_⟩, ?_⟩
    · rwa [BitVec.ofNat_toNat, BitVec.setWidth_eq]
    · rw [BitVec.ofNat_toNat, BitVec.setWidth_eq]

/-- The configurations of the access test : ascending, and besides the first one exactly the legal
words disjoint from the mask. -/
theorem acTestRun_words (invalidMask : BitVec 32) (hm : invalidMask.toNat < 2 ^ nrAcFlags) :
    ∃ l, (∀ fuel, 2 ^ nrAcFlags < fuel → acTestRun invalidMask fuel 0 = some l) ∧
      l.Pairwise (· < ·) ∧
      ∀ f, f ∈ l ↔ f = 0 ∨
        f.toNat < 2 ^ nrAcFlags ∧ f &&& invalidMask = 0 ∧ acTestLegal f = true := by
  refine ⟨0 :: (wantedAbove invalidMask 0).map (BitVec.ofNat 32), fun fuel hfuel => ?_, ?_,
    fun f => ?_⟩
  · exact acTestRun_eq hm fuel 0 (Nat.two_pow_pos _) (Nat.zero_and _)
      (lt_of_le_of_lt (Nat.sub_le _ _) hfuel)
  · refine List.pairwise_cons.mpr ⟨fun f hf => ?_, wantedAbove_pairwise_lt 0⟩
    obtain ⟨hne, -⟩ := mem_wantedAbove_zero.mp hf
    exact BitVec.lt_def.mpr (BitVec.toNat_pos_of_ne_zero hne)
  · rw [List.mem_cons, mem_wantedAbove_zero]
    tauto

/-- Without `CR4.SMEP` on the CPU. -/
theorem acTestRun_words_noSmep :
    ∃ l, (∀ fuel, 2 ^ nrAcFlags < fuel → acTestRun 0x2000000 fuel 0 = some l) ∧
      l.Pairwise (· < ·) ∧
      ∀ f, f ∈ l ↔ f = 0 ∨
        f.toNat < 2 ^ nrAcFlags ∧ f &&& 0x2000000 = 0 ∧ acTestLegal f = true :=
  acTestRun_words 0x2000000 (by decide)

end AccessTest

end AcrnUt
