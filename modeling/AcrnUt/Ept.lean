import AcrnUt.PageTable

/-!
# Extended page tables

`install_ept_entry` and `get_ept_pte` of `x86/vmx.c`. On its way down `install_ept_entry`
links a zeroed page where a table is missing, and splits a large entry into 512 entries
of the next level (`split_large_ept_entry`).

`eptTranslate` is what a guest address means : the host address of its leaf, and the
permissions that every entry of the walk grants. The memory types and the bits that the
hardware reserves are left out. A split is a graft that keeps `eptTranslate`
(`Splittable.graft`, `Splittable.translate`), so an install changes it in the written page only
(`installEptEntry_preserves`). `none` stands for a failed assertion.
-/

set_option linter.unusedSectionVars false

namespace AcrnUt

/-! ## The source -/

/-- `EPT_PRESENT`, that is `EPT_RA | EPT_WA | EPT_EA`. -/
def eptPresent : BitVec 64 :=
  1 ||| 2 ||| 4

/-- The layout of the tables. -/
def eptFormat : PtFormat 64 where
  pageLevel := 4
  pgdirWidth := 9
  presentMask := eptPresent
  pageShift_eq := pageShift_64
  pageLevel_pos := by decide
  pgdirWidth_pos := pgdirWidth_64_pos
  fits := fourLevels_fit
  table_size := table_size_64
  presentMask_ne := by decide
  presentMask_le := by decide

/-- `EPT_LEVEL_SHIFT`. -/
abbrev eptLevelShift (level : ℕ) : ℕ :=
  eptFormat.levelShift level

/-- `EPT_ADDR_MASK`. -/
abbrev eptAddrMask : BitVec 64 :=
  addrMask 64

/-- `EPT_LARGE_PAGE`. -/
abbrev eptLargePage : BitVec 64 :=
  largeMask 64

/-- The loop of `split_large_ept_entry`, with `n` entries to go from entry `i`. -/
def splitLargeEptEntry.fill (newPt prototype : BitVec 64) (level : ℕ) :
    ℕ → ℕ → BitVec 64 → Machine 64 → Machine 64
  | 0, _, _, m => m
  | n + 1, i, gpa, m =>
    splitLargeEptEntry.fill newPt prototype level n (i + 1)
      (gpa + 1#64 <<< eptLevelShift (level - 1))
      (m.store (entryAddr newPt (BitVec.ofNat 64 i)) (prototype ||| gpa))

/-- `split_large_ept_entry`. -/
def splitLargeEptEntry (ptep : BitVec 64) (level : ℕ) (m : Machine 64) : Option (Machine 64) :=
  let pte := m.mem ptep
  if pte &&& eptPresent = 0 then none
  else if pte &&& eptLargePage = 0 then none
  else if ¬(level = 2 ∨ level = 3) then none
  else
    let (newPt, m) := allocPage m
    if newPt = 0 then none
    else
      let m := m.clearPage newPt
      let prototype := pte &&& ~~~eptAddrMask
      let prototype := if level = 2 then prototype &&& ~~~eptLargePage else prototype
      let m := splitLargeEptEntry.fill newPt prototype level 512 0 (pte &&& eptAddrMask) m
      let pte := pte &&& ~~~eptLargePage
      let pte := pte &&& ~~~eptAddrMask
      let pte := pte ||| virtToPhys newPt
      some (m.store ptep pte)

/-- `install_ept_entry` from the table `pt` at a level : the loop, then the store. -/
def installEptEntry.walk (guestAddr pte : BitVec 64) (pteLevel : ℕ) :
    ℕ → BitVec 64 → BitVec 64 → Machine 64 → Option (Machine 64)
  | 0, pt, _, m => some (m.store (entryAddr pt (eptFormat.pgdirOffset guestAddr 0)) pte)
  | level + 1, pt, ptPage, m =>
    let slot := entryAddr pt (eptFormat.pgdirOffset guestAddr (level + 1))
    if pteLevel < level + 1 then
      if m.mem slot &&& eptPresent = 0 then
        let (newPt, ptPage, m) := takeTable ptPage m
        let m := (m.clearPage newPt).store slot (virtToPhys newPt ||| 1 ||| 2 ||| 4)
        installEptEntry.walk guestAddr pte pteLevel level
          (physToVirt (m.mem slot &&& eptAddrMask)) ptPage m
      else if m.mem slot &&& eptLargePage ≠ 0 then
        (splitLargeEptEntry slot (level + 1) m).bind fun m =>
          installEptEntry.walk guestAddr pte pteLevel level
            (physToVirt (m.mem slot &&& eptAddrMask)) ptPage m
      else
        installEptEntry.walk guestAddr pte pteLevel level
          (physToVirt (m.mem slot &&& eptAddrMask)) ptPage m
    else some (m.store slot pte)

/-- `install_ept_entry`. -/
def installEptEntry (pml4 : BitVec 64) (pteLevel : ℕ) (guestAddr pte ptPage : BitVec 64)
    (m : Machine 64) : Option (Machine 64) :=
  if guestAddr < 1#64 <<< 48 then
    installEptEntry.walk guestAddr pte pteLevel eptFormat.pageLevel pml4 ptPage m
  else none

/-- The loop of `get_ept_pte` : `some none` is the result `false`. -/
def getEptPte.walk (m : Machine 64) (guestAddr : BitVec 64) (level : ℕ) :
    ℕ → BitVec 64 → Option (Option (BitVec 64))
  | 0, _ => none
  | l + 1, pt =>
    let iterPte := m.mem (entryAddr pt (eptFormat.pgdirOffset guestAddr (l + 1)))
    if l + 1 = level then some (some iterPte)
    else if l + 1 < 4 ∧ iterPte &&& eptLargePage ≠ 0 then some none
    else if iterPte &&& eptPresent = 0 then some none
    else getEptPte.walk m guestAddr level l (iterPte &&& eptAddrMask)

/-- `get_ept_pte`. -/
def getEptPte (m : Machine 64) (pml4 guestAddr : BitVec 64) (level : ℕ) :
    Option (Option (BitVec 64)) :=
  if 1 ≤ level ∧ level ≤ 4 then getEptPte.walk m guestAddr level eptFormat.pageLevel pml4
  else none

/-! ## Translation -/

/-- The host address of a guest address in a leaf at a level. -/
def eptHostAddr (level : ℕ) (e gpa : BitVec 64) : BitVec 64 :=
  ((e &&& eptAddrMask) >>> eptLevelShift level) <<< eptLevelShift level |||
    gpa &&& (1#64 <<< eptLevelShift level - 1)

/-- The permissions that all entries grant. -/
def eptPerms (es : List (BitVec 64)) : BitVec 64 :=
  es.foldr (· &&& ·) eptPresent

/-- The host address and the permissions of a guest address, or `none` if it is not mapped. -/
def eptTranslate (pml4 : BitVec 64) (cells : BitVec 64 → BitVec 64) (gpa : BitVec 64) :
    Option (BitVec 64 × BitVec 64) :=
  (eptFormat.walk pml4 cells gpa).map fun es =>
    (eptHostAddr (eptFormat.pageLevel + 1 - es.length) (es.getLastD 0) gpa, eptPerms es)

theorem eptPerms_append {above es es' : List (BitVec 64)} (h : eptPerms es = eptPerms es') :
    eptPerms (above ++ es) = eptPerms (above ++ es') := by
  simp only [eptPerms, List.foldr_append] at h ⊢
  rw [h]

/-- The leaf at the end of a walk gives the host address. -/
theorem eptTranslate_of_ends {cells : BitVec 64 → BitVec 64} {pml4 gpa e : BitVec 64} {d : ℕ}
    (hends : eptFormat.radix.Ends cells pml4 gpa d e) (hpresent : eptFormat.Present e) :
    eptTranslate pml4 cells gpa = some (eptHostAddr (eptFormat.pageLevel - d) e gpa,
      eptPerms ((List.range d).filterMap (eptFormat.radix.entry cells pml4 gpa) ++ [e])) := by
  rw [eptTranslate, eptFormat.walk_of_ends hends, if_pos hpresent, Option.map_some]
  simp only [List.length_append, eptFormat.length_of_ends hends d le_rfl, List.length_singleton,
    Nat.add_sub_add_right, List.getLastD_concat]

/-! ## Splitting a large entry -/

/-- The bits that the entries of a split share. -/
def splitPrototype (level : ℕ) (e : BitVec 64) : BitVec 64 :=
  if level = 2 then e &&& ~~~eptAddrMask &&& ~~~eptLargePage else e &&& ~~~eptAddrMask

/-- Entry `i` of the table that replaces a large entry. -/
def splitChild (level : ℕ) (e : BitVec 64) (i : ℕ) : BitVec 64 :=
  splitPrototype level e |||
    ((e &&& eptAddrMask) + BitVec.ofNat 64 (i * 2 ^ eptLevelShift (level - 1)))

/-- The entry that replaces a large entry. -/
def splitLink (e p : BitVec 64) : BitVec 64 :=
  e &&& ~~~eptLargePage &&& ~~~eptAddrMask ||| p

/-- The address in a large entry is a multiple of its size. -/
def EptAligned (level : ℕ) (e : BitVec 64) : Prop :=
  (e &&& eptAddrMask).toNat % 2 ^ eptLevelShift level = 0

theorem EptAligned.getLsbD {level : ℕ} {e : BitVec 64} (h : EptAligned level e) {k : ℕ}
    (hk : k < eptLevelShift level) : (e &&& eptAddrMask).getLsbD k = false :=
  toNat_mod_two_pow_eq_zero_iff.mp h k hk

theorem eptLevelShift_eq {level : ℕ} (hlevel : level = 2 ∨ level = 3) :
    12 ≤ eptLevelShift (level - 1) ∧ eptLevelShift level = eptLevelShift (level - 1) + 9 ∧
      eptLevelShift level ≤ 30 := by
  rcases hlevel with rfl | rfl <;> decide

/-- An index has nine bits. -/
theorem testBit_of_lt {i j : ℕ} (hi : i < 512) (hj : 9 ≤ j) : i.testBit j = false :=
  Nat.testBit_lt_two_pow (lt_of_lt_of_le (b := 2 ^ 9) hi (Nat.pow_le_pow_right (by decide) hj))

section Split

variable {level : ℕ} {e p : BitVec 64}

theorem getLsbD_splitLink {k : ℕ} (hk : k < 64) : (splitLink e p).getLsbD k =
    ((e.getLsbD k && !decide (k = 7) && !(decide (12 ≤ k) && decide (k < 52))) || p.getLsbD k) := by
  simp only [splitLink, BitVec.getLsbD_or, BitVec.getLsbD_and, BitVec.getLsbD_not, hk,
    getLsbD_addrMask hk, getLsbD_largeMask hk, decide_true, Bool.true_and]

theorem getLsbD_splitPrototype {k : ℕ} (hk : k < 64) : (splitPrototype level e).getLsbD k =
    (e.getLsbD k && !(decide (12 ≤ k) && decide (k < 52)) &&
      !(decide (level = 2) && decide (k = 7))) := by
  unfold splitPrototype
  split_ifs with h
  · simp only [BitVec.getLsbD_and, BitVec.getLsbD_not, getLsbD_addrMask hk, getLsbD_largeMask hk, h,
      hk, decide_true, Bool.true_and]
  · simp only [BitVec.getLsbD_and, BitVec.getLsbD_not, getLsbD_addrMask hk, h, hk, decide_true,
      decide_false, Bool.true_and, Bool.false_and, Bool.not_false, Bool.and_true]

theorem getLsbD_splitChild (hlevel : level = 2 ∨ level = 3) (ha : EptAligned level e) {i : ℕ}
    (hi : i < 512) {k : ℕ} (hk : k < 64) : (splitChild level e i).getLsbD k =
      ((splitPrototype level e).getLsbD k || (e &&& eptAddrMask).getLsbD k ||
        (decide (eptLevelShift (level - 1) ≤ k) && i.testBit (k - eptLevelShift (level - 1)))) := by
  obtain ⟨-, hS, -⟩ := eptLevelShift_eq hlevel
  have hbit : ∀ j < 64, (BitVec.ofNat 64 (i * 2 ^ eptLevelShift (level - 1))).getLsbD j =
      (decide (eptLevelShift (level - 1) ≤ j) && i.testBit (j - eptLevelShift (level - 1))) := by
    intro j hj
    rw [BitVec.getLsbD_ofNat, Nat.testBit_mul_two_pow]
    simp [hj]
  have hdisj : (e &&& eptAddrMask) &&&
      BitVec.ofNat 64 (i * 2 ^ eptLevelShift (level - 1)) = 0 := by
    refine BitVec.eq_of_getLsbD_eq fun j hj => ?_
    rw [BitVec.getLsbD_and, hbit j hj]
    rcases Nat.lt_or_ge j (eptLevelShift level) with h | h
    · simp [ha.getLsbD h]
    · simp [testBit_of_lt hi (by omega : 9 ≤ j - eptLevelShift (level - 1))]
  rw [splitChild, BitVec.getLsbD_or, BitVec.add_eq_or_of_and_eq_zero _ _ hdisj, BitVec.getLsbD_or,
    hbit k hk, Bool.or_assoc]

/-- A split entry grants what the large entry did, and its entries too. -/
theorem splitLink_perms (hp : IsFrame p) : splitLink e p &&& eptPresent = e &&& eptPresent := by
  have h7 : eptPresent = 7 := by decide
  refine BitVec.eq_of_getLsbD_eq fun k hk => ?_
  rw [BitVec.getLsbD_and, BitVec.getLsbD_and, getLsbD_splitLink hk, h7, PtFormat.getLsbD_seven hk]
  by_cases h3 : k < 3
  · have h12 : ¬12 ≤ k := by omega
    have hne : k ≠ 7 := by omega
    simp [h3, h12, hne, hp.getLsbD (not_le.mp h12)]
  · simp [h3]

theorem splitChild_perms (hlevel : level = 2 ∨ level = 3) (ha : EptAligned level e) {i : ℕ}
    (hi : i < 512) : splitChild level e i &&& eptPresent = e &&& eptPresent := by
  have h7 : eptPresent = 7 := by decide
  obtain ⟨h12, -, -⟩ := eptLevelShift_eq hlevel
  refine BitVec.eq_of_getLsbD_eq fun k hk => ?_
  rw [BitVec.getLsbD_and, BitVec.getLsbD_and, getLsbD_splitChild hlevel ha hi hk,
    getLsbD_splitPrototype hk, h7, PtFormat.getLsbD_seven hk, BitVec.getLsbD_and,
    getLsbD_addrMask hk]
  by_cases h3 : k < 3
  · have h12' : ¬12 ≤ k := by omega
    have hne : k ≠ 7 := by omega
    have hs : ¬eptLevelShift (level - 1) ≤ k := by omega
    simp [h3, h12', hne, hs]
  · simp [h3]

/-- The parts of a 1G entry are large. -/
theorem splitChild_large (ha : EptAligned 3 e) {i : ℕ} (hi : i < 512) :
    splitChild 3 e i &&& eptLargePage = e &&& eptLargePage := by
  refine BitVec.eq_of_getLsbD_eq fun k hk => ?_
  rw [BitVec.getLsbD_and, BitVec.getLsbD_and, getLsbD_splitChild (Or.inr rfl) ha hi hk,
    getLsbD_splitPrototype hk, getLsbD_largeMask hk, BitVec.getLsbD_and, getLsbD_addrMask hk]
  by_cases h7 : k = 7
  · subst h7
    have hs : ¬eptLevelShift (3 - 1) ≤ 7 := by decide
    simp [hs]
  · simp [h7]

theorem splitLink_addr (hp : IsFrame p) : splitLink e p &&& eptAddrMask = p := by
  refine BitVec.eq_of_getLsbD_eq fun k hk => ?_
  have hbit := congrArg (BitVec.getLsbD · k) hp
  simp only [BitVec.getLsbD_and, getLsbD_addrMask hk] at hbit
  rw [BitVec.getLsbD_and, getLsbD_splitLink hk, getLsbD_addrMask hk]
  cases h : decide (12 ≤ k) && decide (k < 52) <;> simp_all

theorem splitLink_not_large (hp : IsFrame p) : splitLink e p &&& eptLargePage = 0 := by
  refine BitVec.eq_of_getLsbD_eq fun k hk => ?_
  rw [BitVec.getLsbD_and, getLsbD_splitLink hk, getLsbD_largeMask hk]
  by_cases h7 : k = 7
  · subst h7
    simpa using hp.getLsbD (by decide : 7 < 12)
  · simp [h7]

/-- Entry `i` holds the address of the `i`-th part. -/
theorem getLsbD_splitChild_addr (hlevel : level = 2 ∨ level = 3) (ha : EptAligned level e) {i : ℕ}
    (hi : i < 512) {k : ℕ} (hk : k < 64) : (splitChild level e i &&& eptAddrMask).getLsbD k =
      ((e &&& eptAddrMask).getLsbD k ||
        (decide (eptLevelShift (level - 1) ≤ k) && i.testBit (k - eptLevelShift (level - 1)))) := by
  obtain ⟨h12, hS, hS30⟩ := eptLevelShift_eq hlevel
  rw [BitVec.getLsbD_and, getLsbD_splitChild hlevel ha hi hk, getLsbD_splitPrototype hk,
    BitVec.getLsbD_and, getLsbD_addrMask hk]
  by_cases hmask : 12 ≤ k ∧ k < 52
  · simp [hmask.1, hmask.2]
  · have hzero : (decide (12 ≤ k) && decide (k < 52)) = false := by simpa using hmask
    have hbit : (decide (eptLevelShift (level - 1) ≤ k) &&
        i.testBit (k - eptLevelShift (level - 1))) = false := by
      by_cases hle : eptLevelShift (level - 1) ≤ k
      · simp [testBit_of_lt hi (by omega : 9 ≤ k - eptLevelShift (level - 1))]
      · simp [hle]
    rw [hzero, hbit]
    simp

theorem splitChild_aligned (hlevel : level = 2 ∨ level = 3) (ha : EptAligned level e) {i : ℕ}
    (hi : i < 512) : EptAligned (level - 1) (splitChild level e i) := by
  obtain ⟨-, hS, hS30⟩ := eptLevelShift_eq hlevel
  refine toNat_mod_two_pow_eq_zero_iff.mpr fun k hk => ?_
  rw [getLsbD_splitChild_addr hlevel ha hi (by omega), ha.getLsbD (by omega)]
  simp [not_le.mpr hk]

theorem getLsbD_eptHostAddr {gpa : BitVec 64} (hs : eptLevelShift level < 64) {k : ℕ}
    (hk : k < 64) : (eptHostAddr level e gpa).getLsbD k =
      if k < eptLevelShift level then gpa.getLsbD k else (e &&& eptAddrMask).getLsbD k := by
  have hmask : (1#64 <<< eptLevelShift level - 1).getLsbD k = decide (k < eptLevelShift level) := by
    have hone := toNat_one_shiftLeft (w := 64) hs
    have := Nat.two_pow_pos (eptLevelShift level)
    rw [BitVec.getLsbD, BitVec.toNat_sub_of_le, hone]
    · exact Nat.testBit_two_pow_sub_one ..
    · rw [BitVec.le_def, hone]
      exact this
  rw [eptHostAddr, BitVec.getLsbD_or, BitVec.getLsbD_and, hmask, BitVec.getLsbD_shiftLeft,
    BitVec.getLsbD_ushiftRight]
  by_cases h : k < eptLevelShift level
  · simp [h]
  · rw [Nat.add_sub_cancel' (not_lt.mp h)]
    simp [h, hk]

/-- The part of a large page that `gpa` lies in has the host address the page gave it. -/
theorem splitChild_hostAddr (hlevel : level = 2 ∨ level = 3) (ha : EptAligned level e)
    (gpa : BitVec 64) :
    eptHostAddr (level - 1) (splitChild level e (eptFormat.pgdirOffset gpa (level - 1)).toNat) gpa =
      eptHostAddr level e gpa := by
  obtain ⟨h12, hS, hS30⟩ := eptLevelShift_eq hlevel
  have hlt : (eptFormat.pgdirOffset gpa (level - 1)).toNat < 512 :=
    eptFormat.toNat_pgdirOffset_lt gpa (level - 1)
  refine BitVec.eq_of_getLsbD_eq fun k hk => ?_
  rw [getLsbD_eptHostAddr (by omega) hk, getLsbD_eptHostAddr (by omega) hk,
    getLsbD_splitChild_addr hlevel ha hlt hk]
  rcases Nat.lt_or_ge k (eptLevelShift (level - 1)) with hs | hs
  · rw [if_pos hs, if_pos (by omega)]
  · rw [if_neg (not_lt.mpr hs)]
    rcases Nat.lt_or_ge k (eptLevelShift level) with hk' | hk'
    · have h9 : k - eptLevelShift (level - 1) < eptFormat.pgdirWidth := show _ < 9 by omega
      rw [if_pos hk', ha.getLsbD hk', eptFormat.testBit_pgdirOffset, Nat.add_sub_cancel' hs]
      simp [h9, hs]
    · rw [if_neg (not_lt.mpr hk'), testBit_of_lt hlt (by omega)]
      simp

end Split

namespace splitLargeEptEntry

variable {p prototype : BitVec 64} {level : ℕ} {a : BitVec 64}

/-- The loop writes its entries only. -/
theorem fill_mem_of_ne : ∀ (n i : ℕ) (gpa : BitVec 64) (m : Machine 64),
    (∀ j, i ≤ j → j < i + n → a ≠ entryAddr p (BitVec.ofNat 64 j)) →
      (fill p prototype level n i gpa m).mem a = m.mem a
  | 0, _, _, _, _ => rfl
  | n + 1, i, gpa, m, h => by
    rw [fill, fill_mem_of_ne n (i + 1) _ _ fun j hj hj' => h j (by omega) (by omega)]
    exact Machine.store_mem_of_ne m (h i le_rfl (by omega))

@[simp] theorem fill_freelist : ∀ (n i : ℕ) (gpa : BitVec 64) (m : Machine 64),
    (fill p prototype level n i gpa m).freelist = m.freelist
  | 0, _, _, _ => rfl
  | n + 1, i, _, m => (fill_freelist n (i + 1) _ _).trans m.store_freelist

@[simp] theorem fill_denied : ∀ (n i : ℕ) (gpa : BitVec 64) (m : Machine 64),
    (fill p prototype level n i gpa m).denied = m.denied
  | 0, _, _, _ => rfl
  | n + 1, i, _, m => (fill_denied n (i + 1) _ _).trans m.store_denied

/-- Entry `i + j` gets the address `j` steps on. -/
theorem fill_mem : ∀ (n i : ℕ) (gpa : BitVec 64) (m : Machine 64), i + n ≤ 512 → ∀ j < n,
    (fill p prototype level n i gpa m).mem (entryAddr p (BitVec.ofNat 64 (i + j))) =
      prototype ||| (gpa + BitVec.ofNat 64 (j * 2 ^ eptLevelShift (level - 1)))
  | 0, _, _, _, _, j, hj => absurd hj (Nat.not_lt_zero j)
  | n + 1, i, gpa, m, hi, 0, _ => by
    rw [Nat.add_zero i, fill, fill_mem_of_ne, Machine.store_mem_self, Nat.zero_mul]
    · simp
    · intro j hj hj' h
      have hlt : ∀ k < 512, k < 2 ^ eptFormat.pgdirWidth := fun _ hk => hk
      have := eptFormat.entryAddr_inj (hlt i (by omega)) (hlt j (by omega)) h
      omega
  | n + 1, i, gpa, m, hi, j + 1, hj => by
    have hstep : gpa + 1#64 <<< eptLevelShift (level - 1) +
        BitVec.ofNat 64 (j * 2 ^ eptLevelShift (level - 1)) =
          gpa + BitVec.ofNat 64 ((j + 1) * 2 ^ eptLevelShift (level - 1)) := by
      have hone : 1#64 <<< eptLevelShift (level - 1) =
          BitVec.ofNat 64 (2 ^ eptLevelShift (level - 1)) := by
        refine BitVec.eq_of_toNat_eq ?_
        rw [BitVec.toNat_shiftLeft, BitVec.toNat_ofNat, BitVec.toNat_ofNat, Nat.shiftLeft_eq]
        simp
      rw [hone, BitVec.add_assoc, ← BitVec.ofNat_add, Nat.succ_mul, Nat.add_comm (2 ^ _)]
    have hidx : i + (j + 1) = i + 1 + j := by omega
    rw [fill, hidx, fill_mem n (i + 1) _ _ (by omega) j (by omega), hstep]

end splitLargeEptEntry

section SplitEntry

variable {m : Machine 64} {pml4 gpa t₀ p : BitVec 64} {l rest : List (BitVec 64)} {d level : ℕ}

/-- The machine after a split. -/
def splitMachine (slot p : BitVec 64) (level : ℕ) (rest : BitVec 64) (m : Machine 64) :
    Machine 64 :=
  (splitLargeEptEntry.fill p (splitPrototype level (m.mem slot)) level 512 0
    (m.mem slot &&& eptAddrMask) ({ m with freelist := rest }.clearPage p)).store slot
      (splitLink (m.mem slot) p)

theorem splitMachine_freelist {slot r : BitVec 64} :
    (splitMachine slot p level r m).freelist = r :=
  (Machine.store_freelist _).trans (splitLargeEptEntry.fill_freelist 512 0 _ _)

theorem splitMachine_denied {slot r : BitVec 64} :
    (splitMachine slot p level r m).denied = m.denied :=
  (Machine.store_denied _).trans (splitLargeEptEntry.fill_denied 512 0 _ _)

theorem splitLargeEptEntry_cons {slot : BitVec 64} (hl : m.FreeList (p :: rest))
    (hlevel : level = 2 ∨ level = 3) (hpresent : m.mem slot &&& eptPresent ≠ 0)
    (hlarge : m.mem slot &&& eptLargePage ≠ 0) :
    splitLargeEptEntry slot level m = some (splitMachine slot p level (m.mem p) m) := by
  obtain ⟨heq, -⟩ := allocPage_cons hl
  have hp : p ≠ 0 := (chain_cons.mp hl).2.1
  unfold splitLargeEptEntry
  simp only [if_neg hpresent, if_neg hlarge, hlevel, not_true_eq_false, if_false, heq, if_neg hp]
  rfl

theorem splitLargeEptEntry_nil {slot : BitVec 64} (hl : m.FreeList []) :
    splitLargeEptEntry slot level m = none := by
  unfold splitLargeEptEntry
  simp only [allocPage_nil hl, if_true, ite_self]

/-- Off the new table and the split entry, a split writes nothing. -/
theorem splitMachine_mem_of_ne {slot a : BitVec 64} (hp : PageAligned p) (ha : a ≠ slot)
    (hap : pageOf a ≠ p) (r : BitVec 64) : (splitMachine slot p level r m).mem a = m.mem a := by
  rw [splitMachine, Machine.store_mem_of_ne _ ha, splitLargeEptEntry.fill_mem_of_ne]
  · exact Machine.clearPage_mem_of_not _ fun h => hap ((inPage_iff hp).mp h)
  · rintro j - hj rfl
    exact hap (eptFormat.pageOf_entryAddr_ofNat hp (by rwa [Nat.zero_add] at hj))

theorem splitMachine_mem_entry {slot : BitVec 64} (hp : PageAligned p) (hslot : pageOf slot ≠ p)
    (r : BitVec 64) {i : ℕ} (hi : i < 512) :
    (splitMachine slot p level r m).mem (entryAddr p (BitVec.ofNat 64 i)) =
      splitChild level (m.mem slot) i := by
  have hne : entryAddr p (BitVec.ofNat 64 i) ≠ slot := by
    rintro rfl
    exact hslot (eptFormat.pageOf_entryAddr_ofNat hp hi)
  have hfill := @splitLargeEptEntry.fill_mem p (splitPrototype level (m.mem slot)) level 512 0
    (m.mem slot &&& eptAddrMask) ({ m with freelist := r }.clearPage p) (by decide) i hi
  rw [Nat.zero_add] at hfill
  rw [splitMachine, Machine.store_mem_of_ne _ hne, hfill, splitChild]

variable {slot : BitVec 64}

/-- What holds of an entry when the walk comes to split it. -/
structure Splittable (m : Machine 64) (pml4 gpa t₀ slot : BitVec 64) (d level : ℕ) : Prop where
  tree : eptFormat.radix.IsTree m.mem pml4
  table : eptFormat.radix.table m.mem pml4 gpa d = some t₀
  slot_eq : entryAddr t₀ (eptFormat.pgdirOffset gpa level) = slot
  depth : eptFormat.pageLevel - d = level
  level_cases : level = 2 ∨ level = 3
  present : m.mem slot &&& eptPresent ≠ 0
  large : m.mem slot &&& eptLargePage ≠ 0
  aligned : EptAligned level (m.mem slot)

theorem Splittable.pageOf_slot (h : Splittable m pml4 gpa t₀ slot d level) : pageOf slot = t₀ := by
  rw [← h.slot_eq]
  exact eptFormat.pageOf_entryAddr (pageOf_eq_self_iff.mp (h.tree.page_table h.table)) gpa level

theorem Splittable.radix_slot (h : Splittable m pml4 gpa t₀ slot d level) :
    eptFormat.radix.slot t₀ (eptFormat.radix.index d gpa) = slot := by
  rw [PtFormat.slot_index, h.depth, h.slot_eq]

/-- The entries of the new table are the parts of the large entry. -/
theorem Splittable.child (h : Splittable m pml4 gpa t₀ slot d level) (hp : IsFrame p)
    (hfresh : p ∉ eptFormat.radix.tables m.mem pml4) (r v : BitVec 64) :
    (splitMachine slot p level r m).mem (eptFormat.radix.slot p (eptFormat.radix.index (d + 1) v)) =
      splitChild level (m.mem slot) (eptFormat.pgdirOffset v (level - 1)).toNat := by
  have hd : eptFormat.pageLevel - (d + 1) = level - 1 := by
    have := h.depth
    omega
  have hne : pageOf slot ≠ p := by
    rw [h.pageOf_slot]
    rintro rfl
    exact hfresh ⟨gpa, d, h.table⟩
  have hi : (eptFormat.pgdirOffset v (level - 1)).toNat < 512 := eptFormat.toNat_pgdirOffset_lt v _
  rw [← splitMachine_mem_entry (hp.pageAligned rfl) hne r hi, ← hd]
  rfl

/-- A split is a graft : the large entry becomes a link to the table of its parts. -/
theorem Splittable.graft (h : Splittable m pml4 gpa t₀ slot d level) (hp : IsFrame p)
    (hfresh : p ∉ eptFormat.radix.tables m.mem pml4) (r : BitVec 64) :
    eptFormat.radix.Graft m.mem (splitMachine slot p level r m).mem pml4 gpa d t₀ p
      (splitLink (m.mem slot) p) where
  tree := h.tree
  reach := h.table
  dead := by
    rw [h.radix_slot, PtFormat.radix_next, h.depth, PtFormat.nextTable_eq_none]
    exact Or.inr (Or.inr ⟨h.level_cases, h.large⟩)
  page := pageOf_eq_self_iff.mpr (hp.pageAligned rfl)
  fresh := hfresh
  link := by
    have hon : eptFormat.Present (splitLink (m.mem slot) p) := fun h0 =>
      h.present ((splitLink_perms hp).symm.trans h0)
    have hsmall : ¬PtFormat.Large level (splitLink (m.mem slot) p) := fun hl =>
      hl.2 (splitLink_not_large hp)
    have hlevel : 1 < level := by
      have := h.level_cases
      omega
    rw [PtFormat.radix_next, h.depth, PtFormat.nextTable, if_pos ⟨hon, hlevel, hsmall⟩,
      splitLink_addr hp]
  slot := by
    rw [h.radix_slot]
    exact Machine.store_mem_self _
  frame := by
    intro a ha hap
    rw [h.radix_slot] at ha
    exact splitMachine_mem_of_ne (hp.pageAligned rfl) ha hap r
  bare := by
    intro v
    have hd : eptFormat.pageLevel - (d + 1) = level - 1 := by
      have := h.depth
      omega
    rw [h.child hp hfresh, PtFormat.radix_next, hd, PtFormat.nextTable_eq_none]
    rcases h.level_cases with rfl | rfl
    · exact Or.inr (Or.inl le_rfl)
    · have hbit := splitChild_large h.aligned
        (eptFormat.toNat_pgdirOffset_lt v 2 : (eptFormat.pgdirOffset v 2).toNat < 512)
      exact Or.inr (Or.inr ⟨Or.inl rfl, fun h0 => h.large (hbit.symm.trans h0)⟩)

/-- A split takes the first page of the free list. -/
theorem Splittable.supplied (h : Splittable m pml4 gpa t₀ slot d level)
    (hs : Supplied eptFormat m pml4 0 (p :: rest)) :
    Supplied eptFormat (splitMachine slot p level (m.mem p) m) pml4 0 rest := by
  have g := h.graft (hs.frame p List.mem_cons_self) (hs.fresh p List.mem_cons_self) (m.mem p)
  have hlist : Chain m.mem 0 (splitMachine slot p level (m.mem p) m).freelist rest := by
    rw [splitMachine_freelist]
    exact (allocPage_cons hs.list).2
  exact hs.graft (if_pos rfl) g hlist

/-- The entries above the split one stay on every path through it. -/
theorem Splittable.above (h : Splittable m pml4 gpa t₀ slot d level) (hp : IsFrame p)
    (hfresh : p ∉ eptFormat.radix.tables m.mem pml4) (r : BitVec 64) {v : BitVec 64}
    (hagree : eptFormat.radix.Agree (d + 1) gpa v) :
    (List.range (d + 1)).filterMap
        (eptFormat.radix.entry (splitMachine slot p level r m).mem pml4 v) =
      (List.range d).filterMap (eptFormat.radix.entry m.mem pml4 v) ++
        [splitLink (m.mem slot) p] := by
  have g := h.graft hp hfresh r
  rw [List.range_succ, List.filterMap_append]
  congr 1
  · refine List.filterMap_congr fun k hk => ?_
    have hk := List.mem_range.mp hk
    exact (g.unmoved (Or.inl hk.le)).2 (Or.inl hk)
  · rw [List.filterMap_cons, g.entry_link hagree]
    rfl

/-- The entries above the split one, of a path through it. -/
def Splittable.path (_ : Splittable m pml4 gpa t₀ slot d level) (v : BitVec 64) :
    List (BitVec 64) :=
  (List.range d).filterMap (eptFormat.radix.entry m.mem pml4 v)

theorem Splittable.child_present (h : Splittable m pml4 gpa t₀ slot d level) {i : ℕ}
    (hi : i < 512) :
    eptFormat.Present (splitChild level (m.mem slot) i) := fun h0 =>
  h.present ((splitChild_perms h.level_cases h.aligned hi).symm.trans h0)

/-- A walk through the large entry ends there. After the split it goes on to one of its parts. -/
theorem Splittable.walk_through (h : Splittable m pml4 gpa t₀ slot d level) (hp : IsFrame p)
    (hfresh : p ∉ eptFormat.radix.tables m.mem pml4) (r : BitVec 64) {v : BitVec 64}
    (hagree : eptFormat.radix.Agree (d + 1) gpa v) :
    (h.path v).length = d ∧ eptFormat.walk pml4 m.mem v = some (h.path v ++ [m.mem slot]) ∧
      eptFormat.walk pml4 (splitMachine slot p level r m).mem v = some (h.path v ++
        [splitLink (m.mem slot) p] ++
          [splitChild level (m.mem slot) (eptFormat.pgdirOffset v (level - 1)).toNat]) := by
  have g := h.graft hp hfresh r
  have hpresent : eptFormat.Present (m.mem slot) := h.present
  have hends := g.ends hagree
  have hends' := g.ends_new hagree
  rw [h.radix_slot] at hends
  rw [h.child hp hfresh] at hends'
  refine ⟨eptFormat.length_of_ends hends d le_rfl, ?_, ?_⟩
  · rw [eptFormat.walk_of_ends hends, if_pos hpresent]
    rfl
  · rw [eptFormat.walk_of_ends hends',
      if_pos (h.child_present (eptFormat.toNat_pgdirOffset_lt v _)),
      h.above hp hfresh r hagree]
    rfl

/-- The link of a split and a part of it grant together what the large entry did. -/
theorem Splittable.perms_through (h : Splittable m pml4 gpa t₀ slot d level) (hp : IsFrame p)
    {i : ℕ} (hi : i < 512) (above : List (BitVec 64)) :
    eptPerms (above ++ [splitLink (m.mem slot) p] ++ [splitChild level (m.mem slot) i]) =
      eptPerms (above ++ [m.mem slot]) := by
  have hperms := splitChild_perms h.level_cases h.aligned hi
  have hlink := splitLink_perms (e := m.mem slot) hp
  rw [List.append_assoc]
  refine eptPerms_append ?_
  calc splitLink (m.mem slot) p &&& (_ &&& eptPresent)
      = splitLink (m.mem slot) p &&& eptPresent &&& m.mem slot := by
        rw [hperms, BitVec.and_assoc, BitVec.and_comm (m.mem slot)]
    _ = m.mem slot &&& eptPresent := by
        rw [hlink, BitVec.and_assoc, BitVec.and_comm eptPresent, ← BitVec.and_assoc,
          BitVec.and_self]

/-- What is read off a walk (the host address, the permissions, and what a leaf shares with its
parts) is kept by a split. -/
theorem Splittable.walk_map {X : Type*} (h : Splittable m pml4 gpa t₀ slot d level) (hp : IsFrame p)
    (hfresh : p ∉ eptFormat.radix.tables m.mem pml4) (r v : BitVec 64)
    (f : BitVec 64 → BitVec 64 → BitVec 64 → X)
    (hf : ∀ host perms i, i < 512 →
      f host perms (splitChild level (m.mem slot) i) = f host perms (m.mem slot)) :
    ((eptFormat.walk pml4 (splitMachine slot p level r m).mem v).map fun es =>
        f (eptHostAddr (eptFormat.pageLevel + 1 - es.length) (es.getLastD 0) v) (eptPerms es)
          (es.getLastD 0)) =
      (eptFormat.walk pml4 m.mem v).map fun es =>
        f (eptHostAddr (eptFormat.pageLevel + 1 - es.length) (es.getLastD 0) v) (eptPerms es)
          (es.getLastD 0) := by
  by_cases hagree : eptFormat.radix.Agree (d + 1) gpa v
  · obtain ⟨hlen, hwalk, hwalk'⟩ := h.walk_through hp hfresh r hagree
    have hi : (eptFormat.pgdirOffset v (level - 1)).toNat < 512 :=
      eptFormat.toNat_pgdirOffset_lt v _
    have hdepth := h.depth
    have hd : eptFormat.pageLevel + 1 - (d + 1 + 1) = level - 1 := by omega
    have hd' : eptFormat.pageLevel + 1 - (d + 1) = level := by omega
    rw [hwalk, hwalk', Option.map_some, Option.map_some, h.perms_through hp hi]
    simp only [List.length_append, List.length_singleton, hlen, hd, hd', List.getLastD_concat,
      splitChild_hostAddr h.level_cases h.aligned, hf _ _ _ hi]
  · rw [eptFormat.walk_congr fun k => (h.graft hp hfresh r).entry_old hagree]

/-- A split changes no translation. -/
theorem Splittable.translate (h : Splittable m pml4 gpa t₀ slot d level) (hp : IsFrame p)
    (hfresh : p ∉ eptFormat.radix.tables m.mem pml4) (r v : BitVec 64) :
    eptTranslate pml4 (splitMachine slot p level r m).mem v = eptTranslate pml4 m.mem v :=
  h.walk_map hp hfresh r v (fun host perms _ => (host, perms)) fun _ _ _ _ => rfl

end SplitEntry

/-! ## Installing an entry -/

/-- The large entries on the walk of `gpa` above a level lie below level 4, and are
aligned to their size. -/
def EptPath (cells : BitVec 64 → BitVec 64) (pml4 gpa : BitVec 64) (level : ℕ) : Prop :=
  ∀ d e, d + level < eptFormat.pageLevel → eptFormat.radix.entry cells pml4 gpa d = some e →
    eptFormat.Present e → e &&& eptLargePage ≠ 0 → 0 < d ∧ EptAligned (eptFormat.pageLevel - d) e

section Install

variable {m m' : Machine 64} {pml4 gpa pte pt t₀ p : BitVec 64} {pteLevel level d : ℕ}

/-- What `install_ept_entry` does on its way down : it links a zeroed table into an entry of the
path that is not present, or splits a large one. -/
inductive EptGrowth (pml4 gpa : BitVec 64) (m : Machine 64) : Machine 64 → Prop
  | link {m' : Machine 64} {t₀ p : BitVec 64} {d : ℕ} (hp : IsFrame p)
      (hg : eptFormat.radix.Graft m.mem m'.mem pml4 gpa d t₀ p (p ||| 7))
      (hold : ¬eptFormat.Present (m.mem (eptFormat.radix.slot t₀ (eptFormat.radix.index d gpa))))
      (hzero : ∀ v, m'.mem (eptFormat.radix.slot p (eptFormat.radix.index (d + 1) v)) = 0) :
      EptGrowth pml4 gpa m m'
  | split {t₀ slot p r : BitVec 64} {d level : ℕ} (hs : Splittable m pml4 gpa t₀ slot d level)
      (hp : IsFrame p) (hfresh : p ∉ eptFormat.radix.tables m.mem pml4) :
      EptGrowth pml4 gpa m (splitMachine slot p level r m)

/-- A graft of a zeroed table keeps the path. -/
theorem EptPath.graft {cells cells' : BitVec 64 → BitVec 64} (h : EptPath cells pml4 gpa level)
    (hp : IsFrame p) (g : eptFormat.radix.Graft cells cells' pml4 gpa d t₀ p (p ||| 7))
    (hzero : ∀ v, cells' (eptFormat.radix.slot p (eptFormat.radix.index (d + 1) v)) = 0) :
    EptPath cells' pml4 gpa level := by
  intro k e hk he hpresent hlarge
  rcases g.entry_cases he with he | ⟨-, ⟨rfl, rfl⟩ | ⟨-, rfl⟩⟩
  · exact h k e hk he hpresent hlarge
  · exact absurd (PtFormat.link_and_largeMask hp) hlarge
  · rw [hzero] at hpresent
    exact absurd hpresent eptFormat.not_present_zero

/-- So does a split : the parts are aligned too. -/
theorem EptPath.split {slot r : BitVec 64} {lv : ℕ} (h : EptPath m.mem pml4 gpa level)
    (hs : Splittable m pml4 gpa t₀ slot d lv) (hp : IsFrame p)
    (hfresh : p ∉ eptFormat.radix.tables m.mem pml4) :
    EptPath (splitMachine slot p lv r m).mem pml4 gpa level := by
  intro k e hk he hpresent hlarge
  rcases (hs.graft hp hfresh r).entry_cases he with he | ⟨-, ⟨rfl, rfl⟩ | ⟨rfl, rfl⟩⟩
  · exact h k e hk he hpresent hlarge
  · exact absurd (splitLink_not_large hp) hlarge
  · have hd : eptFormat.pageLevel - (d + 1) = lv - 1 := by
      have := hs.depth
      omega
    rw [hs.child hp hfresh, hd]
    exact ⟨Nat.succ_pos d, splitChild_aligned hs.level_cases hs.aligned
      (eptFormat.toNat_pgdirOffset_lt gpa _)⟩

/-- A run that was denied a page stays so. -/
theorem splitLargeEptEntry_denied {slot : BitVec 64} (h : splitLargeEptEntry slot level m = some m')
    (hden : m.denied = true) : m'.denied = true := by
  rcases halloc : allocPage m with ⟨newPt, m₁⟩
  have hden₁ : m₁.denied = true := by
    have := allocPage_denied hden
    rwa [halloc] at this
  simp only [splitLargeEptEntry, halloc] at h
  split_ifs at h
  all_goals
    rw [← Option.some.inj h, Machine.store_denied, splitLargeEptEntry.fill_denied]
    exact hden₁

namespace installEptEntry

theorem walk_denied : ∀ {level : ℕ} {pt ptPage : BitVec 64} {m m' : Machine 64},
    walk gpa pte pteLevel level pt ptPage m = some m' → m.denied = true → m'.denied = true
  | 0, _, _, _, _, h, hden => by
    cases h
    exact hden
  | level + 1, pt, ptPage, m, m', h, hden => by
    rw [walk] at h
    split_ifs at h
    · refine walk_denied h ?_
      exact takeTable_denied hden
    · obtain ⟨m₁, hsplit, h⟩ := Option.bind_eq_some_iff.mp h
      exact walk_denied h (splitLargeEptEntry_denied hsplit hden)
    · exact walk_denied h hden
    · cases h
      exact hden

theorem walk_target : walk gpa pte (level + 1) (level + 1) pt 0 m =
    some (m.store (entryAddr pt (eptFormat.pgdirOffset gpa (level + 1))) pte) := by
  rw [walk, if_neg (lt_irrefl _)]

theorem walk_next (hlt : pteLevel < level + 1)
    (hpresent : m.mem (entryAddr pt (eptFormat.pgdirOffset gpa (level + 1))) &&& eptPresent ≠ 0)
    (hsmall : m.mem (entryAddr pt (eptFormat.pgdirOffset gpa (level + 1))) &&& eptLargePage = 0) :
    walk gpa pte pteLevel (level + 1) pt 0 m = walk gpa pte pteLevel level
      (m.mem (entryAddr pt (eptFormat.pgdirOffset gpa (level + 1))) &&& eptAddrMask) 0 m := by
  rw [walk, if_pos hlt, if_neg hpresent, if_neg (not_not.mpr hsmall)]
  rfl

theorem walk_missing {m₁ : Machine 64} (hlt : pteLevel < level + 1)
    (habsent : m.mem (entryAddr pt (eptFormat.pgdirOffset gpa (level + 1))) &&& eptPresent = 0)
    (htake : takeTable 0 m = (p, 0, m₁)) : walk gpa pte pteLevel (level + 1) pt 0 m =
      walk gpa pte pteLevel level ((p ||| 7) &&& eptAddrMask) 0 ((m₁.clearPage p).store
        (entryAddr pt (eptFormat.pgdirOffset gpa (level + 1))) (p ||| 7)) := by
  have hbits : virtToPhys p ||| 1 ||| 2 ||| 4 = p ||| 7 := by
    rw [virtToPhys, BitVec.or_assoc, BitVec.or_assoc]
    rfl
  rw [walk, if_pos hlt, if_pos habsent, htake]
  simp only [hbits, Machine.store_mem_self, physToVirt]

theorem walk_split (hlt : pteLevel < level + 1)
    (hpresent : m.mem (entryAddr pt (eptFormat.pgdirOffset gpa (level + 1))) &&& eptPresent ≠ 0)
    (hlarge : m.mem (entryAddr pt (eptFormat.pgdirOffset gpa (level + 1))) &&& eptLargePage ≠ 0) :
    walk gpa pte pteLevel (level + 1) pt 0 m =
      (splitLargeEptEntry (entryAddr pt (eptFormat.pgdirOffset gpa (level + 1))) (level + 1) m).bind
        fun m => walk gpa pte pteLevel level
          (m.mem (entryAddr pt (eptFormat.pgdirOffset gpa (level + 1))) &&& eptAddrMask) 0 m := by
  rw [walk, if_pos hlt, if_neg hpresent, if_pos hlarge]
  rfl

end installEptEntry

/-- What one turn of `install_ept_entry` at depth `d` leaves : it goes on at the table `t₁`, having
taken the pages `used` to grow the tree. -/
structure EptTurned (m m₁ : Machine 64) (pml4 gpa t₁ : BitVec 64) (pteLevel d : ℕ)
    (used l₁ : List (BitVec 64)) : Prop where
  supplied : Supplied eptFormat m₁ pml4 0 l₁
  tree : eptFormat.radix.IsTree m₁.mem pml4
  path : EptPath m₁.mem pml4 gpa pteLevel
  table : eptFormat.radix.table m₁.mem pml4 gpa (d + 1) = some t₁
  denied : m₁.denied = m.denied
  growth : Relation.ReflTransGen (EptGrowth pml4 gpa) m m₁
  reached : ∀ {m' : Machine 64} {D : ℕ} {used' : List (BitVec 64)} {t : BitVec 64}, d < D →
    eptFormat.Reached (eptTranslate pml4) m₁ m' pml4 gpa D used' t →
    eptFormat.Reached (eptTranslate pml4) m m' pml4 gpa D (used ++ used') t

/-- One turn of `install_ept_entry` : it follows the entry, or takes a page to link a table or to
split the entry, and only fails to if there is none. -/
theorem installEptEntry.turn_spec {l : List (BitVec 64)} (pte : BitVec 64) (hpos : 0 < pteLevel)
    (hlt : pteLevel < level + 1) (hd : eptFormat.pageLevel - d = level + 1)
    (hs : Supplied eptFormat m pml4 0 l) (htree : eptFormat.radix.IsTree m.mem pml4)
    (hpath : EptPath m.mem pml4 gpa pteLevel)
    (ht : eptFormat.radix.table m.mem pml4 gpa d = some pt) :
    (∃ used t₁ m₁ l₁,
      walk gpa pte pteLevel (level + 1) pt 0 m = walk gpa pte pteLevel level t₁ 0 m₁ ∧
      l = used ++ l₁ ∧ used.length ≤ 1 ∧ EptTurned m m₁ pml4 gpa t₁ pteLevel d used l₁) ∨
    (l = [] ∧ ∀ m', walk gpa pte pteLevel (level + 1) pt 0 m = some m' → m'.denied = true) := by
  have hentry := eptFormat.entry_of_table ht
  rw [hd] at hentry
  by_cases hpresent :
    m.mem (entryAddr pt (eptFormat.pgdirOffset gpa (level + 1))) &&& eptPresent = 0
  · cases l with
    | nil =>
      refine Or.inr ⟨rfl, fun m' h => ?_⟩
      have htake : takeTable 0 m = (0, 0, { m with denied := true }) := by
        rw [takeTable, if_pos rfl, allocPage_nil hs.list]
      rw [walk_missing hlt hpresent htake] at h
      exact walk_denied h rfl
    | cons p rest =>
      obtain ⟨m₁, htake, hden, hp, hg, hzero, hs'⟩ := eptFormat.newTable_spec hs (if_pos rfl) htree
        ht hd (by omega) (not_not.mpr hpresent)
      have hold : ¬eptFormat.Present
          (m.mem (eptFormat.radix.slot pt (eptFormat.radix.index d gpa))) := by
        rw [PtFormat.slot_index, hd]
        exact not_not.mpr hpresent
      rw [walk_missing hlt hpresent htake, PtFormat.link_and_addrMask hp]
      refine Or.inl ⟨[p], p, _, rest, rfl, rfl, le_rfl, ?_⟩
      exact
        { supplied := hs'
          tree := hg.isTree
          path := hpath.graft hp hg hzero
          table := hg.table_new fun _ _ => rfl
          denied := hden
          growth := .single (.link hp hg hold hzero)
          reached := fun hD hreach => hreach.graft hg hD fun v => by
            rw [eptTranslate, eptTranslate]
            exact congrArg _ (eptFormat.walk_growthView hg hold hzero v) }
  · by_cases hlarge : m.mem (entryAddr pt (eptFormat.pgdirOffset gpa (level + 1))) &&&
        eptLargePage = 0
    · have hsmall : ¬PtFormat.Large (level + 1)
          (m.mem (entryAddr pt (eptFormat.pgdirOffset gpa (level + 1)))) := fun h => h.2 hlarge
      refine Or.inl ⟨[], _, m, l, walk_next hlt hpresent hlarge, rfl, zero_le_one, ?_⟩
      exact ⟨hs, htree, hpath, eptFormat.table_next ht hd (by omega) hpresent hsmall, rfl, .refl,
        fun _ hreach => hreach⟩
    · obtain ⟨hd0, haligned⟩ := hpath d _ (by omega) hentry hpresent hlarge
      rw [hd] at haligned
      have hlevel : level + 1 = 2 ∨ level + 1 = 3 := by
        have h4 : eptFormat.pageLevel = 4 := rfl
        omega
      have hsplit : Splittable m pml4 gpa pt _ d (level + 1) :=
        ⟨htree, ht, rfl, hd, hlevel, hpresent, hlarge, haligned⟩
      rw [walk_split hlt hpresent hlarge]
      cases l with
      | nil =>
        refine Or.inr ⟨rfl, fun m' h => ?_⟩
        rw [splitLargeEptEntry_nil hs.list] at h
        cases h
      | cons p rest =>
        have hp : IsFrame p := hs.frame p List.mem_cons_self
        have hfresh := hs.fresh p List.mem_cons_self
        have hg := hsplit.graft hp hfresh (m.mem p)
        have hslot := hg.slot
        rw [hsplit.radix_slot] at hslot
        rw [splitLargeEptEntry_cons hs.list hlevel hpresent hlarge, Option.bind_some, hslot,
          splitLink_addr hp]
        refine Or.inl ⟨[p], p, _, rest, rfl, rfl, le_rfl, ?_⟩
        exact
          { supplied := hsplit.supplied hs
            tree := hg.isTree
            path := hpath.split hsplit hp hfresh
            table := hg.table_new fun _ _ => rfl
            denied := splitMachine_denied
            growth := .single (.split hsplit hp hfresh)
            reached := fun hD hreach => hreach.graft hg hD (hsplit.translate hp hfresh _) }

/-- `install_ept_entry` from level `level` down to `pteLevel` : it grows the tree, splitting
what is large, until it reaches a table of that level, and writes there. It takes at most one
page for each level on the way, and only runs out of pages if there are fewer. -/
theorem installEptEntry.walk_spec (pte : BitVec 64) (hpos : 0 < pteLevel) :
    ∀ {level d : ℕ} {pt : BitVec 64} {m : Machine 64} {l : List (BitVec 64)},
      pteLevel ≤ level → eptFormat.pageLevel - d = level → Supplied eptFormat m pml4 0 l →
      eptFormat.radix.IsTree m.mem pml4 → EptPath m.mem pml4 gpa pteLevel →
      eptFormat.radix.table m.mem pml4 gpa d = some pt →
      (∃ used t m' l',
        walk gpa pte pteLevel level pt 0 m =
          some (m'.store (entryAddr t (eptFormat.pgdirOffset gpa pteLevel)) pte) ∧
        eptFormat.Reached (eptTranslate pml4) m m' pml4 gpa
          (eptFormat.pageLevel - pteLevel) used t ∧
        Relation.ReflTransGen (EptGrowth pml4 gpa) m m' ∧ used.length ≤ level - pteLevel ∧
        l = used ++ l' ∧ Supplied eptFormat m' pml4 0 l' ∧ m'.denied = m.denied) ∨
      (l.length < level - pteLevel ∧
        ∀ m', walk gpa pte pteLevel level pt 0 m = some m' → m'.denied = true)
  | 0, _, _, _, _, hle, _, _, _, _, _ => absurd hle (not_le.mpr hpos)
  | level + 1, d, pt, m, l, hle, hd, hs, htree, hpath, ht => by
    rcases hle.lt_or_eq with hlt | rfl
    · rcases turn_spec pte hpos hlt hd hs htree hpath ht with
        ⟨used, t₁, m₁, l₁, hwalk, rfl, hused, h⟩ | ⟨rfl, hden⟩
      · rw [hwalk, List.length_append]
        rcases walk_spec pte hpos (Nat.le_of_lt_succ hlt) (by omega) h.supplied h.tree h.path
          h.table
          with ⟨used', t, m', l', hrun, hreach, hgrow, hused', rfl, hs', hden⟩ | ⟨hshort, hden⟩
        · refine Or.inl ⟨used ++ used', t, m', l', hrun, h.reached (by omega) hreach,
            h.growth.trans hgrow, ?_, (List.append_assoc ..).symm, hs', hden.trans h.denied⟩
          rw [List.length_append]
          omega
        · exact Or.inr ⟨by omega, hden⟩
      · exact Or.inr ⟨Nat.sub_pos_of_lt hlt, hden⟩
    · have hD : d = eptFormat.pageLevel - (level + 1) := by omega
      subst hD
      rw [walk_target]
      exact Or.inl ⟨[], pt, m, l, rfl, .refl htree ht, .refl, Nat.zero_le _, rfl, hs, rfl⟩

/-- `get_ept_pte` reads the entry of the table that the walk reaches. -/
theorem getEptPte.walk_spec {t : BitVec 64} (hpos : 0 < level)
    (ht : eptFormat.radix.table m.mem pml4 gpa (eptFormat.pageLevel - level) = some t) :
    ∀ {l d : ℕ} {pt : BitVec 64}, level ≤ l → eptFormat.pageLevel - d = l →
      eptFormat.radix.table m.mem pml4 gpa d = some pt →
      getEptPte.walk m gpa level l pt =
        some (some (m.mem (entryAddr t (eptFormat.pgdirOffset gpa level))))
  | 0, _, _, hle, _, _ => absurd hle (not_le.mpr hpos)
  | l + 1, d, pt, hle, hd, hpt => by
    rw [walk]
    rcases hle.lt_or_eq with hlt | rfl
    · obtain ⟨hon, hnot, ht'⟩ := eptFormat.table_next_of_deeper ht (by omega) hpt hd
      have hpresent : ¬m.mem (entryAddr pt (eptFormat.pgdirOffset gpa (l + 1))) &&&
          eptPresent = 0 := hon
      have hsmall : ¬(l + 1 < 4 ∧
          m.mem (entryAddr pt (eptFormat.pgdirOffset gpa (l + 1))) &&& eptLargePage ≠ 0) :=
        fun h => hnot ⟨by omega, h.2⟩
      simp only [if_neg hlt.ne', if_neg hsmall, if_neg hpresent]
      exact walk_spec hpos ht (Nat.le_of_lt_succ hlt) (by omega) ht'
    · have hD : d = eptFormat.pageLevel - (l + 1) := by omega
      rw [← hD, hpt] at ht
      cases ht
      simp only [if_true]

end Install

/-! ## Install against translation -/

/-- A tree of tables, whose large entries lie below level 4 and are aligned to their size. -/
structure EptWellFormed (cells : BitVec 64 → BitVec 64) (pml4 : BitVec 64) : Prop where
  tree : eptFormat.radix.IsTree cells pml4
  top : ∀ gpa e, eptFormat.radix.entry cells pml4 gpa 0 = some e → eptFormat.Present e →
    e &&& eptLargePage = 0
  aligned : ∀ gpa d e, eptFormat.radix.entry cells pml4 gpa d = some e → eptFormat.Present e →
    PtFormat.Large (eptFormat.pageLevel - d) e → EptAligned (eptFormat.pageLevel - d) e

theorem EptWellFormed.path {cells : BitVec 64 → BitVec 64} {pml4 : BitVec 64}
    (h : EptWellFormed cells pml4) (gpa : BitVec 64) {level : ℕ} (hlevel : 0 < level) :
    EptPath cells pml4 gpa level := by
  intro d e hd he hpresent hlarge
  have hd0 : d ≠ 0 := by
    rintro rfl
    exact hlarge (h.top gpa e he hpresent)
  have h4 : eptFormat.pageLevel = 4 := rfl
  exact ⟨Nat.pos_of_ne_zero hd0, h.aligned gpa d e he hpresent ⟨by omega, hlarge⟩⟩

/-- Guest addresses have 48 bits, those that the tables translate. -/
theorem getLsbD_of_lt_48 {v : BitVec 64} (hv : v < 1#64 <<< 48) {i : ℕ}
    (hi : eptFormat.vaBits ≤ i) :
    v.getLsbD i = false := by
  have hlt : v.toNat < 2 ^ 48 := hv
  exact Nat.testBit_lt_two_pow (lt_of_lt_of_le hlt (Nat.pow_le_pow_right (by decide) hi))

/-- After `install_ept_entry`, `get_ept_pte` reads `pte` at the level, and every guest address
outside the page of the level around `gpa` has the translation it had : the same host
address and permissions, or none. The install returns if there are pages for every
level on the way. -/
theorem installEptEntry_preserves {m : Machine 64} {pml4 gpa pte : BitVec 64}
    {l : List (BitVec 64)} {level : ℕ} (hs : Supplied eptFormat m pml4 0 l)
    (hwf : EptWellFormed m.mem pml4) (hgpa : gpa < 1#64 <<< 48) (hlevel : 1 ≤ level ∧ level ≤ 3)
    (hgranted : 4 - level ≤ l.length ∨
      ∃ m', installEptEntry pml4 level gpa pte 0 m = some m' ∧ m'.denied = false) :
    ∃ m', installEptEntry pml4 level gpa pte 0 m = some m' ∧
      getEptPte m' pml4 gpa level = some (some pte) ∧
      ∀ v, v < 1#64 <<< 48 → v >>> eptLevelShift level ≠ gpa >>> eptLevelShift level →
        eptTranslate pml4 m'.mem v = eptTranslate pml4 m.mem v := by
  have hle : level ≤ eptFormat.pageLevel := show level ≤ 4 by omega
  rw [installEptEntry, if_pos hgpa] at *
  rcases installEptEntry.walk_spec pte hlevel.1 hle (Nat.sub_zero _) hs hwf.tree
    (hwf.path gpa hlevel.1) rfl with
    ⟨used, t, m₁, l', hrun, hreach, -⟩ | ⟨hshort, hden⟩
  · have hlv : eptFormat.pageLevel - (eptFormat.pageLevel - level) = level := Nat.sub_sub_self hle
    have htable := hreach.grown.tree.table_update (e := pte) (v := gpa) hreach.table (Or.inl le_rfl)
    rw [PtFormat.slot_index, hlv] at htable
    refine ⟨_, hrun, ?_, fun v hv hne => ?_⟩
    · rw [getEptPte, if_pos ⟨hlevel.1, hle⟩,
        getEptPte.walk_spec hlevel.1 (htable.trans hreach.table) hle (Nat.sub_zero _) rfl]
      exact congrArg (some ∘ some) (Machine.store_mem_self _)
    · have hnot : ¬eptFormat.radix.Agree (eptFormat.pageLevel - level + 1) gpa v := by
        intro hagree
        have hd : eptFormat.pageLevel - level + 1 ≤ eptFormat.pageLevel := by
          have h4 : eptFormat.pageLevel = 4 := rfl
          omega
        have hshift := eptFormat.shift_eq_of_agree hd hagree fun i hi _ => by
          rw [getLsbD_of_lt_48 hgpa hi, getLsbD_of_lt_48 hv hi]
        rw [show eptFormat.pageLevel - (eptFormat.pageLevel - level + 1) + 1 = level from
          show 4 - (4 - level + 1) + 1 = level by omega] at hshift
        exact hne hshift.symm
      have hentry := hreach.entry_store_of_not (e := pte) hnot
      rw [hlv] at hentry
      rw [eptTranslate, eptFormat.walk_congr hentry]
      exact hreach.grown.view v
  · rcases hgranted with h | ⟨m', hrun, hm'⟩
    · exact absurd h (not_le.mpr hshort)
    · exact absurd (hm'.symm.trans (hden m' hrun)) Bool.false_ne_true

theorem zeroedRoot_wellFormed : EptWellFormed zeroedRoot.mem 0x1000 where
  tree := Radix.isTree_of_bare (by decide) (zeroedRoot_bare _)
  top gpa e he _ := by
    rw [zeroedRoot_entry _ he]
    decide
  aligned gpa d e he hpresent := by
    rw [zeroedRoot_entry _ he] at hpresent
    exact absurd hpresent eptFormat.not_present_zero

end AcrnUt
