import AcrnUt.Ept

/-!
# Reading and writing one entry of an extended page table

`get_ept_pte` and `set_ept_pte` of `x86/vmx.c`, and the pair of `x86/vmx_tests.c` built on them.
Both walk down to a level, each in its own copy of the loop. The reader stops at an entry that
is not present, or large below level 4. The writer asserts that an entry is present, and takes
every present one for a table.

`eptSlotAt` and `eptEntryAt` are the entries on the path of an address if every one is taken for a
table. `getEptPte_eq` and `setEptPte_eq` say in these terms what the two functions do. They
agree on a path (`EptAgrees`) if the writer's assertion stops it, or if no entry above the level is
large, and none is the very word that is read (`eptAgrees_iff`).
-/

set_option linter.unusedSectionVars false

namespace AcrnUt

/-! ## The source -/

/-- The loop of `set_ept_pte`, from the table `pt` at a level. -/
def setEptPte.walk (guestAddr : BitVec 64) (level : ℕ) (pteVal : BitVec 64) (m : Machine 64) :
    ℕ → BitVec 64 → Option (Machine 64)
  | 0, _ => none
  | l + 1, pt =>
    let slot := entryAddr pt (eptFormat.pgdirOffset guestAddr (l + 1))
    if l + 1 = level then some (m.store slot pteVal)
    else if m.mem slot &&& eptPresent = 0 then none
    else setEptPte.walk guestAddr level pteVal m l (m.mem slot &&& eptAddrMask)

/-- `set_ept_pte`. -/
def setEptPte (pml4 guestAddr : BitVec 64) (level : ℕ) (pteVal : BitVec 64) (m : Machine 64) :
    Option (Machine 64) :=
  if 1 ≤ level ∧ level ≤ 4 then
    setEptPte.walk guestAddr level pteVal m eptFormat.pageLevel pml4
  else none

/-- `ept_twiddle`, with the `hpa` of `ept_access_test_data` : the original entry, and the
machine. -/
def eptTwiddle (pml4 hpa gpa : BitVec 64) (mkhuge : Bool) (level : ℕ) (clear set : BitVec 64)
    (m : Machine 64) : Option (BitVec 64 × Machine 64) :=
  match getEptPte m pml4 gpa level with
  | some (some origPte) =>
    let pte := if mkhuge then origPte &&& ~~~eptAddrMask ||| hpa ||| eptLargePage else origPte
    let pte := pte &&& ~~~clear ||| set
    (setEptPte pml4 gpa level pte m).map fun m => (origPte, m)
  | _ => none

/-- `ept_untwiddle`. -/
def eptUntwiddle (pml4 gpa : BitVec 64) (level : ℕ) (origPte : BitVec 64) (m : Machine 64) :
    Option (Machine 64) :=
  setEptPte pml4 gpa level origPte m

/-! ## The path of an address -/

/-- The table at depth `d`, if every entry above is taken for a table. -/
def eptTableAt (m : Machine 64) (pml4 gpa : BitVec 64) : ℕ → BitVec 64
  | 0 => pml4
  | d + 1 =>
    m.mem (entryAddr (eptTableAt m pml4 gpa d) (eptFormat.pgdirOffset gpa (4 - d))) &&& eptAddrMask

/-- The address of the entry at depth `d`. -/
def eptSlotAt (m : Machine 64) (pml4 gpa : BitVec 64) (d : ℕ) : BitVec 64 :=
  entryAddr (eptTableAt m pml4 gpa d) (eptFormat.pgdirOffset gpa (4 - d))

/-- The entry at depth `d`. -/
def eptEntryAt (m : Machine 64) (pml4 gpa : BitVec 64) (d : ℕ) : BitVec 64 :=
  m.mem (eptSlotAt m pml4 gpa d)

/-- The entry at depth `d` is present. -/
def EptPresentAt (m : Machine 64) (pml4 gpa : BitVec 64) (d : ℕ) : Prop :=
  eptEntryAt m pml4 gpa d &&& eptPresent ≠ 0

/-- The entry at depth `d` is large, and not in the top table. -/
def EptLargeAt (m : Machine 64) (pml4 gpa : BitVec 64) (d : ℕ) : Prop :=
  0 < d ∧ eptEntryAt m pml4 gpa d &&& eptLargePage ≠ 0

instance (m : Machine 64) (pml4 gpa : BitVec 64) (d : ℕ) : Decidable (EptPresentAt m pml4 gpa d) :=
  inferInstanceAs (Decidable (_ ≠ _))

instance (m : Machine 64) (pml4 gpa : BitVec 64) (d : ℕ) : Decidable (EptLargeAt m pml4 gpa d) :=
  inferInstanceAs (Decidable (_ ∧ _))

section Path

variable {m : Machine 64} {pml4 gpa v : BitVec 64} {level : ℕ}

theorem eptTableAt_succ (d : ℕ) :
    eptTableAt m pml4 gpa (d + 1) = eptEntryAt m pml4 gpa d &&& eptAddrMask :=
  rfl

/-- The entry that a walk looks at on the path. -/
theorem entryAddr_eptTableAt {l d : ℕ} (hd : l + 1 + d = 4) :
    entryAddr (eptTableAt m pml4 gpa d) (eptFormat.pgdirOffset gpa (l + 1)) =
      eptSlotAt m pml4 gpa d := by
  rw [show l + 1 = 4 - d by omega]
  rfl

/-- What holds of a depth, holds from it on if it does from the next one on. -/
theorem forall_ge_iff_of_self {P : ℕ → Prop} {d n : ℕ} (h : P d) :
    (∀ k, d + 1 ≤ k → k < n → P k) ↔ ∀ k, d ≤ k → k < n → P k := by
  refine ⟨fun hnext k hk hk' => ?_, fun hall k hk => hall k (Nat.le_of_succ_le hk)⟩
  rcases hk.lt_or_eq with hk | rfl
  · exact hnext k hk hk'
  · exact h

/-- The reader goes down the path to its level, unless an entry above is not present or large. -/
theorem getEptPte.walk_eq (hpos : 0 < level) :
    ∀ l d, level ≤ l → l + d = 4 → getEptPte.walk m gpa level l (eptTableAt m pml4 gpa d) =
      some (if ∀ k, d ≤ k → k < 4 - level → EptPresentAt m pml4 gpa k ∧ ¬EptLargeAt m pml4 gpa k
        then some (eptEntryAt m pml4 gpa (4 - level)) else none)
  | 0, _, hle, _ => absurd hle (not_le.mpr hpos)
  | l + 1, d, hle, hd => by
    unfold getEptPte.walk
    simp only [entryAddr_eptTableAt hd]
    rcases hle.lt_or_eq with hlt | rfl
    · rw [if_neg hlt.ne']
      by_cases hlarge : EptLargeAt m pml4 gpa d
      · rw [if_pos ⟨by have := hlarge.1; omega, hlarge.2⟩, if_neg]
        exact fun h => (h d le_rfl (by omega)).2 hlarge
      · have hsmall : ¬(l + 1 < 4 ∧ m.mem (eptSlotAt m pml4 gpa d) &&& eptLargePage ≠ 0) :=
          fun h => hlarge ⟨by omega, h.2⟩
        rw [if_neg hsmall]
        by_cases hpresent : m.mem (eptSlotAt m pml4 gpa d) &&& eptPresent = 0
        · rw [if_pos hpresent, if_neg]
          exact fun h => (h d le_rfl (by omega)).1 hpresent
        · rw [if_neg hpresent]
          have hnext := walk_eq hpos l (d + 1) (by omega) (by omega)
          rw [eptTableAt_succ] at hnext
          refine hnext.trans (congrArg some (if_congr ?_ rfl rfl))
          exact forall_ge_iff_of_self ⟨hpresent, hlarge⟩
    · have hd' : d = 4 - (l + 1) := by omega
      rw [if_pos rfl, if_pos (fun k hk hk' => by omega), ← hd']
      rfl

/-- The writer goes down the path to its level, unless an entry above is not present. -/
theorem setEptPte.walk_eq (hpos : 0 < level) :
    ∀ l d, level ≤ l → l + d = 4 → setEptPte.walk gpa level v m l (eptTableAt m pml4 gpa d) =
      if ∀ k, d ≤ k → k < 4 - level → EptPresentAt m pml4 gpa k
        then some (m.store (eptSlotAt m pml4 gpa (4 - level)) v) else none
  | 0, _, hle, _ => absurd hle (not_le.mpr hpos)
  | l + 1, d, hle, hd => by
    unfold setEptPte.walk
    simp only [entryAddr_eptTableAt hd]
    rcases hle.lt_or_eq with hlt | rfl
    · rw [if_neg hlt.ne']
      by_cases hpresent : m.mem (eptSlotAt m pml4 gpa d) &&& eptPresent = 0
      · rw [if_pos hpresent, if_neg]
        exact fun h => h d le_rfl (by omega) hpresent
      · rw [if_neg hpresent]
        have hnext := walk_eq hpos l (d + 1) (by omega) (by omega)
        rw [eptTableAt_succ] at hnext
        refine hnext.trans (if_congr ?_ rfl rfl)
        exact forall_ge_iff_of_self hpresent
    · have hd' : d = 4 - (l + 1) := by omega
      rw [if_pos rfl, if_pos (fun k hk hk' => by omega), ← hd']

/-- The entries above the level of a path. -/
abbrev eptDepth (level : ℕ) : ℕ :=
  4 - level

theorem getEptPte_eq (hlevel : 1 ≤ level ∧ level ≤ 4) : getEptPte m pml4 gpa level =
    some (if ∀ k < eptDepth level, EptPresentAt m pml4 gpa k ∧ ¬EptLargeAt m pml4 gpa k
      then some (eptEntryAt m pml4 gpa (eptDepth level)) else none) := by
  rw [getEptPte, if_pos hlevel]
  refine (getEptPte.walk_eq hlevel.1 4 0 hlevel.2 rfl).trans (congrArg some ?_)
  exact if_congr ⟨fun h k hk => h k (Nat.zero_le k) hk, fun h k _ hk => h k hk⟩ rfl rfl

theorem setEptPte_eq (hlevel : 1 ≤ level ∧ level ≤ 4) : setEptPte pml4 gpa level v m =
    if ∀ k < eptDepth level, EptPresentAt m pml4 gpa k
      then some (m.store (eptSlotAt m pml4 gpa (eptDepth level)) v) else none := by
  rw [setEptPte, if_pos hlevel]
  refine (setEptPte.walk_eq hlevel.1 4 0 hlevel.2 rfl).trans ?_
  exact if_congr ⟨fun h k hk => h k (Nat.zero_le k) hk, fun h k _ hk => h k hk⟩ rfl rfl

/-- A write to no entry above leaves the path. -/
theorem eptSlotAt_store {a : BitVec 64} {n : ℕ} (h : ∀ k < n, eptSlotAt m pml4 gpa k ≠ a) :
    eptSlotAt (m.store a v) pml4 gpa n = eptSlotAt m pml4 gpa n := by
  have htable : eptTableAt (m.store a v) pml4 gpa n = eptTableAt m pml4 gpa n := by
    induction n with
    | zero => rfl
    | succ n ih =>
      have hn := ih fun k hk => h k (hk.trans (Nat.lt_succ_self n))
      have hmem := Machine.store_mem_of_ne m (v := v) (h n (Nat.lt_succ_self n))
      unfold eptTableAt
      rw [hn]
      exact congrArg (· &&& eptAddrMask) hmem
  unfold eptSlotAt
  rw [htable]

theorem eptEntryAt_store_of_ne {a : BitVec 64} {n : ℕ} (h : ∀ k ≤ n, eptSlotAt m pml4 gpa k ≠ a) :
    eptEntryAt (m.store a v) pml4 gpa n = eptEntryAt m pml4 gpa n := by
  unfold eptEntryAt
  rw [eptSlotAt_store fun k hk => h k hk.le, Machine.store_mem_of_ne m (h n le_rfl)]

/-- The path through a word that was written reads what was written. -/
theorem eptEntryAt_store_self {n : ℕ}
    (h : ∀ k < n, eptSlotAt m pml4 gpa k ≠ eptSlotAt m pml4 gpa n) :
    eptEntryAt (m.store (eptSlotAt m pml4 gpa n) v) pml4 gpa n = v := by
  unfold eptEntryAt
  rw [eptSlotAt_store h, Machine.store_mem_self]

/-- A null entry written over an entry above the level ends the reader's walk there. -/
theorem getEptPte_store_zero (hlevel : 1 ≤ level ∧ level ≤ 4) {a : BitVec 64} {k : ℕ}
    (hk : k < eptDepth level) (ha : eptSlotAt m pml4 gpa k = a) :
    getEptPte (m.store a 0) pml4 gpa level = some none := by
  induction k using Nat.strong_induction_on with
  | _ k ih =>
    by_cases hfirst : ∀ j < k, eptSlotAt m pml4 gpa j ≠ a
    · subst ha
      rw [getEptPte_eq hlevel, if_neg]
      refine fun hall => (hall k hk).1 ?_
      rw [eptEntryAt_store_self hfirst]
      exact BitVec.zero_and
    · push Not at hfirst
      obtain ⟨j, hj, hja⟩ := hfirst
      exact ih j hj (hj.trans hk) hja

end Path

/-! ## Agreement -/

/-- The writer changes the entry that the reader reads and no other word, and the reader then
reads what was written; where the reader fails, the writer does not write; and what
`ept_twiddle` changed, `ept_untwiddle` restores. -/
structure EptAgrees (m : Machine 64) (pml4 gpa : BitVec 64) (level : ℕ) : Prop where
  write : ∀ e, getEptPte m pml4 gpa level = some (some e) → ∀ v, ∃ m' slot,
    setEptPte pml4 gpa level v m = some m' ∧ m.mem slot = e ∧ m'.mem slot = v ∧
      (∀ a, a ≠ slot → m'.mem a = m.mem a) ∧ getEptPte m' pml4 gpa level = some (some v)
  refuse : getEptPte m pml4 gpa level = some none → ∀ v, setEptPte pml4 gpa level v m = none
  restore : ∀ hpa mkhuge clear set origPte m',
    eptTwiddle pml4 hpa gpa mkhuge level clear set m = some (origPte, m') →
      ∃ m'', eptUntwiddle pml4 gpa level origPte m' = some m'' ∧ m''.mem = m.mem

/-- No entry above the level is large, and none is the word of the level itself. -/
def EptPlain (m : Machine 64) (pml4 gpa : BitVec 64) (level : ℕ) : Prop :=
  ∀ k < eptDepth level, ¬EptLargeAt m pml4 gpa k ∧
    eptSlotAt m pml4 gpa k ≠ eptSlotAt m pml4 gpa (eptDepth level)

section Agree

variable {m : Machine 64} {pml4 gpa : BitVec 64} {level : ℕ}

/-- A write through a plain path keeps the entries above. -/
theorem EptPlain.entry_store (h : EptPlain m pml4 gpa level) (v : BitVec 64) {k : ℕ}
    (hk : k < eptDepth level) :
    eptEntryAt (m.store (eptSlotAt m pml4 gpa (eptDepth level)) v) pml4 gpa k =
      eptEntryAt m pml4 gpa k :=
  eptEntryAt_store_of_ne fun j hj => (h j (hj.trans_lt hk)).2

/-- So the writer can write again, to the same word. -/
theorem EptPlain.setEptPte_store (h : EptPlain m pml4 gpa level)
    (hlevel : 1 ≤ level ∧ level ≤ 4) (hpresent : ∀ k < eptDepth level, EptPresentAt m pml4 gpa k)
    (v u : BitVec 64) : setEptPte pml4 gpa level u
      (m.store (eptSlotAt m pml4 gpa (eptDepth level)) v) =
        some (m.store (eptSlotAt m pml4 gpa (eptDepth level)) u) := by
  rw [setEptPte_eq hlevel, if_pos, eptSlotAt_store fun k hk => (h k hk).2, Machine.store_store]
  intro k hk
  unfold EptPresentAt
  rw [h.entry_store v hk]
  exact hpresent k hk

theorem EptPlain.agrees (h : EptPlain m pml4 gpa level) (hlevel : 1 ≤ level ∧ level ≤ 4)
    (hpresent : ∀ k < eptDepth level, EptPresentAt m pml4 gpa k) : EptAgrees m pml4 gpa level := by
  have hset : ∀ v, setEptPte pml4 gpa level v m =
      some (m.store (eptSlotAt m pml4 gpa (eptDepth level)) v) := fun v => by
    rw [setEptPte_eq hlevel, if_pos hpresent]
  have hget : getEptPte m pml4 gpa level =
      some (some (eptEntryAt m pml4 gpa (eptDepth level))) := by
    rw [getEptPte_eq hlevel, if_pos fun k hk => ⟨hpresent k hk, (h k hk).1⟩]
  refine ⟨fun e he v => ?_, fun hnone => ?_, ?_⟩
  · rw [hget] at he
    obtain rfl := Option.some.inj (Option.some.inj he)
    refine ⟨_, eptSlotAt m pml4 gpa (eptDepth level), hset v, rfl, Machine.store_mem_self m,
      fun a ha => Machine.store_mem_of_ne m ha, ?_⟩
    rw [getEptPte_eq hlevel, if_pos, eptEntryAt_store_self fun k hk => (h k hk).2]
    intro k hk
    unfold EptPresentAt EptLargeAt
    rw [h.entry_store v hk]
    exact ⟨hpresent k hk, (h k hk).1⟩
  · rw [hget] at hnone
    cases hnone
  · intro hpa mkhuge clear set origPte m' htwiddle
    unfold eptTwiddle at htwiddle
    simp only [hget, hset, Option.map_some, Option.some.injEq, Prod.mk.injEq] at htwiddle
    obtain ⟨rfl, rfl⟩ := htwiddle
    refine ⟨_, h.setEptPte_store hlevel hpresent _ _, ?_⟩
    exact Function.update_eq_self _ _

/-- On any contents, address and level, reader and writer agree exactly if some entry above the
level is not present, or none of these entries is large or the word of the level itself. -/
theorem eptAgrees_iff (hlevel : 1 ≤ level ∧ level ≤ 4) : EptAgrees m pml4 gpa level ↔
    (∃ k < eptDepth level, ¬EptPresentAt m pml4 gpa k) ∨ EptPlain m pml4 gpa level := by
  by_cases hpresent : ∀ k < eptDepth level, EptPresentAt m pml4 gpa k
  · have hset : ∀ v, setEptPte pml4 gpa level v m =
        some (m.store (eptSlotAt m pml4 gpa (eptDepth level)) v) := fun v => by
      rw [setEptPte_eq hlevel, if_pos hpresent]
    constructor
    · refine fun h => Or.inr ?_
      have hsmall : ∀ k < eptDepth level, ¬EptLargeAt m pml4 gpa k := by
        by_contra hlarge
        have hget : getEptPte m pml4 gpa level = some none := by
          rw [getEptPte_eq hlevel, if_neg]
          exact fun hall => hlarge fun k hk => (hall k hk).2
        have hnone := h.refuse hget 0
        rw [hset] at hnone
        cases hnone
      have hget : getEptPte m pml4 gpa level =
          some (some (eptEntryAt m pml4 gpa (eptDepth level))) := by
        rw [getEptPte_eq hlevel, if_pos fun k hk => ⟨hpresent k hk, hsmall k hk⟩]
      obtain ⟨m', slot, hset', -, -, -, hget'⟩ := h.write _ hget 0
      rw [hset] at hset'
      obtain rfl := Option.some.inj hset'
      refine fun k hk => ⟨hsmall k hk, fun halias => ?_⟩
      rw [getEptPte_store_zero hlevel hk halias] at hget'
      cases hget'
    · rintro (⟨k, hk, habsent⟩ | h)
      · exact absurd (hpresent k hk) habsent
      · exact h.agrees hlevel hpresent
  · have habsent : ∃ k < eptDepth level, ¬EptPresentAt m pml4 gpa k := by
      simpa only [not_forall, exists_prop] using hpresent
    refine iff_of_true ?_ (Or.inl habsent)
    obtain ⟨k, hk, habsent⟩ := habsent
    have hget : getEptPte m pml4 gpa level = some none := by
      rw [getEptPte_eq hlevel, if_neg]
      exact fun hall => habsent (hall k hk).1
    refine ⟨fun e he => ?_, fun _ v => ?_, fun _ _ _ _ _ _ htwiddle => ?_⟩
    · rw [hget] at he
      cases he
    · rw [setEptPte_eq hlevel, if_neg]
      exact fun hall => habsent (hall k hk)
    · unfold eptTwiddle at htwiddle
      rw [hget] at htwiddle
      cases htwiddle

end Agree

/-- An EPT that maps the first 2M to the host page at `0x200000`. -/
def eptLargeLeaf : Machine 64 where
  mem a := if a = 0x1000 then 0x2007 else if a = 0x2000 then 0x3007 else
    if a = 0x3000 then 0x200087 else 0
  freelist := 0
  denied := false

/-- At the level of the large leaf reader and writer agree. -/
theorem eptAgrees_largeLeaf : EptAgrees eptLargeLeaf 0x1000 0x5000 2 :=
  (eptAgrees_iff ⟨by norm_num, by norm_num⟩).mpr (Or.inr (by unfold EptPlain; decide))

/-- Below a large leaf the reader fails, and the writer writes into the page it maps. -/
theorem not_eptAgrees_largeLeaf : getEptPte eptLargeLeaf 0x1000 0x5000 1 = some none ∧
    ¬EptAgrees eptLargeLeaf 0x1000 0x5000 1 ∧
    ∃ m', setEptPte 0x1000 0x5000 1 0xabc eptLargeLeaf = some m' ∧ m'.mem 0x200028 = 0xabc := by
  have hget : getEptPte eptLargeLeaf 0x1000 0x5000 1 = some none := by decide
  have hset : (setEptPte 0x1000 0x5000 1 0xabc eptLargeLeaf).map (fun m => m.mem 0x200028) =
      some 0xabc := by decide
  obtain ⟨m', hset', hmem⟩ := Option.map_eq_some_iff.mp hset
  refine ⟨hget, fun h => ?_, m', hset', hmem⟩
  rw [h.refuse hget] at hset'
  cases hset'

end AcrnUt
