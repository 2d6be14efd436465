import AcrnUt.EptAccess
import AcrnUt.X86Lookup
import Mathlib.Data.Set.Lattice

/-!
# The accessed and dirty bits of an extended page table

`clear_ept_ad` of `x86/vmx.c` follows a guest address through the guest's page table, and clears
the accessed and dirty bits of the EPT entries for each guest entry it reads and for the page it
ends at. `check_ept_ad` follows it again, in loops of its own, and reports these bits.

No walk looks at the bits that are cleared, so the words they change can be told from the memory
at the start (`clearEptAd_cleared`). The check passes on a memory exactly if these bits are as
expected for all that it visits (`checkEptAd_pass_iff`). If the EPT has a 4K leaf for all that the
guest's walk needs, it finds both clear behind `clear_ept_ad` (`checkEptAd_clearEptAd`). But
`clear_ept_ad_pte` never tests whether an entry is present, as `get_ept_pte` does, and
`clear_ept_ad` tests a leaf for its size before its presence : so the words may lie anywhere
(`clearEptAd_frame_iff`).
-/

set_option linter.unusedSectionVars false

namespace AcrnUt

/-! ## The source -/

/-- `EPT_ACCESS_FLAG`. -/
def eptAccessFlag : BitVec 64 :=
  1#64 <<< 8

/-- `EPT_DIRTY_FLAG`. -/
def eptDirtyFlag : BitVec 64 :=
  1#64 <<< 9

/-- The loop of `clear_ept_ad_pte`, from the table `pt` at a level. -/
def clearEptAdPte.walk (guestAddr : BitVec 64) : ℕ → BitVec 64 → Machine 64 → Machine 64
  | 0, _, m => m
  | l + 1, pt, m =>
    let slot := entryAddr pt (eptFormat.pgdirOffset guestAddr (l + 1))
    let m := m.store slot (m.mem slot &&& ~~~(eptAccessFlag ||| eptDirtyFlag))
    let pte := m.mem slot
    if l + 1 = 1 ∨ l + 1 < 4 ∧ pte &&& eptLargePage ≠ 0 then m
    else clearEptAdPte.walk guestAddr l (pte &&& eptAddrMask) m

/-- `clear_ept_ad_pte`. -/
def clearEptAdPte (pml4 guestAddr : BitVec 64) (m : Machine 64) : Machine 64 :=
  clearEptAdPte.walk guestAddr eptFormat.pageLevel pml4 m

/-- The guest physical address that both functions compute from the guest's last entry. -/
def guestGpa (pte guestAddr : BitVec 64) (l : ℕ) : BitVec 64 :=
  let offsetInPage := guestAddr &&& (1#64 <<< eptLevelShift l - 1)
  pte &&& addrMask 64 ||| guestAddr &&& offsetInPage

/-- The loop of `clear_ept_ad` from the guest's table `pt` at a level, and what follows it. -/
def clearEptAd.walk (pml4 guestAddr : BitVec 64) : ℕ → BitVec 64 → Machine 64 → Machine 64
  | 0, _, m => m
  | l + 1, pt, m =>
    let slot := entryAddr pt (eptFormat.pgdirOffset guestAddr (l + 1))
    let m := clearEptAdPte pml4 slot m
    let pte := m.mem slot
    if l + 1 = 1 ∨ l + 1 < 4 ∧ pte &&& largeMask 64 ≠ 0 then
      clearEptAdPte pml4 (guestGpa (m.mem slot) guestAddr (l + 1)) m
    else if pte &&& (ptPresentMask : BitVec 64) = 0 then m
    else clearEptAd.walk pml4 guestAddr l (pte &&& addrMask 64) m

/-- `clear_ept_ad`. -/
def clearEptAd (pml4 guestCr3 guestAddr : BitVec 64) (m : Machine 64) : Machine 64 :=
  clearEptAd.walk pml4 guestAddr eptFormat.pageLevel guestCr3 m

/-- The lines that `check_ept_ad` prints. -/
inductive AdLine
  /-- "EPT - guest level %d page table is not mapped.", which is not a report -/
  | levelNotMapped (level : ℕ)
  /-- "EPT - guest level %d page table A=%d/D=%d" -/
  | levelAd (pass : Bool) (level : ℕ) (a d : Bool)
  /-- "EPT - guest page table structures A=%d/D=%d" -/
  | structuresAd (pass : Bool) (a d : Bool)
  /-- "EPT - guest physical address is not mapped" -/
  | gpaNotMapped (pass : Bool)
  /-- "EPT - guest physical address A=%d/D=%d" -/
  | gpaAd (pass : Bool) (a d : Bool)
  deriving DecidableEq, Repr

/-- `!!(expected & flag)`. -/
def expectedFlag (expected : BitVec 32) (flag : BitVec 64) : Bool :=
  expected.signExtend 64 &&& flag != 0

/-- What `check_ept_ad` does behind its loop. -/
def checkEptAd.finish (m : Machine 64) (pml4 gpa : BitVec 64)
    (expectedGpaAd expectedPtAd : BitVec 32)
    (badPtAd : Bool) : List AdLine :=
  (if badPtAd then [] else
    [.structuresAd true (expectedFlag expectedPtAd eptAccessFlag)
      (expectedFlag expectedPtAd eptDirtyFlag)]) ++
  -- at level 1 the assertion of `get_ept_pte` holds
  match getEptPte m pml4 gpa 1 with
  | some (some eptPte) =>
    [.gpaAd (eptPte &&& (eptAccessFlag ||| eptDirtyFlag) == expectedGpaAd.signExtend 64)
      (expectedFlag expectedGpaAd eptAccessFlag) (expectedFlag expectedGpaAd eptDirtyFlag)]
  | _ => [.gpaNotMapped false]

/-- The loop of `check_ept_ad` from the guest's table `pt` at a level, and what follows it. -/
def checkEptAd.walk (m : Machine 64) (pml4 guestAddr : BitVec 64)
    (expectedGpaAd expectedPtAd : BitVec 32) : ℕ → BitVec 64 → Bool → List AdLine
  | 0, _, _ => []
  | l + 1, pt, badPtAd =>
    let slot := entryAddr pt (eptFormat.pgdirOffset guestAddr (l + 1))
    match getEptPte m pml4 slot 1 with
    | some (some eptPte) =>
      let bad := badPtAd ||
        eptPte &&& (eptAccessFlag ||| eptDirtyFlag) != expectedPtAd.signExtend 64
      let line : List AdLine := if !badPtAd && bad then
        [.levelAd false (l + 1) (expectedFlag expectedPtAd eptAccessFlag)
          (expectedFlag expectedPtAd eptDirtyFlag)] else []
      let pte := m.mem slot
      line ++
        if l + 1 = 1 ∨ l + 1 < 4 ∧ pte &&& largeMask 64 ≠ 0 then
          checkEptAd.finish m pml4 (guestGpa (m.mem slot) guestAddr (l + 1)) expectedGpaAd
            expectedPtAd bad
        else if pte &&& (ptPresentMask : BitVec 64) = 0 then []
        else checkEptAd.walk m pml4 guestAddr expectedGpaAd expectedPtAd l (pte &&& addrMask 64) bad
    | _ => [.levelNotMapped (l + 1)]

/-- `check_ept_ad`. -/
def checkEptAd (m : Machine 64) (pml4 guestCr3 guestAddr : BitVec 64)
    (expectedGpaAd expectedPtAd : BitVec 32) : List AdLine :=
  checkEptAd.walk m pml4 guestAddr expectedGpaAd expectedPtAd eptFormat.pageLevel guestCr3 false

/-! ## Memories that differ in the accessed and dirty bits -/

/-- The two bits. -/
abbrev eptAdFlags : BitVec 64 :=
  eptAccessFlag ||| eptDirtyFlag

/-- The memories agree but for the accessed and dirty bits. -/
def AdEq (m m' : Machine 64) : Prop :=
  ∀ a, m'.mem a &&& ~~~eptAdFlags = m.mem a &&& ~~~eptAdFlags

/-- From `m` to `m'` the words in `S` lose their accessed and dirty bits, the others are kept. -/
structure ClearedOn (m m' : Machine 64) (S : Set (BitVec 64)) : Prop where
  inside : ∀ a ∈ S, m'.mem a = m.mem a &&& ~~~eptAdFlags
  outside : ∀ a ∉ S, m'.mem a = m.mem a

section Cleared

variable {m m' m'' : Machine 64} {S T : Set (BitVec 64)} {root va : BitVec 64} {d : ℕ}

theorem ClearedOn.adEq (h : ClearedOn m m' S) : AdEq m m' := by
  intro a
  by_cases ha : a ∈ S
  · rw [h.inside a ha, BitVec.and_assoc, BitVec.and_self]
  · rw [h.outside a ha]

theorem ClearedOn.trans (h : ClearedOn m m' S) (h' : ClearedOn m' m'' T) :
    ClearedOn m m'' (S ∪ T) := by
  constructor
  · intro a ha
    by_cases hT : a ∈ T
    · rw [h'.inside a hT, h.adEq a]
    · rw [h'.outside a hT, h.inside a (ha.resolve_right hT)]
  · intro a ha
    rw [Set.mem_union, not_or] at ha
    rw [h'.outside a ha.2, h.outside a ha.1]

theorem clearedOn_store (m : Machine 64) (a : BitVec 64) :
    ClearedOn m (m.store a (m.mem a &&& ~~~eptAdFlags)) {a} := by
  constructor
  · rintro b rfl
    exact Machine.store_mem_self m
  · intro b hb
    exact Machine.store_mem_of_ne m hb

/-- A word changed exactly if it is in the set and one of its two bits was set. -/
theorem ClearedOn.ne_iff (h : ClearedOn m m' S) (a : BitVec 64) :
    m'.mem a ≠ m.mem a ↔ a ∈ S ∧ m.mem a &&& eptAdFlags ≠ 0 := by
  by_cases ha : a ∈ S
  · have hiff : m.mem a &&& ~~~eptAdFlags = m.mem a ↔ m.mem a &&& eptAdFlags = 0 := by
      generalize m.mem a = e
      constructor
      · intro he
        rw [← he, BitVec.and_assoc, BitVec.and_comm (~~~eptAdFlags), BitVec.and_not_self]
        exact BitVec.and_zero
      · intro he
        have hsplit : e &&& ~~~eptAdFlags ||| e &&& eptAdFlags = e := by
          rw [← BitVec.and_or_distrib_left, BitVec.or_comm, BitVec.or_not_self, BitVec.and_allOnes]
        rwa [he, show (0 : BitVec 64) = 0#64 from rfl, BitVec.or_zero] at hsplit
    rw [h.inside a ha, Ne, hiff]
    exact ⟨fun hne => ⟨ha, hne⟩, fun hne => hne.2⟩
  · rw [h.outside a ha]
    exact iff_of_false (fun hne => hne rfl) fun hne => ha hne.1

/-- A mask without the two bits sees no difference. -/
theorem AdEq.and_eq (h : AdEq m m') {mask : BitVec 64} (hmask : ~~~eptAdFlags &&& mask = mask)
    (a : BitVec 64) : m'.mem a &&& mask = m.mem a &&& mask := by
  rw [← hmask, ← BitVec.and_assoc, h a, BitVec.and_assoc]

/-- So both memories have the same paths. -/
theorem AdEq.tableAt (h : AdEq m m') : eptTableAt m' root va d = eptTableAt m root va d := by
  induction d with
  | zero => rfl
  | succ d ih =>
    unfold eptTableAt
    rw [ih]
    exact h.and_eq (by decide) _

theorem AdEq.slotAt (h : AdEq m m') : eptSlotAt m' root va d = eptSlotAt m root va d := by
  unfold eptSlotAt
  rw [h.tableAt]

theorem AdEq.entryAt (h : AdEq m m') {mask : BitVec 64} (hmask : ~~~eptAdFlags &&& mask = mask) :
    eptEntryAt m' root va d &&& mask = eptEntryAt m root va d &&& mask := by
  unfold eptEntryAt
  rw [h.slotAt]
  exact h.and_eq hmask _

theorem AdEq.presentAt (h : AdEq m m') : EptPresentAt m' root va d ↔ EptPresentAt m root va d := by
  unfold EptPresentAt
  rw [h.entryAt (by decide)]

theorem AdEq.largeAt (h : AdEq m m') : EptLargeAt m' root va d ↔ EptLargeAt m root va d := by
  unfold EptLargeAt
  rw [h.entryAt (by decide)]

end Cleared

/-! ## Which words are cleared -/

/-- `clear_ept_ad_pte` reaches this depth of a guest physical address : no entry above is large. -/
def AdReached (m : Machine 64) (pml4 gpa : BitVec 64) (k : ℕ) : Prop :=
  k < 4 ∧ ∀ j < k, ¬EptLargeAt m pml4 gpa j

/-- The words that it clears. -/
def adCells (m : Machine 64) (pml4 gpa : BitVec 64) : Set (BitVec 64) :=
  {a | ∃ k, AdReached m pml4 gpa k ∧ a = eptSlotAt m pml4 gpa k}

/-- The guest's entry at depth `d` is present. The guest's tables have the layout of the EPT, and
`PT_ADDR_MASK` and `PT_PAGE_SIZE_MASK` are `EPT_ADDR_MASK` and `EPT_LARGE_PAGE`. -/
def GuestPresentAt (m : Machine 64) (cr3 va : BitVec 64) (d : ℕ) : Prop :=
  eptEntryAt m cr3 va d &&& (ptPresentMask : BitVec 64) ≠ 0

instance (m : Machine 64) (cr3 va : BitVec 64) (d : ℕ) : Decidable (GuestPresentAt m cr3 va d) :=
  inferInstanceAs (Decidable (_ ≠ _))

/-- The guest's walk reads its entry at this depth : those above are present, and not large. -/
def GuestReads (m : Machine 64) (cr3 va : BitVec 64) (k : ℕ) : Prop :=
  k < 4 ∧ ∀ j < k, GuestPresentAt m cr3 va j ∧ ¬EptLargeAt m cr3 va j

/-- It goes no deeper than this depth, the entry there being large or in a table of level 1. -/
def GuestLast (m : Machine 64) (cr3 va : BitVec 64) (k : ℕ) : Prop :=
  GuestReads m cr3 va k ∧ (k = 3 ∨ EptLargeAt m cr3 va k)

/-- The guest physical address that both functions take from this depth. -/
def guestGpaAt (m : Machine 64) (cr3 va : BitVec 64) (k : ℕ) : BitVec 64 :=
  guestGpa (eptEntryAt m cr3 va k) va (4 - k)

/-- The guest physical addresses, from depth `d` on, whose EPT entries `clear_ept_ad` clears. -/
def AdVisits (m : Machine 64) (cr3 va : BitVec 64) (d : ℕ) (gpa : BitVec 64) : Prop :=
  ∃ k, d ≤ k ∧ (GuestReads m cr3 va k ∧ gpa = eptSlotAt m cr3 va k ∨
    GuestLast m cr3 va k ∧ gpa = guestGpaAt m cr3 va k)

section Spec

variable {m m' : Machine 64} {pml4 cr3 va gpa : BitVec 64} {d k : ℕ}

/-- Nothing deeper is reached if the depth itself is the last one. -/
theorem AdReached.eq_of_last (hlast : d = 3 ∨ EptLargeAt m pml4 gpa d) (hle : d ≤ k)
    (h : AdReached m pml4 gpa k) : k = d := by
  by_contra hne
  have hlt : d < k := lt_of_le_of_ne hle (Ne.symm hne)
  rcases hlast with rfl | hlarge
  · have := h.1
    omega
  · exact h.2 d hlt hlarge

theorem GuestReads.eq_of_last (hlast : d = 3 ∨ EptLargeAt m cr3 va d) (hle : d ≤ k)
    (h : GuestReads m cr3 va k) : k = d :=
  AdReached.eq_of_last hlast hle ⟨h.1, fun j hj => (h.2 j hj).2⟩

/-- At its last depth the walk visits its entry and the address that it takes from it. -/
theorem GuestReads.visits_last (h : GuestReads m cr3 va d) (hlast : d = 3 ∨ EptLargeAt m cr3 va d) :
    AdVisits m cr3 va d gpa ↔ gpa = eptSlotAt m cr3 va d ∨ gpa = guestGpaAt m cr3 va d := by
  constructor
  · rintro ⟨k, hk, ⟨hreads, rfl⟩ | ⟨hlst, rfl⟩⟩
    · rw [hreads.eq_of_last hlast hk]
      exact Or.inl rfl
    · rw [hlst.1.eq_of_last hlast hk]
      exact Or.inr rfl
  · rintro (rfl | rfl)
    · exact ⟨d, le_rfl, Or.inl ⟨h, rfl⟩⟩
    · exact ⟨d, le_rfl, Or.inr ⟨⟨h, hlast⟩, rfl⟩⟩

/-- Before, it visits its entry, and what is visited from the next depth on. -/
theorem GuestReads.visits_next (h : GuestReads m cr3 va d)
    (hgo : ¬(d = 3 ∨ EptLargeAt m cr3 va d)) :
    AdVisits m cr3 va d gpa ↔ gpa = eptSlotAt m cr3 va d ∨ AdVisits m cr3 va (d + 1) gpa := by
  constructor
  · rintro ⟨k, hk, h⟩
    rcases hk.lt_or_eq with hlt | rfl
    · exact Or.inr ⟨k, hlt, h⟩
    · exact Or.inl (h.elim (fun h => h.2) fun h => absurd h.1.2 hgo)
  · rintro (rfl | ⟨k, hk, h⟩)
    · exact ⟨d, le_rfl, Or.inl ⟨h, rfl⟩⟩
    · exact ⟨k, Nat.le_of_succ_le hk, h⟩

/-- Nothing is visited below an entry that is not present. -/
theorem AdVisits.present (h : AdVisits m cr3 va (d + 1) gpa) : GuestPresentAt m cr3 va d := by
  obtain ⟨k, hk, h⟩ := h
  have hreads : GuestReads m cr3 va k := h.elim (fun h => h.1) fun h => h.1.1
  exact (hreads.2 d hk).1

theorem AdEq.reached (h : AdEq m m') : AdReached m' pml4 gpa k ↔ AdReached m pml4 gpa k := by
  unfold AdReached
  simp only [h.largeAt]

theorem AdEq.guestPresentAt (h : AdEq m m') :
    GuestPresentAt m' cr3 va d ↔ GuestPresentAt m cr3 va d := by
  unfold GuestPresentAt
  rw [h.entryAt (by decide)]

theorem AdEq.guestReads (h : AdEq m m') : GuestReads m' cr3 va k ↔ GuestReads m cr3 va k := by
  unfold GuestReads
  simp only [h.largeAt, h.guestPresentAt]

theorem AdEq.guestLast (h : AdEq m m') : GuestLast m' cr3 va k ↔ GuestLast m cr3 va k := by
  unfold GuestLast
  rw [h.guestReads, h.largeAt]

theorem AdEq.guestGpaAt (h : AdEq m m') : guestGpaAt m' cr3 va k = guestGpaAt m cr3 va k := by
  unfold AcrnUt.guestGpaAt guestGpa
  rw [h.entryAt (by decide)]

theorem AdEq.visits (h : AdEq m m') : AdVisits m' cr3 va d gpa ↔ AdVisits m cr3 va d gpa := by
  unfold AdVisits
  simp only [h.guestReads, h.guestLast, h.guestGpaAt, h.slotAt]

theorem AdEq.adCells (h : AdEq m m') : adCells m' pml4 gpa = adCells m pml4 gpa := by
  unfold AcrnUt.adCells
  simp only [h.reached, h.slotAt]

/-- The test that ends both loops, by the depth. -/
theorem last_iff {l : ℕ} (hd : l + 1 + d = 4) (e : BitVec 64)
    (he : e &&& eptLargePage = eptEntryAt m pml4 gpa d &&& eptLargePage) :
    (l + 1 = 1 ∨ l + 1 < 4 ∧ e &&& eptLargePage ≠ 0) ↔ (d = 3 ∨ EptLargeAt m pml4 gpa d) := by
  unfold EptLargeAt
  rw [he]
  constructor
  · rintro (h | ⟨h, hlarge⟩)
    · exact Or.inl (by omega)
    · exact Or.inr ⟨by omega, hlarge⟩
  · rintro (h | ⟨h, hlarge⟩)
    · exact Or.inl (by omega)
    · exact Or.inr ⟨by omega, hlarge⟩

/-- `clear_ept_ad_pte` clears the words of the depths that it reaches, from its own on. -/
theorem clearEptAdPte.walk_cleared :
    ∀ {l d : ℕ} {m : Machine 64}, l + d = 4 → (∀ j < d, ¬EptLargeAt m pml4 gpa j) →
      ClearedOn m (clearEptAdPte.walk gpa l (eptTableAt m pml4 gpa d) m)
        {a | ∃ k, d ≤ k ∧ AdReached m pml4 gpa k ∧ a = eptSlotAt m pml4 gpa k}
  | 0, d, m, hd, _ => by
    refine ⟨?_, fun a _ => rfl⟩
    rintro a ⟨k, hk, hreached, -⟩
    have := hreached.1
    omega
  | l + 1, d, m, hd, habove => by
    unfold clearEptAdPte.walk
    simp only [entryAddr_eptTableAt hd]
    have hstore := clearedOn_store m (eptSlotAt m pml4 gpa d)
    have hself : AdReached m pml4 gpa d := ⟨by omega, habove⟩
    set m₁ := m.store (eptSlotAt m pml4 gpa d)
      (m.mem (eptSlotAt m pml4 gpa d) &&& ~~~eptAdFlags)
    have heq := hstore.adEq
    have hlast := @last_iff m _ _ d l hd (m₁.mem (eptSlotAt m pml4 gpa d))
      (heq.and_eq (by decide) _)
    by_cases hstop : d = 3 ∨ EptLargeAt m pml4 gpa d
    · rw [if_pos (hlast.2 hstop)]
      convert hstore using 1
      ext a
      constructor
      · rintro ⟨k, hk, hreached, rfl⟩
        rw [hreached.eq_of_last hstop hk]
        rfl
      · rintro rfl
        exact ⟨d, le_rfl, hself, rfl⟩
    · rw [if_neg fun h => hstop (hlast.1 h)]
      have hsmall : ∀ j < d + 1, ¬EptLargeAt m₁ pml4 gpa j := fun j hj => by
        rw [heq.largeAt]
        rcases Nat.lt_succ_iff_lt_or_eq.1 hj with hj | rfl
        · exact habove j hj
        · exact fun h => hstop (Or.inr h)
      have htable : eptTableAt m₁ pml4 gpa (d + 1) =
          m₁.mem (eptSlotAt m pml4 gpa d) &&& eptAddrMask := by
        rw [eptTableAt_succ, eptEntryAt, heq.slotAt]
      have hrest := walk_cleared (l := l) (d := d + 1) (m := m₁) (by omega) hsmall
      rw [htable] at hrest
      convert hstore.trans hrest using 1
      ext a
      constructor
      · rintro ⟨k, hk, hreached, rfl⟩
        rcases hk.lt_or_eq with hlt | rfl
        · exact Or.inr ⟨k, hlt, heq.reached.2 hreached, heq.slotAt.symm⟩
        · exact Or.inl rfl
      · rintro (rfl | ⟨k, hk, hreached, rfl⟩)
        · exact ⟨d, le_rfl, hself, rfl⟩
        · exact ⟨k, Nat.le_of_succ_le hk, heq.reached.1 hreached, heq.slotAt⟩

theorem clearEptAdPte_cleared (m : Machine 64) (pml4 gpa : BitVec 64) :
    ClearedOn m (clearEptAdPte pml4 gpa m) (adCells m pml4 gpa) := by
  have hwalk := @clearEptAdPte.walk_cleared pml4 gpa 4 0 m rfl
    fun j hj => absurd hj (Nat.not_lt_zero j)
  have hset : {a | ∃ k, 0 ≤ k ∧ AdReached m pml4 gpa k ∧ a = eptSlotAt m pml4 gpa k} =
      adCells m pml4 gpa := by
    ext a
    exact ⟨fun ⟨k, _, h⟩ => ⟨k, h⟩, fun ⟨k, h⟩ => ⟨k, Nat.zero_le k, h⟩⟩
  rw [hset] at hwalk
  exact hwalk

/-- `clear_ept_ad` clears the words for each guest physical address that it visits. -/
theorem clearEptAd.walk_cleared :
    ∀ {l d : ℕ} {m : Machine 64}, l + d = 4 →
      (∀ j < d, GuestPresentAt m cr3 va j ∧ ¬EptLargeAt m cr3 va j) →
      ClearedOn m (clearEptAd.walk pml4 va l (eptTableAt m cr3 va d) m)
        {a | ∃ gpa, AdVisits m cr3 va d gpa ∧ a ∈ adCells m pml4 gpa}
  | 0, d, m, hd, _ => by
    refine ⟨?_, fun a _ => rfl⟩
    rintro a ⟨gpa, ⟨k, hk, h⟩, -⟩
    have hlt : k < 4 := h.elim (fun h => h.1.1) fun h => h.1.1.1
    omega
  | l + 1, d, m, hd, habove => by
    unfold clearEptAd.walk
    simp only [entryAddr_eptTableAt hd]
    have hpte := clearEptAdPte_cleared m pml4 (eptSlotAt m cr3 va d)
    have hself : GuestReads m cr3 va d := ⟨by omega, habove⟩
    set m₁ := clearEptAdPte pml4 (eptSlotAt m cr3 va d) m
    have heq := hpte.adEq
    have hlast := @last_iff m _ _ d l hd (m₁.mem (eptSlotAt m cr3 va d)) (heq.and_eq (by decide) _)
    have hentry : m₁.mem (eptSlotAt m cr3 va d) = eptEntryAt m₁ cr3 va d := by
      rw [eptEntryAt, heq.slotAt]
    by_cases hstop : d = 3 ∨ EptLargeAt m cr3 va d
    · rw [if_pos (hlast.2 hstop)]
      have hgpa : guestGpa (m₁.mem (eptSlotAt m cr3 va d)) va (l + 1) = guestGpaAt m cr3 va d := by
        rw [← heq.guestGpaAt, guestGpaAt, hentry, show 4 - d = l + 1 by omega]
      rw [hgpa]
      have hfinal := clearEptAdPte_cleared m₁ pml4 (guestGpaAt m cr3 va d)
      rw [heq.adCells] at hfinal
      convert hpte.trans hfinal using 1
      ext a
      simp only [Set.mem_ofPred_eq, Set.mem_union, hself.visits_last hstop, or_and_right, exists_or,
        exists_eq_left]
    · rw [if_neg fun h => hstop (hlast.1 h)]
      have hpresent : m₁.mem (eptSlotAt m cr3 va d) &&& (ptPresentMask : BitVec 64) = 0 ↔
          ¬GuestPresentAt m cr3 va d := by
        rw [← heq.guestPresentAt, hentry, GuestPresentAt, not_not]
      by_cases habsent : GuestPresentAt m cr3 va d
      · rw [if_neg fun h => hpresent.1 h habsent]
        have hpass : ∀ j < d + 1, GuestPresentAt m₁ cr3 va j ∧ ¬EptLargeAt m₁ cr3 va j :=
          fun j hj => by
            rw [heq.guestPresentAt, heq.largeAt]
            rcases Nat.lt_succ_iff_lt_or_eq.1 hj with hj | rfl
            · exact habove j hj
            · exact ⟨habsent, fun h => hstop (Or.inr h)⟩
        have hrest := walk_cleared (l := l) (d := d + 1) (m := m₁) (by omega) hpass
        rw [eptTableAt_succ, ← hentry] at hrest
        convert hpte.trans hrest using 1
        ext a
        simp only [Set.mem_ofPred_eq, Set.mem_union, hself.visits_next hstop, heq.visits,
          heq.adCells, or_and_right, exists_or, exists_eq_left]
      · rw [if_pos (hpresent.2 habsent)]
        have hnone : ∀ gpa, ¬AdVisits m cr3 va (d + 1) gpa := fun gpa h => habsent h.present
        convert hpte using 1
        ext a
        simp only [Set.mem_ofPred_eq, hself.visits_next hstop, hnone, or_false, exists_eq_left]

/-- The words that `clear_ept_ad` clears, told from the memory at the start. -/
def adVisitedCells (m : Machine 64) (pml4 cr3 va : BitVec 64) : Set (BitVec 64) :=
  {a | ∃ gpa, AdVisits m cr3 va 0 gpa ∧ a ∈ adCells m pml4 gpa}

theorem clearEptAd_cleared (m : Machine 64) (pml4 cr3 va : BitVec 64) :
    ClearedOn m (clearEptAd pml4 cr3 va m) (adVisitedCells m pml4 cr3 va) :=
  clearEptAd.walk_cleared (l := 4) (d := 0) rfl fun j hj => absurd hj (Nat.not_lt_zero j)

end Spec

/-! ## The words that are meant -/

/-- The walk of a guest physical address reads the EPT entry at this depth : those above are
present, and not large. -/
def EptReads (m : Machine 64) (pml4 gpa : BitVec 64) (k : ℕ) : Prop :=
  k < 4 ∧ ∀ j < k, EptPresentAt m pml4 gpa j ∧ ¬EptLargeAt m pml4 gpa j

/-- The guest physical addresses that a walk of `va` needs : of the guest's entries that it reads,
and of `va` itself, if that is mapped. -/
def AdTarget (m : Machine 64) (cr3 va gpa : BitVec 64) : Prop :=
  ∃ k, GuestReads m cr3 va k ∧ gpa = eptSlotAt m cr3 va k ∨
    (GuestLast m cr3 va k ∧ GuestPresentAt m cr3 va k) ∧ gpa = guestGpaAt m cr3 va k

/-- The words of the EPT entries on their walks. -/
def adTargetCells (m : Machine 64) (pml4 cr3 va : BitVec 64) : Set (BitVec 64) :=
  {a | ∃ gpa k, AdTarget m cr3 va gpa ∧ EptReads m pml4 gpa k ∧ a = eptSlotAt m pml4 gpa k}

/-- The words that are reached from an EPT entry that is not present, or for the address in a last
guest entry that is not present. -/
def adStrayCells (m : Machine 64) (pml4 cr3 va : BitVec 64) : Set (BitVec 64) :=
  {a | ∃ gpa k, AdVisits m cr3 va 0 gpa ∧ AdReached m pml4 gpa k ∧ a = eptSlotAt m pml4 gpa k ∧
    ((∃ j < k, ¬EptPresentAt m pml4 gpa j) ∨
      ∃ d, GuestLast m cr3 va d ∧ ¬GuestPresentAt m cr3 va d ∧ gpa = guestGpaAt m cr3 va d)}

section Frame

variable {m : Machine 64} {pml4 cr3 va gpa : BitVec 64} {k : ℕ}

theorem EptReads.reached (h : EptReads m pml4 gpa k) : AdReached m pml4 gpa k :=
  ⟨h.1, fun j hj => (h.2 j hj).2⟩

theorem AdTarget.visits (h : AdTarget m cr3 va gpa) : AdVisits m cr3 va 0 gpa := by
  obtain ⟨k, h⟩ := h
  exact ⟨k, Nat.zero_le k, h.imp_right fun h => ⟨h.1.1, h.2⟩⟩

/-- The visited words are those that are meant, and the stray ones. -/
theorem adVisitedCells_eq :
    adVisitedCells m pml4 cr3 va = adTargetCells m pml4 cr3 va ∪ adStrayCells m pml4 cr3 va := by
  ext a
  constructor
  · rintro ⟨gpa, hvisits, k, hreached, rfl⟩
    by_cases hpresent : ∀ j < k, EptPresentAt m pml4 gpa j
    · have hreads : EptReads m pml4 gpa k :=
        ⟨hreached.1, fun j hj => ⟨hpresent j hj, hreached.2 j hj⟩⟩
      obtain ⟨d, -, hd⟩ := id hvisits
      rcases hd with hd | ⟨hlast, hgpa⟩
      · exact Or.inl ⟨gpa, k, ⟨d, Or.inl hd⟩, hreads, rfl⟩
      · by_cases hmapped : GuestPresentAt m cr3 va d
        · exact Or.inl ⟨gpa, k, ⟨d, Or.inr ⟨⟨hlast, hmapped⟩, hgpa⟩⟩, hreads, rfl⟩
        · exact Or.inr ⟨gpa, k, hvisits, hreached, rfl, Or.inr ⟨d, hlast, hmapped, hgpa⟩⟩
    · push Not at hpresent
      exact Or.inr ⟨gpa, k, hvisits, hreached, rfl, Or.inl hpresent⟩
  · rintro (⟨gpa, k, htarget, hreads, rfl⟩ | ⟨gpa, k, hvisits, hreached, rfl, -⟩)
    · exact ⟨gpa, htarget.visits, k, hreads.reached, rfl⟩
    · exact ⟨gpa, hvisits, k, hreached, rfl⟩

/-- On any memory, `clear_ept_ad` changes nothing but the accessed and dirty bits of the entries
that are meant, exactly if the stray words besides these have both bits clear already. -/
theorem clearEptAd_frame_iff (m : Machine 64) (pml4 cr3 va : BitVec 64) :
    (∀ a, (clearEptAd pml4 cr3 va m).mem a ≠ m.mem a →
        a ∈ adTargetCells m pml4 cr3 va ∧
          (clearEptAd pml4 cr3 va m).mem a &&& ~~~eptAdFlags = m.mem a &&& ~~~eptAdFlags) ↔
      ∀ a ∈ adStrayCells m pml4 cr3 va, a ∉ adTargetCells m pml4 cr3 va →
        m.mem a &&& eptAdFlags = 0 := by
  have hcleared := clearEptAd_cleared m pml4 cr3 va
  rw [adVisitedCells_eq] at hcleared
  constructor
  · intro h a hstray htarget
    by_contra hset
    exact htarget (h a ((hcleared.ne_iff a).2 ⟨Or.inr hstray, hset⟩)).1
  · intro h a hne
    refine ⟨?_, hcleared.adEq a⟩
    obtain ⟨htarget | hstray, hset⟩ := (hcleared.ne_iff a).1 hne
    · exact htarget
    · by_contra htarget
      exact hset (h a hstray htarget)

end Frame

/-- An empty EPT at `0x1000`, an empty guest table at `0x2000`, and a word at address `0`. -/
def emptyEpt : Machine 64 where
  mem a := if a = 0 then 0x300 else 0
  freelist := 0
  denied := false

/-- The word at address `0`, of neither table, is changed. -/
theorem clearEptAd_strays : ¬∀ a,
    (clearEptAd 0x1000 0x2000 0 emptyEpt).mem a ≠ emptyEpt.mem a →
      a ∈ adTargetCells emptyEpt 0x1000 0x2000 0 ∧
        (clearEptAd 0x1000 0x2000 0 emptyEpt).mem a &&& ~~~eptAdFlags =
          emptyEpt.mem a &&& ~~~eptAdFlags := by
  intro h
  obtain ⟨gpa, k, ⟨d, htarget⟩, hreads, hslot⟩ := (h 0 (by decide)).1
  have hread : GuestReads emptyEpt 0x2000 0 d := htarget.elim (fun h => h.1) fun h => h.1.1.1
  have hd : d = 0 := by
    by_contra hd
    exact (hread.2 0 (Nat.pos_of_ne_zero hd)).1 (by decide)
  subst hd
  rcases htarget with ⟨-, rfl⟩ | ⟨⟨⟨-, h | h⟩, -⟩, -⟩
  · have hk : k = 0 := by
      by_contra hk
      exact (hreads.2 0 (Nat.pos_of_ne_zero hk)).1 (by decide)
    subst hk
    revert hslot
    decide
  · cases h
  · exact absurd h.1 (lt_irrefl 0)

/-! ## Clearing, then checking -/

/-- The EPT maps a guest physical address with a 4K leaf. -/
def EptMaps4k (m : Machine 64) (pml4 gpa : BitVec 64) : Prop :=
  (∀ j < 3, EptPresentAt m pml4 gpa j ∧ ¬EptLargeAt m pml4 gpa j) ∧ EptPresentAt m pml4 gpa 3

/-- The EPT has 4K leaves for the guest's entries on the walk of `va`, and for all of the page,
of whatever size, that maps `va`. -/
structure EptMapsGuest (m : Machine 64) (pml4 cr3 va : BitVec 64) : Prop where
  tables : ∀ k, GuestReads m cr3 va k → EptMaps4k m pml4 (eptSlotAt m cr3 va k)
  page : ∀ k, GuestLast m cr3 va k → GuestPresentAt m cr3 va k → ∀ gpa : BitVec 64,
    gpa >>> eptLevelShift (4 - k) =
      (eptEntryAt m cr3 va k &&& addrMask 64) >>> eptLevelShift (4 - k) → EptMaps4k m pml4 gpa

section Check

variable {m : Machine 64} {pml4 cr3 va gpa : BitVec 64} {d k : ℕ}

/-- The address that is computed lies in the page. -/
theorem guestGpaAt_shift (hk : k < 4) : guestGpaAt m cr3 va k >>> eptLevelShift (4 - k) =
    (eptEntryAt m cr3 va k &&& addrMask 64) >>> eptLevelShift (4 - k) := by
  have hshift : eptLevelShift (4 - k) < 64 := levelShift_lt 64 (by omega) (Nat.sub_le 4 k)
  have hlow : (va &&& (va &&& (1#64 <<< eptLevelShift (4 - k) - 1))) >>> eptLevelShift (4 - k) =
      0#64 := by
    refine BitVec.eq_of_getLsbD_eq fun i _ => ?_
    rw [BitVec.getLsbD_ushiftRight, BitVec.getLsbD_and, getLsbD_and_lowMask va hshift]
    simp
  unfold guestGpaAt guestGpa
  rw [BitVec.ushiftRight_or_distrib, hlow, BitVec.or_zero]

/-- All that the walk of a mapped address needs has a 4K leaf. -/
theorem EptMapsGuest.of_visits (h : EptMapsGuest m pml4 cr3 va) (hlast : GuestLast m cr3 va k)
    (hpresent : GuestPresentAt m cr3 va k) (hgpa : AdVisits m cr3 va 0 gpa) :
    EptMaps4k m pml4 gpa := by
  obtain ⟨j, -, ⟨hreads, rfl⟩ | ⟨hlast', rfl⟩⟩ := hgpa
  · exact h.tables j hreads
  · have hjk : j = k := by
      rcases Nat.le_total j k with hle | hle
      · exact (hlast.1.eq_of_last hlast'.2 hle).symm
      · exact hlast'.1.eq_of_last hlast.2 hle
    subst hjk
    have hpage := @guestGpaAt_shift m cr3 va j hlast.1.1
    exact h.page j hlast' hpresent _ hpage

/-- Behind the clearing, `get_ept_pte` finds an entry with both bits clear. -/
theorem getEptPte_clearEptAd (hmaps : EptMaps4k m pml4 gpa) (hgpa : AdVisits m cr3 va 0 gpa) :
    ∃ e, getEptPte (clearEptAd pml4 cr3 va m) pml4 gpa 1 = some (some e) ∧
      e &&& eptAdFlags = 0 := by
  have hcleared := clearEptAd_cleared m pml4 cr3 va
  have heq := hcleared.adEq
  refine ⟨_, (getEptPte_eq ⟨le_rfl, by norm_num⟩).trans (congrArg some (if_pos ?_)), ?_⟩
  · intro j hj
    rw [heq.presentAt, heq.largeAt]
    exact hmaps.1 j hj
  · have hcell : eptSlotAt m pml4 gpa 3 ∈ adVisitedCells m pml4 cr3 va :=
      ⟨gpa, hgpa, 3, ⟨by norm_num, fun j hj => (hmaps.1 j hj).2⟩, rfl⟩
    show eptEntryAt (clearEptAd pml4 cr3 va m) pml4 gpa 3 &&& eptAdFlags = 0
    rw [eptEntryAt, heq.slotAt, hcleared.inside _ hcell, BitVec.and_assoc,
      BitVec.and_comm (~~~eptAdFlags), BitVec.and_not_self]
    exact BitVec.and_zero

/-- `get_ept_pte` finds an entry for the address, with the two bits as expected. -/
def AdIs (m : Machine 64) (pml4 gpa : BitVec 64) (expected : BitVec 32) : Prop :=
  ∃ e, getEptPte m pml4 gpa 1 = some (some e) ∧ e &&& eptAdFlags = expected.signExtend 64

/-- What `check_ept_ad` prints when all is as expected. -/
def adPasses (expectedGpaAd expectedPtAd : BitVec 32) : List AdLine :=
  [.structuresAd true (expectedFlag expectedPtAd eptAccessFlag)
      (expectedFlag expectedPtAd eptDirtyFlag),
    .gpaAd true (expectedFlag expectedGpaAd eptAccessFlag)
      (expectedFlag expectedGpaAd eptDirtyFlag)]

section Output

variable {expectedGpaAd expectedPtAd : BitVec 32}

theorem checkEptAd.finish_pass_iff :
    checkEptAd.finish m pml4 gpa expectedGpaAd expectedPtAd false =
      adPasses expectedGpaAd expectedPtAd ↔ AdIs m pml4 gpa expectedGpaAd := by
  unfold checkEptAd.finish AdIs adPasses
  rcases hpte : getEptPte m pml4 gpa 1 with _ | _ | e
  · simp
  · simp
  · simp

/-- A table that was not as expected has been reported, and no pass follows for the tables. -/
theorem checkEptAd.finish_bad :
    checkEptAd.finish m pml4 gpa expectedGpaAd expectedPtAd true ≠
      adPasses expectedGpaAd expectedPtAd := by
  unfold checkEptAd.finish adPasses
  rcases getEptPte m pml4 gpa 1 with _ | _ | e
  · simp
  · simp
  · simp

theorem checkEptAd.walk_bad : ∀ {l : ℕ} {pt : BitVec 64},
    checkEptAd.walk m pml4 va expectedGpaAd expectedPtAd l pt true ≠
      adPasses expectedGpaAd expectedPtAd
  | 0, _ => by simp [checkEptAd.walk, adPasses]
  | l + 1, pt => by
    unfold checkEptAd.walk
    rcases hpte : getEptPte m pml4 (entryAddr pt (eptFormat.pgdirOffset va (l + 1))) 1 with
      _ | _ | e
    · simp [hpte, adPasses]
    · simp [hpte, adPasses]
    · simp only [hpte, Bool.true_or, Bool.not_true, Bool.false_and, Bool.false_eq_true, if_false,
        List.nil_append]
      split_ifs
      · exact finish_bad
      · simp [adPasses]
      · exact walk_bad

/-- With the bits of a table as expected, the walk goes on to the next, or ends. -/
theorem checkEptAd.walk_step {l : ℕ} (hd : l + 1 + d = 4)
    (hslot : AdIs m pml4 (eptSlotAt m cr3 va d) expectedPtAd) :
    checkEptAd.walk m pml4 va expectedGpaAd expectedPtAd (l + 1) (eptTableAt m cr3 va d) false =
      if d = 3 ∨ EptLargeAt m cr3 va d then
        checkEptAd.finish m pml4 (guestGpaAt m cr3 va d) expectedGpaAd expectedPtAd false
      else if GuestPresentAt m cr3 va d then
        checkEptAd.walk m pml4 va expectedGpaAd expectedPtAd l (eptTableAt m cr3 va (d + 1)) false
      else [] := by
  obtain ⟨e, he, hbits⟩ := hslot
  have hgood : (e &&& (eptAccessFlag ||| eptDirtyFlag) != expectedPtAd.signExtend 64) = false := by
    rw [hbits]
    exact bne_self_eq_false _
  have hiff := @last_iff m cr3 va d l hd (m.mem (eptSlotAt m cr3 va d)) rfl
  have hthere : m.mem (eptSlotAt m cr3 va d) &&& (ptPresentMask : BitVec 64) = 0 ↔
      ¬GuestPresentAt m cr3 va d := not_not.symm
  have hgpa : guestGpa (m.mem (eptSlotAt m cr3 va d)) va (l + 1) = guestGpaAt m cr3 va d := by
    rw [guestGpaAt, eptEntryAt, show 4 - d = l + 1 by omega]
  rw [checkEptAd.walk]
  simp only [entryAddr_eptTableAt hd, he, hgood, Bool.or_self, Bool.and_false, Bool.false_eq_true,
    if_false, List.nil_append]
  refine if_congr hiff (by rw [hgpa]) ?_
  by_cases hpresent : GuestPresentAt m cr3 va d
  · rw [if_neg fun h => hthere.1 h hpresent, if_pos hpresent]
    rfl
  · rw [if_pos (hthere.2 hpresent), if_neg hpresent]

/-- With the bits of a table not as expected, or no entry for it, there are no two passes. -/
theorem checkEptAd.walk_ne {l : ℕ} (hd : l + 1 + d = 4)
    (hslot : ¬AdIs m pml4 (eptSlotAt m cr3 va d) expectedPtAd) :
    checkEptAd.walk m pml4 va expectedGpaAd expectedPtAd (l + 1) (eptTableAt m cr3 va d) false ≠
      adPasses expectedGpaAd expectedPtAd := by
  unfold checkEptAd.walk
  simp only [entryAddr_eptTableAt hd]
  rcases he : getEptPte m pml4 (eptSlotAt m cr3 va d) 1 with _ | _ | e
  · simp [adPasses]
  · simp [adPasses]
  · have hbad : (e &&& (eptAccessFlag ||| eptDirtyFlag) != expectedPtAd.signExtend 64) = true :=
      bne_iff_ne.mpr fun hbits => hslot ⟨e, he, hbits⟩
    simp [hbad, adPasses]

/-- From the depth `d` on, `check_ept_ad` passes exactly if it comes to a last entry and all that it
visits on the way is as expected. -/
theorem checkEptAd.walk_pass_iff : ∀ {l d : ℕ}, l + d = 4 →
    (∀ j < d, GuestPresentAt m cr3 va j ∧ ¬EptLargeAt m cr3 va j) →
    (checkEptAd.walk m pml4 va expectedGpaAd expectedPtAd l (eptTableAt m cr3 va d) false =
        adPasses expectedGpaAd expectedPtAd ↔
      ∃ k, d ≤ k ∧ GuestLast m cr3 va k ∧
        (∀ j, d ≤ j → j ≤ k → AdIs m pml4 (eptSlotAt m cr3 va j) expectedPtAd) ∧
        AdIs m pml4 (guestGpaAt m cr3 va k) expectedGpaAd)
  | 0, d, hd, _ => by
    refine iff_of_false (by simp [checkEptAd.walk, adPasses]) ?_
    rintro ⟨k, hk, hlast, -⟩
    have := hlast.1.1
    omega
  | l + 1, d, hd, habove => by
    have hreads : GuestReads m cr3 va d := ⟨by omega, habove⟩
    by_cases hslot : AdIs m pml4 (eptSlotAt m cr3 va d) expectedPtAd
    · rw [walk_step hd hslot]
      by_cases hstop : d = 3 ∨ EptLargeAt m cr3 va d
      · -- The walk ends here, and the address is the last thing that is looked at.
        rw [if_pos hstop, finish_pass_iff]
        constructor
        · intro hfinal
          refine ⟨d, le_rfl, ⟨hreads, hstop⟩, fun j hj hjd => ?_, hfinal⟩
          rwa [Nat.le_antisymm hjd hj]
        · rintro ⟨k, hk, hlast, -, hfinal⟩
          rwa [hlast.1.eq_of_last hstop hk] at hfinal
      · rw [if_neg hstop]
        by_cases hpresent : GuestPresentAt m cr3 va d
        · have hpass : ∀ j < d + 1, GuestPresentAt m cr3 va j ∧ ¬EptLargeAt m cr3 va j :=
            fun j hj => by
              rcases Nat.lt_succ_iff_lt_or_eq.1 hj with hj | rfl
              · exact habove j hj
              · exact ⟨hpresent, fun h => hstop (Or.inr h)⟩
          rw [if_pos hpresent, walk_pass_iff (l := l) (d := d + 1) (by omega) hpass]
          constructor
          · rintro ⟨k, hk, hlast, hslots, hfinal⟩
            refine ⟨k, Nat.le_of_succ_le hk, hlast, fun j hj hjk => ?_, hfinal⟩
            rcases hj.lt_or_eq with hj | rfl
            · exact hslots j hj hjk
            · exact hslot
          · rintro ⟨k, hk, hlast, hslots, hfinal⟩
            refine ⟨k, ?_, hlast, fun j hj => hslots j (Nat.le_of_succ_le hj), hfinal⟩
            rcases hk.lt_or_eq with hk | rfl
            · exact hk
            · exact absurd hlast.2 hstop
        · -- Nothing is reported behind an entry that is not present.
          rw [if_neg hpresent]
          refine iff_of_false (by simp [adPasses]) ?_
          rintro ⟨k, hk, hlast, -⟩
          rcases hk.lt_or_eq with hk | rfl
          · exact hpresent (hlast.1.2 d hk).1
          · exact hstop hlast.2
    · exact iff_of_false (walk_ne hd hslot) fun ⟨k, hk, _, hslots, _⟩ =>
        hslot (hslots d le_rfl hk)

/-- On any memory, and for any bits that are expected, `check_ept_ad` reports two passes exactly if
the walk of the address comes to a last entry of the guest, and `get_ept_pte` finds the bits that
are expected for each guest entry on the way and for the guest physical address. -/
theorem checkEptAd_pass_iff :
    checkEptAd m pml4 cr3 va expectedGpaAd expectedPtAd = adPasses expectedGpaAd expectedPtAd ↔
      ∃ k, GuestLast m cr3 va k ∧
        (∀ j ≤ k, AdIs m pml4 (eptSlotAt m cr3 va j) expectedPtAd) ∧
        AdIs m pml4 (guestGpaAt m cr3 va k) expectedGpaAd := by
  refine (checkEptAd.walk_pass_iff (l := 4) (d := 0) rfl
    fun j hj => absurd hj (Nat.not_lt_zero j)).trans ?_
  constructor
  · rintro ⟨k, -, hlast, hslots, hfinal⟩
    exact ⟨k, hlast, fun j hj => hslots j (Nat.zero_le j) hj, hfinal⟩
  · rintro ⟨k, hlast, hslots, hfinal⟩
    exact ⟨k, Nat.zero_le k, hlast, fun j _ hj => hslots j hj, hfinal⟩

end Output

/-- Up to the last entry, each entry is visited, and at it the address. -/
theorem GuestLast.visits (hlast : GuestLast m cr3 va k) :
    AdVisits m cr3 va 0 gpa ↔
      (∃ j ≤ k, gpa = eptSlotAt m cr3 va j) ∨ gpa = guestGpaAt m cr3 va k := by
  constructor
  · rintro ⟨j, -, ⟨hreads, rfl⟩ | ⟨hlast', rfl⟩⟩
    · refine Or.inl ⟨j, ?_, rfl⟩
      by_contra hjk
      exact hjk (hreads.eq_of_last hlast.2 (Nat.le_of_not_le hjk)).le
    · rcases Nat.le_total j k with hle | hle
      · exact Or.inr (by rw [hlast.1.eq_of_last hlast'.2 hle])
      · exact Or.inr (by rw [hlast'.1.eq_of_last hlast.2 hle])
  · rintro (⟨j, hj, rfl⟩ | rfl)
    · exact ⟨j, Nat.zero_le j, Or.inl
        ⟨⟨hj.trans_lt hlast.1.1, fun i hi => hlast.1.2 i (hi.trans_le hj)⟩, rfl⟩⟩
    · exact ⟨k, Nat.zero_le k, Or.inr ⟨hlast, rfl⟩⟩

/-- Where the guest's walk comes to a last entry, `check_ept_ad` passes exactly if the bits are as
expected for all that it visits. -/
theorem GuestLast.checkEptAd_pass_iff (hlast : GuestLast m cr3 va k) {expected : BitVec 32} :
    checkEptAd m pml4 cr3 va expected expected = adPasses expected expected ↔
      ∀ gpa, AdVisits m cr3 va 0 gpa → AdIs m pml4 gpa expected := by
  rw [AcrnUt.checkEptAd_pass_iff]
  constructor
  · rintro ⟨k', hlast', hslots, hfinal⟩ gpa hgpa
    rcases hlast'.visits.1 hgpa with ⟨j, hj, rfl⟩ | rfl
    · exact hslots j hj
    · exact hfinal
  · intro hall
    exact ⟨k, hlast, fun j hj => hall _ (hlast.visits.2 (Or.inl ⟨j, hj, rfl⟩)),
      hall _ (hlast.visits.2 (Or.inr rfl))⟩

/-- A guest address is mapped. -/
def GuestMapped (m : Machine 64) (cr3 va : BitVec 64) : Prop :=
  ∃ k, GuestLast m cr3 va k ∧ GuestPresentAt m cr3 va k

/-- For a guest address that is mapped by a page of any size, all of it by 4K leaves of the EPT,
`check_ept_ad` behind `clear_ept_ad` reads the same guest entries, computes the same guest physical
address, finds both bits clear for each, and reports two passes. With these bits in any state, it
does so exactly if both are clear for each. -/
theorem checkEptAd_clearEptAd (hmapped : GuestMapped m cr3 va)
    (hmaps : EptMapsGuest m pml4 cr3 va) :
    checkEptAd (clearEptAd pml4 cr3 va m) pml4 cr3 va 0 0 =
        [.structuresAd true false false, .gpaAd true false false] ∧
      (∀ k, (GuestReads (clearEptAd pml4 cr3 va m) cr3 va k ↔ GuestReads m cr3 va k) ∧
        (GuestLast (clearEptAd pml4 cr3 va m) cr3 va k ↔ GuestLast m cr3 va k) ∧
        eptSlotAt (clearEptAd pml4 cr3 va m) cr3 va k = eptSlotAt m cr3 va k ∧
        guestGpaAt (clearEptAd pml4 cr3 va m) cr3 va k = guestGpaAt m cr3 va k) ∧
      (∀ gpa, AdVisits m cr3 va 0 gpa →
        ∃ e, getEptPte (clearEptAd pml4 cr3 va m) pml4 gpa 1 = some (some e) ∧
          e &&& eptAdFlags = 0) ∧
      ∀ m', AdEq m m' → (checkEptAd m' pml4 cr3 va 0 0 =
          [.structuresAd true false false, .gpaAd true false false] ↔
        ∀ gpa, AdVisits m cr3 va 0 gpa →
          ∃ e, getEptPte m' pml4 gpa 1 = some (some e) ∧ e &&& eptAdFlags = 0) := by
  obtain ⟨k, hlast, hpresent⟩ := hmapped
  have heq := (clearEptAd_cleared m pml4 cr3 va).adEq
  have hclear : ∀ gpa, AdVisits m cr3 va 0 gpa →
      ∃ e, getEptPte (clearEptAd pml4 cr3 va m) pml4 gpa 1 = some (some e) ∧
        e &&& eptAdFlags = 0 := fun gpa hgpa =>
    getEptPte_clearEptAd (hmaps.of_visits hlast hpresent hgpa) hgpa
  have hpass : ∀ m', AdEq m m' → (checkEptAd m' pml4 cr3 va 0 0 =
        [.structuresAd true false false, .gpaAd true false false] ↔
      ∀ gpa, AdVisits m cr3 va 0 gpa →
        ∃ e, getEptPte m' pml4 gpa 1 = some (some e) ∧ e &&& eptAdFlags = 0) := fun m' heq' => by
    have hiff := @GuestLast.checkEptAd_pass_iff m' pml4 cr3 va k (heq'.guestLast.2 hlast) 0
    simp only [heq'.visits] at hiff
    exact hiff
  exact ⟨(hpass _ heq).2 hclear,
    fun k => ⟨heq.guestReads, heq.guestLast, heq.slotAt, heq.guestGpaAt⟩, hclear, hpass⟩

end Check

/-- An EPT at `0x1000` that maps the first 2M by 4K leaves, accessed and dirty, and a guest table at
`0x5000` that maps them by one large page. -/
def largeGuest : Machine 64 where
  mem a := if a = 0x1000 then 0x2307 else if a = 0x2000 then 0x3307 else
    if a = 0x3000 then 0x4307 else if a = 0x5000 then 0x6007 else
    if a = 0x6000 then 0x7007 else if a = 0x7000 then 0x87 else 0x307
  freelist := 0
  denied := false

/-- Its EPT, by the path of one address in the first 2M. -/
theorem largeGuest_maps4k {gpa : BitVec 64} (h : gpa >>> 21 = 0#64) :
    EptMaps4k largeGuest 0x1000 gpa := by
  have hoff : ∀ l, 2 ≤ l → eptFormat.pgdirOffset gpa l = 0#64 := fun l hl => by
    have hshift : eptFormat.levelShift l = 21 + 9 * (l - 2) := by
      show (l - 1) * 9 + 12 = 21 + 9 * (l - 2)
      omega
    rw [PtFormat.pgdirOffset, hshift, BitVec.shiftRight_add, h, BitVec.zero_ushiftRight,
      BitVec.zero_and]
  have htable : ∀ j < 4, eptTableAt largeGuest 0x1000 gpa j = eptTableAt largeGuest 0x1000 0 j := by
    intro j hj
    induction j with
    | zero => rfl
    | succ j ih =>
      have hzero : eptFormat.pgdirOffset 0 (4 - j) = 0#64 := by simp [PtFormat.pgdirOffset]
      unfold eptTableAt
      rw [ih (by omega), hoff _ (by omega), hzero]
  have hentry : ∀ j < 3, eptEntryAt largeGuest 0x1000 gpa j = eptEntryAt largeGuest 0x1000 0 j := by
    intro j hj
    have hzero : eptFormat.pgdirOffset 0 (4 - j) = 0#64 := by simp [PtFormat.pgdirOffset]
    unfold eptEntryAt eptSlotAt
    rw [htable j (by omega), hoff _ (by omega), hzero]
  constructor
  · unfold EptPresentAt EptLargeAt
    intro j hj
    rw [hentry j hj]
    revert j
    decide
  · have hall : ∀ a, largeGuest.mem a &&& eptPresent ≠ 0 := by
      intro a
      show (if _ then _ else _ : BitVec 64) &&& eptPresent ≠ 0
      split_ifs <;> decide
    exact hall _

/-- The check passes for the whole of the large guest page, and would not without the clearing. -/
theorem checkEptAd_clearEptAd_large :
    checkEptAd (clearEptAd 0x1000 0x5000 0x1234 largeGuest) 0x1000 0x5000 0x1234 0 0 =
        [.structuresAd true false false, .gpaAd true false false] ∧
      checkEptAd largeGuest 0x1000 0x5000 0x1234 0 0 ≠
        [.structuresAd true false false, .gpaAd true false false] := by
  have hlast : GuestLast largeGuest 0x5000 0x1234 2 :=
    ⟨⟨by norm_num, by decide⟩, Or.inr (by decide)⟩
  have hpresent : GuestPresentAt largeGuest 0x5000 0x1234 2 := by decide
  have hmaps : EptMapsGuest largeGuest 0x1000 0x5000 0x1234 := by
    refine ⟨fun k hk => ?_, fun k hk hk' gpa hgpa => ?_⟩
    · have hle : k ≤ 2 := by
        by_contra hle
        exact (hk.2 2 (not_le.1 hle)).2 (by decide)
      have hshift : ∀ k ≤ 2, eptSlotAt largeGuest 0x5000 0x1234 k >>> 21 = 0#64 := by decide
      exact largeGuest_maps4k (hshift k hle)
    · have hk2 : k = 2 := by
        rcases Nat.le_total k 2 with hle | hle
        · exact (hlast.1.eq_of_last hk.2 hle).symm
        · exact hk.1.eq_of_last hlast.2 hle
      subst hk2
      exact largeGuest_maps4k (hgpa.trans (by decide))
  obtain ⟨hpass, -, -, hiff⟩ := checkEptAd_clearEptAd ⟨2, hlast, hpresent⟩ hmaps
  refine ⟨hpass, fun hbefore => ?_⟩
  obtain ⟨e, he, hbits⟩ := (hiff largeGuest fun _ => rfl).1 hbefore
    (eptSlotAt largeGuest 0x5000 0x1234 0) (hlast.visits.2 (Or.inl ⟨0, Nat.zero_le 2, rfl⟩))
  have hset : getEptPte largeGuest 0x1000 (eptSlotAt largeGuest 0x5000 0x1234 0) 1 =
      some (some 0x307) := by decide
  rw [hset, Option.some_inj, Option.some_inj] at he
  exact absurd (he ▸ hbits) (by decide)

end AcrnUt
