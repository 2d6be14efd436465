import AcrnUt.PageTable

/-!
# x86 page tables

`lib/x86/vm.c`, for both builds of `asm/page.h` (`X86`). A pointer is a word, and memory
is mapped one to one. `install_pte` walks down to the level it writes, and links a zeroed
page wherever a table is missing; `find_pte_level` walks down for the readers.
-/

set_option linter.unusedSectionVars false

namespace AcrnUt

/-- The constants of a build in `asm/page.h`. -/
class X86 (w : ℕ) [PageGeom w] where
  /-- `PAGE_LEVEL`. -/
  pageLevel : ℕ
  /-- `PGDIR_WIDTH`. -/
  pgdirWidth : ℕ
  pageShift_eq : pageShift w = 12
  pageLevel_pos : 0 < pageLevel
  pgdirWidth_pos : 0 < pgdirWidth
  fits : pageLevel * pgdirWidth + 12 ≤ w
  table_size : 2 ^ pgdirWidth * (w / 8) = 2 ^ 12

instance x86_64 : X86 64 where
  pageLevel := 4
  pgdirWidth := 9
  pageShift_eq := pageShift_64
  pageLevel_pos := Nat.zero_lt_succ 3
  pgdirWidth_pos := pgdirWidth_64_pos
  fits := fourLevels_fit
  table_size := table_size_64

instance i386 : X86 32 where
  pageLevel := 2
  pgdirWidth := 10
  pageShift_eq := rfl
  pageLevel_pos := by decide
  pgdirWidth_pos := by decide
  fits := by decide
  table_size := by decide

variable {w : ℕ} [PageGeom w] [X86 w]

/-- `PT_PRESENT_MASK`. -/
def ptPresentMask : BitVec w :=
  1

/-- `PT_WRITABLE_MASK`. -/
def ptWritableMask : BitVec w :=
  2

/-- `PT_USER_MASK`. -/
def ptUserMask : BitVec w :=
  4

/-- `PAGE_LEVEL`. -/
abbrev pageLevel (w : ℕ) [PageGeom w] [X86 w] : ℕ :=
  X86.pageLevel w

/-- The layout of the tables. -/
def x86Format (w : ℕ) [PageGeom w] [X86 w] : PtFormat w where
  pageLevel := X86.pageLevel w
  pgdirWidth := X86.pgdirWidth w
  presentMask := ptPresentMask
  pageShift_eq := X86.pageShift_eq
  pageLevel_pos := X86.pageLevel_pos
  pgdirWidth_pos := X86.pgdirWidth_pos
  fits := X86.fits
  table_size := X86.table_size
  presentMask_ne := by
    have h12 : 12 ≤ w := le_trans (Nat.le_add_left _ _) (X86.fits (w := w))
    intro h
    have hbit := congrArg (BitVec.getLsbD · 0) h
    simp [ptPresentMask] at hbit
    omega
  presentMask_le := by
    have h : (1 : BitVec w) &&& 7 = BitVec.ofNat w (1 &&& 7) := (BitVec.ofNat_and ..).symm
    exact h

/-! ## The source -/

/-- `install_pte` from the table `pt` at a level : the loop, then the store. -/
def installPte.walk (virt pte : BitVec w) (pteLevel : ℕ) :
    ℕ → BitVec w → BitVec w → Machine w → BitVec w × Machine w
  | 0, pt, _, m =>
    let slot := entryAddr pt ((x86Format w).pgdirOffset virt 0)
    (slot, m.store slot pte)
  | level + 1, pt, ptPage, m =>
    let slot := entryAddr pt ((x86Format w).pgdirOffset virt (level + 1))
    if pteLevel < level + 1 then
      if m.mem slot &&& ptPresentMask = 0 then
        let (newPt, ptPage, m) := takeTable ptPage m
        let m := (m.clearPage newPt).store slot
          (virtToPhys newPt ||| ptPresentMask ||| ptWritableMask ||| ptUserMask)
        installPte.walk virt pte pteLevel level (physToVirt (m.mem slot &&& addrMask w)) ptPage m
      else
        installPte.walk virt pte pteLevel level (physToVirt (m.mem slot &&& addrMask w)) ptPage m
    else (slot, m.store slot pte)

/-- `install_pte`. -/
def installPte (cr3 : BitVec w) (pteLevel : ℕ) (virt pte ptPage : BitVec w) (m : Machine w) :
    BitVec w × Machine w :=
  installPte.walk virt pte pteLevel (pageLevel w) cr3 ptPage m

/-- `struct pte_search`. -/
structure PteSearch (w : ℕ) where
  level : ℕ
  pte : BitVec w

/-- The loop of `find_pte_level`, from the table `pt` at a level. -/
def findPteLevel.walk (m : Machine w) (virt : BitVec w) (lowestLevel : ℕ) :
    ℕ → BitVec w → Option (PteSearch w)
  | 0, _ => none
  | level + 1, pt =>
    let slot := entryAddr pt ((x86Format w).pgdirOffset virt (level + 1))
    let pte := m.mem slot
    if pte &&& ptPresentMask = 0 then some ⟨level + 1, slot⟩
    else if (level + 1 = 2 ∨ level + 1 = 3) ∧ pte &&& largeMask w ≠ 0 then some ⟨level + 1, slot⟩
    else if level + 1 = lowestLevel then some ⟨level + 1, slot⟩
    else findPteLevel.walk m virt lowestLevel level (physToVirt (pte &&& addrMask w))

/-- `find_pte_level`. -/
def findPteLevel (m : Machine w) (cr3 virt : BitVec w) (lowestLevel : ℕ) :
    Option (PteSearch w) :=
  if 1 ≤ lowestLevel ∧ lowestLevel ≤ pageLevel w then
    findPteLevel.walk m virt lowestLevel (pageLevel w) cr3
  else none

/-- `found_huge_pte`. -/
def foundHugePte (m : Machine w) (search : PteSearch w) : Bool :=
  (search.level = 2 ∨ search.level = 3) ∧ m.mem search.pte &&& ptPresentMask ≠ 0 ∧
    m.mem search.pte &&& largeMask w ≠ 0

/-- `found_leaf_pte`. -/
def foundLeafPte (m : Machine w) (search : PteSearch w) : Bool :=
  search.level = 1 ∨ foundHugePte m search

/-- `get_pte`. -/
def getPte (m : Machine w) (cr3 virt : BitVec w) : Option (BitVec w) :=
  (findPteLevel m cr3 virt 1).map fun search =>
    if foundLeafPte m search then search.pte else 0

/-- `get_pte_level`. -/
def getPteLevel (m : Machine w) (cr3 virt : BitVec w) (pteLevel : ℕ) : Option (BitVec w) :=
  (findPteLevel m cr3 virt pteLevel).map fun search =>
    if search.level = pteLevel then search.pte else 0

/-- `install_page`. -/
def installPage (cr3 phys virt : BitVec w) (m : Machine w) : BitVec w × Machine w :=
  installPte cr3 1 virt (phys ||| ptPresentMask ||| ptWritableMask ||| ptUserMask) 0 m

/-- `virt_to_pte_phys`. -/
def virtToPtePhys (m : Machine w) (cr3 mem : BitVec w) : Option (BitVec w) :=
  (getPte m cr3 mem).map fun pte => (m.mem pte &&& addrMask w) + (mem &&& (pageSize - 1))

/-! ## Installing an entry -/

/-- No present entry above a level is large on the walk of `virt`. -/
def NoLargeAbove (cells : BitVec w → BitVec w) (root virt : BitVec w) (level : ℕ) : Prop :=
  ∀ d e, d + level < (x86Format w).pageLevel →
    (x86Format w).radix.entry cells root virt d = some e → (x86Format w).Present e →
    ¬PtFormat.Large ((x86Format w).pageLevel - d) e

/-- The bits of a link to a new table. -/
theorem link_bits (p : BitVec w) :
    virtToPhys p ||| ptPresentMask ||| ptWritableMask ||| ptUserMask = p ||| 7 := by
  have h7 : (1 : BitVec w) ||| 2 ||| 4 = 7 := by
    change BitVec.ofNat w 1 ||| BitVec.ofNat w 2 ||| BitVec.ofNat w 4 = BitVec.ofNat w 7
    rw [← BitVec.ofNat_or, ← BitVec.ofNat_or]
    rfl
  rw [virtToPhys, ptPresentMask, ptWritableMask, ptUserMask, BitVec.or_assoc, BitVec.or_assoc,
    ← BitVec.or_assoc 1, h7]

section Install

variable {root virt pte pt ptPage : BitVec w} {m : Machine w} {pteLevel level : ℕ}

namespace installPte

/-- A run that was denied a page stays so. -/
theorem walk_denied : ∀ {level : ℕ} {pt ptPage : BitVec w} {m : Machine w}, m.denied = true →
    (walk virt pte pteLevel level pt ptPage m).2.denied = true
  | 0, _, _, _, h => h
  | level + 1, pt, ptPage, m, h => by
    rw [walk]
    split_ifs
    · exact walk_denied (takeTable_denied h)
    · exact walk_denied h
    · exact h

/-- At its level, the walk writes. -/
theorem walk_target : walk virt pte (level + 1) (level + 1) pt ptPage m =
    (entryAddr pt ((x86Format w).pgdirOffset virt (level + 1)),
      m.store (entryAddr pt ((x86Format w).pgdirOffset virt (level + 1))) pte) := by
  rw [walk, if_neg (lt_irrefl _)]

/-- Above it, the walk follows a present entry. -/
theorem walk_next (hlt : pteLevel < level + 1)
    (hpresent : (x86Format w).Present
      (m.mem (entryAddr pt ((x86Format w).pgdirOffset virt (level + 1))))) :
    walk virt pte pteLevel (level + 1) pt ptPage m = walk virt pte pteLevel level
      (m.mem (entryAddr pt ((x86Format w).pgdirOffset virt (level + 1))) &&& addrMask w)
      ptPage m := by
  rw [walk, if_pos hlt]
  exact if_neg hpresent

/-- An entry that is not present is first linked to a new table. -/
theorem walk_missing {p ptPage' : BitVec w} {m₁ : Machine w} (hlt : pteLevel < level + 1)
    (habsent : ¬(x86Format w).Present
      (m.mem (entryAddr pt ((x86Format w).pgdirOffset virt (level + 1)))))
    (htake : takeTable ptPage m = (p, ptPage', m₁)) :
    walk virt pte pteLevel (level + 1) pt ptPage m =
      walk virt pte pteLevel level ((p ||| 7) &&& addrMask w) ptPage' ((m₁.clearPage p).store
        (entryAddr pt ((x86Format w).pgdirOffset virt (level + 1))) (p ||| 7)) := by
  have habsent : m.mem (entryAddr pt ((x86Format w).pgdirOffset virt (level + 1))) &&&
      ptPresentMask = 0 := not_not.mp habsent
  rw [walk, if_pos hlt, if_pos habsent, htake]
  simp only [link_bits, Machine.store_mem_self, physToVirt]

end installPte

/-- A graft of a zeroed table puts no large entry on the path. -/
theorem NoLargeAbove.graft {cells cells' : BitVec w → BitVec w} {t₀ p : BitVec w} {d level : ℕ}
    (h : NoLargeAbove cells root virt level)
    (g : (x86Format w).radix.Graft cells cells' root virt d t₀ p (p ||| 7))
    (hzero : ∀ v, cells' ((x86Format w).radix.slot p ((x86Format w).radix.index (d + 1) v)) = 0) :
    NoLargeAbove cells' root virt level := by
  intro k e hk he hpresent
  rcases g.entry_cases he with he | ⟨-, ⟨rfl, rfl⟩ | ⟨-, rfl⟩⟩
  · exact h k e hk he hpresent
  · intro hlarge
    have hlink := g.link
    rw [PtFormat.radix_next, (x86Format w).nextTable_eq_none.mpr (Or.inr (Or.inr hlarge))] at hlink
    cases hlink
  · rw [hzero] at hpresent
    exact absurd hpresent (x86Format w).not_present_zero

/-- `install_pte` from level `level` down to `pteLevel`, with no large entry on the way :
it grows the tree until it reaches a table of that level, and writes there. No view of growth
changes. It only runs out of pages if there are fewer than levels on the way. -/
theorem installPte.walk_view {X : Type*} {view : (BitVec w → BitVec w) → BitVec w → X}
    (hview : (x86Format w).GrowthView view root) (pte : BitVec w) (hpos : 0 < pteLevel) :
    ∀ {level d : ℕ} {pt ptPage : BitVec w} {m : Machine w} {l : List (BitVec w)},
      pteLevel ≤ level → (x86Format w).pageLevel - d = level →
      Supplied (x86Format w) m root ptPage l → (x86Format w).radix.IsTree m.mem root →
      NoLargeAbove m.mem root virt pteLevel →
      (x86Format w).radix.table m.mem root virt d = some pt →
      (∃ used t m' ptPage' l',
        installPte.walk virt pte pteLevel level pt ptPage m =
          (entryAddr t ((x86Format w).pgdirOffset virt pteLevel),
            m'.store (entryAddr t ((x86Format w).pgdirOffset virt pteLevel)) pte) ∧
        (x86Format w).Reached view m m' root virt
          ((x86Format w).pageLevel - pteLevel) used t ∧
        supply ptPage l = used ++ supply ptPage' l' ∧
        Supplied (x86Format w) m' root ptPage' l' ∧ m'.denied = m.denied) ∨
      ((supply ptPage l).length < level - pteLevel ∧
        (installPte.walk virt pte pteLevel level pt ptPage m).2.denied = true)
  | 0, _, _, _, _, _, hle, _, _, _, _, _ => absurd hle (not_le.mpr hpos)
  | level + 1, d, pt, ptPage, m, l, hle, hd, hs, htree, hlarge, ht => by
    rcases hle.lt_or_eq with hlt | rfl
    · have hentry := (x86Format w).entry_of_table ht
      rw [hd] at hentry
      by_cases hpresent : (x86Format w).Present
          (m.mem (entryAddr pt ((x86Format w).pgdirOffset virt (level + 1))))
      · have hsmall := hlarge d _ (by omega) hentry hpresent
        rw [hd] at hsmall
        have ht' := (x86Format w).table_next ht hd (by omega) hpresent hsmall
        rw [installPte.walk_next hlt hpresent]
        refine (walk_view hview pte hpos (Nat.le_of_lt_succ hlt) (by omega) hs htree hlarge
          ht').imp_right ?_
        exact fun h => ⟨by omega, h.2⟩
      · cases hsup : supply ptPage l with
        | nil =>
          refine Or.inr ⟨Nat.sub_pos_of_lt hlt, ?_⟩
          rw [installPte.walk_missing hlt hpresent rfl]
          exact installPte.walk_denied (takeTable_nil hs.list hsup)
        | cons p rest =>
          obtain ⟨m₁, htake, hden, hp, hg, hzero, hs'⟩ :=
            (x86Format w).newTable_spec hs hsup htree ht hd (by omega) hpresent
          rw [installPte.walk_missing hlt hpresent htake, PtFormat.link_and_addrMask hp]
          rcases walk_view hview pte hpos (Nat.le_of_lt_succ hlt) (by omega) hs' hg.isTree
            (hlarge.graft hg hzero) (hg.table_new fun _ _ => rfl) with
            ⟨used, t, m', ptPage', l', hrun, hreach, hsup', hs'', hden'⟩ | ⟨hshort, hden'⟩
          · refine Or.inl ⟨p :: used, t, m', ptPage', l', hrun, hreach.graft hg (by omega) ?_, ?_,
              hs'', hden'.trans hden⟩
            · refine hview hg ?_ hzero
              rwa [PtFormat.slot_index, hd]
            · rw [List.cons_append, ← hsup', supply, if_pos rfl]
          · rw [supply, if_pos rfl] at hshort
            exact Or.inr ⟨by rw [List.length_cons]; omega, hden'⟩
    · have hD : d = (x86Format w).pageLevel - (level + 1) := by omega
      subst hD
      rw [installPte.walk_target]
      exact Or.inl ⟨[], pt, m, ptPage, l, rfl, .refl htree ht, rfl, hs, rfl⟩

/-- `find_pte_level` stops at its lowest level if the walk reaches a table there. -/
theorem findPteLevel.walk_spec {lowestLevel : ℕ} {t : BitVec w} (hpos : 0 < lowestLevel)
    (ht : (x86Format w).radix.table m.mem root virt ((x86Format w).pageLevel - lowestLevel) =
      some t) :
    ∀ {level d : ℕ} {pt : BitVec w}, lowestLevel ≤ level → (x86Format w).pageLevel - d = level →
      (x86Format w).radix.table m.mem root virt d = some pt →
      findPteLevel.walk m virt lowestLevel level pt =
        some ⟨lowestLevel, entryAddr t ((x86Format w).pgdirOffset virt lowestLevel)⟩
  | 0, _, _, hle, _, _ => absurd hle (not_le.mpr hpos)
  | level + 1, d, pt, hle, hd, hpt => by
    rw [findPteLevel.walk]
    rcases hle.lt_or_eq with hlt | rfl
    · obtain ⟨hon, hnot, ht'⟩ := (x86Format w).table_next_of_deeper ht (by omega) hpt hd
      have hpresent : ¬m.mem (entryAddr pt ((x86Format w).pgdirOffset virt (level + 1))) &&&
          ptPresentMask = 0 := hon
      have hsmall : ¬((level + 1 = 2 ∨ level + 1 = 3) ∧
          m.mem (entryAddr pt ((x86Format w).pgdirOffset virt (level + 1))) &&& largeMask w ≠ 0) :=
        hnot
      simp only [if_neg hpresent, if_neg hsmall, if_neg hlt.ne']
      exact walk_spec hpos ht (Nat.le_of_lt_succ hlt) (by omega) ht'
    · have hD : d = (x86Format w).pageLevel - (level + 1) := by omega
      rw [← hD, hpt] at ht
      cases ht
      simp only [if_true, ite_self]

/-- What `install_pte` does : it leaves a tree in which the entry of `virt` at the level is
`pte`, at `ptr`, and the other walks are the old ones. -/
structure Installed (m m' : Machine w) (root virt pte ptr : BitVec w) (level : ℕ)
    (used : List (BitVec w)) : Prop where
  tree : (x86Format w).radix.IsTree m'.mem root
  tables : (x86Format w).radix.tables m'.mem root =
    ((x86Format w).radix.tables m.mem root \
      (x86Format w).radix.below m.mem root virt (pageLevel w - level)) ∪ {t | t ∈ used}
  search : findPteLevel m' root virt level = some ⟨level, ptr⟩
  ptr_mem : m'.mem ptr = pte
  entry : (x86Format w).radix.entry m'.mem root virt (pageLevel w - level) = some pte
  walk : ∀ v, ¬(x86Format w).radix.Agree (pageLevel w - level + 1) virt v →
    (x86Format w).walk root m'.mem v = (x86Format w).walk root m.mem v
  frame : ∀ a, pageOf a ∉ (x86Format w).radix.tables m.mem root → pageOf a ∉ used →
    m'.mem a = m.mem a

/-- Enough pages for every level on the way, or no page denied. -/
def Granted (m : Machine w) (root virt pte ptPage : BitVec w) (pteLevel : ℕ)
    (l : List (BitVec w)) : Prop :=
  pageLevel w - pteLevel ≤ (supply ptPage l).length ∨
    (installPte root pteLevel virt pte ptPage m).2.denied = false

theorem installPte_spec {l : List (BitVec w)} (hs : Supplied (x86Format w) m root ptPage l)
    (htree : (x86Format w).radix.IsTree m.mem root) (hpos : 0 < pteLevel)
    (hle : pteLevel ≤ pageLevel w) (hlarge : NoLargeAbove m.mem root virt pteLevel)
    (hpte : (x86Format w).nextTable pteLevel pte = none)
    (hgranted : Granted m root virt pte ptPage pteLevel l) :
    ∃ ptr m' used ptPage' l', installPte root pteLevel virt pte ptPage m = (ptr, m') ∧
      Installed m m' root virt pte ptr pteLevel used ∧
      supply ptPage l = used ++ supply ptPage' l' ∧ Supplied (x86Format w) m' root ptPage' l' ∧
      m'.denied = m.denied := by
  rcases installPte.walk_view (x86Format w).walk_growthView pte hpos hle (Nat.sub_zero _) hs htree
    hlarge rfl with
    ⟨used, t, m₁, ptPage', l', hrun, hreach, hsup, hs₁, hden⟩ | ⟨hshort, hden⟩
  swap
  · rcases hgranted with h | h
    · exact absurd h (not_le.mpr hshort)
    · exact absurd (h.symm.trans hden) Bool.false_ne_true
  have hlv : (x86Format w).pageLevel - ((x86Format w).pageLevel - pteLevel) = pteLevel :=
    Nat.sub_sub_self hle
  have hfresh : ∀ p ∈ used, p ∉ (x86Format w).radix.tables m.mem root := fun p hp =>
    hs.fresh p (by rw [hsup]; exact List.mem_append_left _ hp)
  obtain ⟨htree', htables⟩ := hreach.plant (e := pte) hfresh (by rwa [hlv])
  have htable := hreach.grown.tree.table_update (e := pte) (v := virt) hreach.table (Or.inl le_rfl)
  rw [PtFormat.slot_index, hlv] at htable
  rw [hlv] at htree' htables
  have hslot := (x86Format w).pageOf_entryAddr
    (pageOf_eq_self_iff.mp (hreach.grown.tree.page_table hreach.table)) virt pteLevel
  have hmem : t ∈ (x86Format w).radix.tables m₁.mem root := ⟨virt, _, hreach.table⟩
  refine ⟨_, _, used, ptPage', l', hrun, ?_, hsup, hs₁.store (by rwa [hslot]) ?_, hden⟩
  · exact
      { tree := htree'
        tables := htables
        search := by
          rw [findPteLevel, if_pos ⟨hpos, hle⟩]
          exact findPteLevel.walk_spec hpos (htable.trans hreach.table) hle (Nat.sub_zero _) rfl
        ptr_mem := Machine.store_mem_self _
        entry := by
          have := hreach.entry_store (e := pte) (v := virt) fun _ _ => rfl
          rwa [hlv] at this
        walk := by
          intro v hv
          have := hreach.entry_store_of_not (e := pte) hv
          rw [hlv] at this
          exact ((x86Format w).walk_congr this).trans (hreach.grown.view v)
        frame := by
          intro a ha hused
          have hnot : pageOf a ∉ (x86Format w).radix.tables m₁.mem root := by
            rw [hreach.grown.tables]
            exact not_or.mpr ⟨ha, hused⟩
          refine (Machine.store_mem_of_ne m₁ ?_).trans (hreach.grown.frame a hnot)
          rintro rfl
          exact hnot (by rwa [hslot]) }
  · rw [htables, hreach.grown.tables]
    exact Set.union_subset_union_left _ Set.sdiff_subset

end Install

/-! ## Install against lookup -/

/-- On the 64-bit build, after `install_pte` the lookup finds `pte` at the level, every
canonical address outside the page of the level around `virt` has its old walk (the
same entries down to the same leaf, or none), and the tables are a tree : the old one
less the subtree that was replaced, and the pages taken from the supply. -/
theorem installPte_preserves {m : Machine 64} {root virt pte ptPage : BitVec 64}
    {l : List (BitVec 64)} {pteLevel : ℕ} (hs : Supplied (x86Format 64) m root ptPage l)
    (htree : (x86Format 64).radix.IsTree m.mem root) (hvirt : (x86Format 64).Canonical virt)
    (hlevel : 1 ≤ pteLevel ∧ pteLevel ≤ 3) (hlarge : NoLargeAbove m.mem root virt pteLevel)
    (hpte : ¬(x86Format 64).Present pte ∨ pteLevel = 1 ∨ PtFormat.Large pteLevel pte)
    (hgranted : Granted m root virt pte ptPage pteLevel l) :
    ∃ ptr m' used rest, installPte root pteLevel virt pte ptPage m = (ptr, m') ∧
      getPteLevel m' root virt pteLevel = some ptr ∧ m'.mem ptr = pte ∧
      (∀ v, (x86Format 64).Canonical v →
        v >>> (x86Format 64).levelShift pteLevel ≠ virt >>> (x86Format 64).levelShift pteLevel →
        (x86Format 64).walk root m'.mem v = (x86Format 64).walk root m.mem v) ∧
      (x86Format 64).radix.IsTree m'.mem root ∧
      (x86Format 64).radix.tables m'.mem root =
        ((x86Format 64).radix.tables m.mem root \
          (x86Format 64).radix.below m.mem root virt (4 - pteLevel)) ∪ {t | t ∈ used} ∧
      supply ptPage l = used ++ rest := by
  have hleaf : (x86Format 64).nextTable pteLevel pte = none :=
    (x86Format 64).nextTable_eq_none.mpr (hpte.imp_right (Or.imp_left Nat.le_of_eq))
  have hle : pteLevel ≤ (x86Format 64).pageLevel := show pteLevel ≤ 4 by omega
  obtain ⟨ptr, m', used, ptPage', l', hrun, h, hsup, -, -⟩ :=
    installPte_spec hs htree hlevel.1 hle hlarge hleaf hgranted
  refine ⟨ptr, m', used, _, hrun, ?_, h.ptr_mem, fun v hv hne => h.walk v fun hagree => hne ?_,
    h.tree, h.tables, hsup⟩
  · rw [getPteLevel, h.search, Option.map_some, if_pos rfl]
  · have hd : 4 - pteLevel + 1 ≤ (x86Format 64).pageLevel := show _ ≤ 4 by omega
    have hshift := (x86Format 64).shift_eq_of_agree hd hagree fun i hi hw =>
      hvirt.getLsbD_eq _ hv (Nat.succ_pos _) hd hagree hi hw
    rw [show (x86Format 64).pageLevel - (4 - pteLevel + 1) + 1 = pteLevel from
      show 4 - (4 - pteLevel + 1) + 1 = pteLevel by omega] at hshift
    exact hshift.symm

theorem zeroedRoot_noLarge : NoLargeAbove zeroedRoot.mem 0x1000 0x400000 1 := by
  intro d e _ he hpresent
  rw [zeroedRoot_entry _ he] at hpresent
  exact absurd hpresent (x86Format 64).not_present_zero

/-- A page of 2M in place of the table that held a page of 4K. -/
theorem installPte_preserves_subtree : ∃ (ptr₀ ptr : BitVec 64) (m m' : Machine 64)
      (used : List (BitVec 64)),
    installPte 0x1000 1 0x400000 0x5007 0 zeroedRoot = (ptr₀, m) ∧
    installPte 0x1000 2 0x400000 0x800083 0 m = (ptr, m') ∧
    getPteLevel m' 0x1000 0x400000 2 = some ptr ∧ m'.mem ptr = 0x800083 ∧
    (∀ v, (x86Format 64).Canonical v →
      v >>> (x86Format 64).levelShift 2 ≠ 0x400000 >>> (x86Format 64).levelShift 2 →
      (x86Format 64).walk 0x1000 m'.mem v = (x86Format 64).walk 0x1000 m.mem v) ∧
    (x86Format 64).radix.tables m'.mem 0x1000 =
      ((x86Format 64).radix.tables m.mem 0x1000 \
        (x86Format 64).radix.below m.mem 0x1000 0x400000 (4 - 2)) ∪ {t | t ∈ used} := by
  have hpath : ∀ m, (installPte 0x1000 1 0x400000 0x5007 0 zeroedRoot).2 = m →
      (x86Format 64).radix.entry m.mem 0x1000 0x400000 0 = some 0x2007 ∧
      (x86Format 64).radix.entry m.mem 0x1000 0x400000 1 = some 0x3007 ∧
      (installPte 0x1000 2 0x400000 0x800083 0 m).2.denied = false := by
    rintro m rfl
    decide +kernel
  have hgranted : Granted zeroedRoot 0x1000 0x400000 0x5007 0 1 [0x2000, 0x3000, 0x4000, 0x5000] :=
    Or.inl (by decide)
  obtain ⟨ptr₀, m, _, ptPage, l, hrun₀, hinstalled, -, hs, -⟩ :=
    installPte_spec (zeroedRoot_supplied _) (Radix.isTree_of_bare (by decide) (zeroedRoot_bare _))
      one_pos (by decide) zeroedRoot_noLarge (by decide) hgranted
  obtain ⟨h0, h1, hden⟩ := hpath m (by rw [hrun₀])
  have hlarge : NoLargeAbove m.mem 0x1000 0x400000 2 := by
    intro d e hd he _
    have hd : d < 2 := Nat.lt_of_add_lt_add_right hd
    interval_cases d
    · rw [h0] at he
      cases he
      exact fun h => h.2 (by decide)
    · rw [h1] at he
      cases he
      exact fun h => h.2 (by decide)
  obtain ⟨ptr, m', used, rest, hrun, hget, hmem, hwalk, -, htables, -⟩ :=
    installPte_preserves hs.withoutPage hinstalled.tree (by decide) (by decide) hlarge
      (Or.inr (Or.inr ⟨Or.inl rfl, by decide⟩)) (Or.inr hden)
  exact ⟨ptr₀, ptr, m, m', used, hrun₀, hrun, hget, hmem, hwalk, htables⟩

end AcrnUt
