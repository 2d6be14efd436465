import AcrnUt.Vmalloc
import AcrnUt.X86Lookup
import Mathlib.Tactic

/-!
# The identity map

`setup_mmu_range` of `lib/x86/vm.c`, 64-bit build : large pages as long as a whole one fits, then
`install_pages` for the rest. Both loops install one page after the other, and one step does the
same for both (`Mapped.install`) : the new page is mapped to itself, readable, writable and for the
user, whatever tables its walk already has, and every other walk is kept.

So the range is the identity, with large leaves for the large pages that lie wholly inside, and the
translation of every canonical address outside is the old one (`setupMmuRange_identity`).
-/

set_option linter.unusedSectionVars false

namespace AcrnUt

/-! ## The source -/

/-- `LARGE_PAGE_SIZE`. -/
def largePageSize : BitVec 64 :=
  512 * pageSize

/-- The loop of `install_pages`, with fuel. -/
def installPages.loop (cr3 max : BitVec 64) :
    ℕ → BitVec 64 → BitVec 64 → Machine 64 → Option (Machine 64)
  | 0, _, _, _ => none
  | fuel + 1, phys, virt, m =>
    if phys + pageSize ≤ max then
      installPages.loop cr3 max fuel (phys + pageSize) (virt + pageSize)
        (installPage cr3 phys virt m).2
    else some m

/-- `install_pages`, or `none` if an assertion fails. -/
def installPages (fuel : ℕ) (cr3 phys len virt : BitVec 64) (m : Machine 64) :
    Option (Machine 64) :=
  let max := len + phys
  if phys % pageSize ≠ 0 then none
  else if virt % pageSize ≠ 0 then none
  else if len % pageSize ≠ 0 then none
  else installPages.loop cr3 max fuel phys virt m

/-- The loop of `setup_mmu_range`, with fuel. -/
def setupMmuRange.loop (cr3 max : BitVec 64) :
    ℕ → BitVec 64 → Machine 64 → Option (BitVec 64 × Machine 64)
  | 0, _, _ => none
  | fuel + 1, phys, m =>
    if phys + largePageSize ≤ max then
      setupMmuRange.loop cr3 max fuel (phys + largePageSize) (installLargePage cr3 phys phys m).2
    else some (phys, m)

/-- `setup_mmu_range`. -/
def setupMmuRange (fuel : ℕ) (cr3 start len : BitVec 64) (m : Machine 64) : Option (Machine 64) :=
  let max := len + start
  (setupMmuRange.loop cr3 max fuel start m).bind fun (phys, m) =>
    installPages fuel cr3 phys (max - phys) phys m

/-! ## Translation -/

/-- What an address translates to : the physical address, the level of the leaf, and the rights
that every entry of the walk grants. -/
structure X86Mapping where
  phys : BitVec 64
  level : ℕ
  writable : Bool
  user : Bool
deriving DecidableEq

/-- The translation of an address, or `none` if it is not mapped. -/
def x86Translate (root : BitVec 64) (cells : BitVec 64 → BitVec 64) (va : BitVec 64) :
    Option X86Mapping :=
  ((x86Format 64).walk root cells va).map fun es =>
    { phys := leafPhys (5 - es.length) (es.getLastD 0) va
      level := 5 - es.length
      writable := es.all fun e => e &&& ptWritableMask != 0
      user := es.all fun e => e &&& ptUserMask != 0 }

/-- An entry that is writable and for the user. -/
def Open (e : BitVec 64) : Prop :=
  e &&& (ptWritableMask ||| ptUserMask) = ptWritableMask ||| ptUserMask

/-- The entries of an address's walk that lead on are open. -/
def LinksOpen (root : BitVec 64) (cells : BitVec 64 → BitVec 64) (va : BitVec 64) : Prop :=
  ∀ d e, (x86Format 64).radix.entry cells root va d = some e →
    (x86Format 64).radix.next d e ≠ none → Open e

section Links

variable {root va e p virt pte : BitVec 64} {m : Machine 64} {l : List (BitVec 64)}
  {level d : ℕ}

theorem Open.bits (h : Open e) :
    (e &&& ptWritableMask != 0) = true ∧ (e &&& ptUserMask != 0) = true := by
  have hmask : ∀ mask : BitVec 64, (ptWritableMask ||| ptUserMask) &&& mask = mask →
      e &&& mask = mask := fun mask hm => by
    rw [← hm, ← BitVec.and_assoc, h]
  rw [hmask _ (by decide), hmask _ (by decide)]
  decide

theorem open_or (h : Open p) (e : BitVec 64) : Open (e ||| p) := by
  have h : p &&& (ptWritableMask ||| ptUserMask) = ptWritableMask ||| ptUserMask := h
  rw [Open, BitVec.and_or_distrib_right, h]
  exact BitVec.eq_of_getLsbD_eq fun i _ => by simp +contextual

/-- A link to a zeroed table is open, and the entries of the table do not lead on. -/
theorem linksOpen_growthView : (x86Format 64).GrowthView
    (fun cells v => LinksOpen root cells v) root := by
  intro cells cells' v₀ t₀ p d g hold hzero v
  refine propext ⟨fun h k e he hnext => ?_, fun h k e he hnext => ?_⟩
  · exact h k e (g.entry_of_next he hnext) hnext
  · rcases g.entry_cases he with he | ⟨-, ⟨rfl, rfl⟩ | ⟨-, rfl⟩⟩
    · exact h k e he hnext
    · exact open_or (by unfold Open; decide) p
    · rw [hzero, PtFormat.radix_next, PtFormat.nextTable_zero] at hnext
      exact absurd rfl hnext

/-- `install_pte` of a leaf keeps the links open. -/
theorem installPte_linksOpen (hs : Supplied (x86Format 64) m root 0 l)
    (htree : (x86Format 64).radix.IsTree m.mem root) (hlinks : ∀ v, LinksOpen root m.mem v)
    (hlevel : 1 ≤ level ∧ level ≤ 4) (hlarge : NoLargeAbove m.mem root virt level)
    (hpte : (x86Format 64).nextTable level pte = none)
    (hden : (installPte root level virt pte 0 m).2.denied = false) (v : BitVec 64) :
    LinksOpen root (installPte root level virt pte 0 m).2.mem v := by
  rcases installPte.walk_view linksOpen_growthView pte hlevel.1 hlevel.2 (Nat.sub_zero 4) hs htree
    hlarge rfl with ⟨used, t, m₁, ptPage', l', hrun, hreach, -⟩ | ⟨-, hden'⟩
  · have hlv : (x86Format 64).pageLevel - ((x86Format 64).pageLevel - level) = level :=
      Nat.sub_sub_self hlevel.2
    have hrun' : (installPte root level virt pte 0 m).2 =
        m₁.store (entryAddr t ((x86Format 64).pgdirOffset virt level)) pte :=
      congrArg Prod.snd hrun
    rw [hrun']
    intro k e he hnext
    have hslot := PtFormat.slot_index (x86Format 64) t ((x86Format 64).pageLevel - level) virt
    rw [hlv] at hslot
    rw [← hslot] at he
    have hdead : (x86Format 64).radix.next ((x86Format 64).pageLevel - level) pte = none := by
      rw [PtFormat.radix_next, hlv, hpte]
    rcases hreach.grown.tree.entry_plant_cases hreach.table hdead he with he | ⟨rfl, -, rfl⟩
    · have hview : LinksOpen root m₁.mem v = LinksOpen root m.mem v := hreach.grown.view v
      exact (hview ▸ hlinks v : LinksOpen root m₁.mem v) k e he hnext
    · exact absurd hdead hnext
  · exact absurd (hden.symm.trans hden') Bool.false_ne_true

end Links

/-! ## One page -/

/-- A tree of open links, and pages to grow it. -/
structure MmuTree (m : Machine 64) (root : BitVec 64) (l : List (BitVec 64)) : Prop where
  supplied : Supplied (x86Format 64) m root 0 l
  tree : (x86Format 64).radix.IsTree m.mem root
  links : ∀ v, LinksOpen root m.mem v

/-- An entry that maps the page of a level at `phys` for all uses. -/
structure LeafOf (level : ℕ) (phys pte : BitVec 64) : Prop where
  present : (x86Format 64).Present pte
  leaf : (x86Format 64).nextTable level pte = none
  addr : pte &&& addrMask 64 = phys
  rights : Open pte

section Page

variable {root phys virt pte v : BitVec 64} {m : Machine 64} {l : List (BitVec 64)} {level : ℕ}

/-- A walk whose leaf is no larger than a level meets no large entry above it. -/
theorem noLargeAbove_of_walk {cells : BitVec 64 → BitVec 64}
    (h : ∀ es, (x86Format 64).walk root cells v = some es → 5 - es.length ≤ level) :
    NoLargeAbove cells root v level := by
  intro d e hd he hpresent hlarge
  have hends : (x86Format 64).radix.Ends cells root v d e :=
    ⟨he, (x86Format 64).nextTable_eq_none.mpr (Or.inr (Or.inr hlarge))⟩
  have hwalk := (x86Format 64).walk_of_ends hends
  rw [if_pos hpresent] at hwalk
  have hle := h _ hwalk
  rw [List.length_append, (x86Format 64).length_of_ends hends d le_rfl,
    List.length_singleton] at hle
  have hd : d + level < 4 := hd
  omega

/-- The page of a leaf is mapped to itself. -/
theorem LeafOf.leafPhys_eq (h : LeafOf level phys pte) (hlevel : 1 ≤ level ∧ level ≤ 4)
    (hv : phys >>> (x86Format 64).levelShift level = v >>> (x86Format 64).levelShift level) :
    leafPhys level pte v = v := by
  have hshift := levelShift_lt 64 hlevel.1 hlevel.2
  refine BitVec.eq_of_getLsbD_eq fun i hi => ?_
  rw [getLsbD_leafPhys hshift hi, h.addr]
  split_ifs with hlow
  · rfl
  · exact getLsbD_of_shift_eq hv (not_lt.mp hlow)

/-- One page of a level, mapped to itself. -/
theorem MmuTree.install (h : MmuTree m root l) (hlevel : 1 ≤ level ∧ level ≤ 3)
    (hpte : LeafOf level phys pte) (hphys : (x86Format 64).Canonical phys)
    (hlarge : NoLargeAbove m.mem root phys level)
    (hden : (installPte root level phys pte 0 m).2.denied = false) :
    ∃ l', MmuTree (installPte root level phys pte 0 m).2 root l' ∧
      (∀ v : BitVec 64, phys >>> (x86Format 64).levelShift level =
        v >>> (x86Format 64).levelShift level →
        x86Translate root (installPte root level phys pte 0 m).2.mem v =
          some ⟨v, level, true, true⟩) ∧
      ∀ v : BitVec 64, (x86Format 64).Canonical v →
        phys >>> (x86Format 64).levelShift level ≠ v >>> (x86Format 64).levelShift level →
        (x86Format 64).walk root (installPte root level phys pte 0 m).2.mem v =
          (x86Format 64).walk root m.mem v := by
  have hle : level ≤ (x86Format 64).pageLevel := show level ≤ 4 by omega
  obtain ⟨ptr, m', used, ptPage', l', hrun, hi, -, hs', -⟩ :=
    installPte_spec h.supplied h.tree hlevel.1 hle hlarge hpte.leaf (Or.inr hden)
  have hlinks := installPte_linksOpen h.supplied h.tree h.links ⟨hlevel.1, hle⟩ hlarge hpte.leaf
    hden
  rw [hrun] at hlinks ⊢
  refine ⟨l', ⟨hs'.withoutPage, hi.tree, hlinks⟩, fun v hv => ?_, fun v hcanonical hv => ?_⟩
  · have hagree := (x86Format 64).agree_of_shift_eq ⟨hlevel.1, hle⟩ hv
    have hends : (x86Format 64).radix.Ends m'.mem root v (4 - level) pte := by
      refine ⟨((x86Format 64).radix.entry_eq_of_agree hagree).symm.trans hi.entry, ?_⟩
      rw [PtFormat.radix_next, show (x86Format 64).pageLevel - (4 - level) = level from
        Nat.sub_sub_self hle]
      exact hpte.leaf
    have hwalk := (x86Format 64).walk_of_ends hends
    rw [if_pos hpte.present] at hwalk
    have hlen := (x86Format 64).length_of_ends hends (4 - level) le_rfl
    -- the entries above the leaf are links of the tree
    have hopen : ∀ e ∈ (List.range (4 - level)).filterMap
        ((x86Format 64).radix.entry m'.mem root v) ++ [pte], Open e := by
      intro e he
      rcases List.mem_append.mp he with he | he
      · obtain ⟨k, hk, hentry⟩ := List.mem_filterMap.mp he
        refine hlinks v k e hentry fun hnext => ?_
        exact absurd (hends.unique _ ⟨hentry, hnext⟩).1 (List.mem_range.mp hk).ne'
      · rw [List.mem_singleton.mp he]
        exact hpte.rights
    unfold x86Translate
    rw [hwalk, Option.map_some, List.length_append, hlen, List.length_singleton,
      List.getLastD_concat, show 5 - (4 - level + 1) = level by omega,
      hpte.leafPhys_eq ⟨hlevel.1, hle⟩ hv, List.all_eq_true.mpr fun e he => (hopen e he).bits.1,
      List.all_eq_true.mpr fun e he => (hopen e he).bits.2]
  · refine hi.walk v fun hagree => hv ?_
    have hd : 4 - level + 1 ≤ (x86Format 64).pageLevel := show _ ≤ 4 by omega
    have hshift := (x86Format 64).shift_eq_of_agree hd hagree fun i hi hw =>
      hphys.getLsbD_eq _ hcanonical (Nat.succ_pos _) hd hagree hi hw
    rwa [show (x86Format 64).pageLevel - (4 - level + 1) + 1 = level from
      show 4 - (4 - level + 1) + 1 = level by omega] at hshift

end Page

/-! ## The two entries -/

section Leaves

variable {phys : BitVec 64}

/-- The entry of `install_page`. -/
theorem leafOf_page (hphys : IsFrame phys) :
    LeafOf 1 phys (phys ||| ptPresentMask ||| ptWritableMask ||| ptUserMask) := by
  rw [show phys ||| ptPresentMask ||| ptWritableMask ||| ptUserMask = phys ||| 7 from
    link_bits phys]
  exact
    { present := (x86Format 64).present_link phys
      leaf := (x86Format 64).nextTable_eq_none.mpr (Or.inr (Or.inl le_rfl))
      addr := PtFormat.link_and_addrMask hphys
      rights := open_or (by unfold Open; decide) phys }

/-- The entry of `install_large_page`. -/
theorem leafOf_largePage (hphys : IsFrame phys) :
    LeafOf 2 phys (phys ||| ptPresentMask ||| ptWritableMask ||| ptUserMask ||| largeMask 64) := by
  rw [show phys ||| ptPresentMask ||| ptWritableMask ||| ptUserMask = phys ||| 7 from
    link_bits phys]
  have hlarge : (phys ||| 7 ||| largeMask 64) &&& largeMask 64 = largeMask 64 := by
    rw [BitVec.and_or_distrib_right, PtFormat.link_and_largeMask hphys, BitVec.and_self]
    exact BitVec.zero_or
  exact
    { present := by
        intro h
        have hbit := congrArg (BitVec.getLsbD · 0) h
        simp [x86Format, ptPresentMask] at hbit
      leaf := by
        refine (x86Format 64).nextTable_eq_none.mpr (Or.inr (Or.inr ⟨Or.inl rfl, ?_⟩))
        rw [hlarge]
        decide
      addr := by
        rw [BitVec.and_or_distrib_right, PtFormat.link_and_addrMask hphys]
        exact BitVec.or_zero
      rights := by
        rw [BitVec.or_comm]
        exact open_or (open_or (by unfold Open; decide) phys) _ }

/-- An address in the lower half is canonical. -/
theorem canonical_of_lt (hlt : phys.toNat < 2 ^ 47) : (x86Format 64).Canonical phys := by
  have hhigh : ∀ i, 47 ≤ i → phys.getLsbD i = false := fun i hi =>
    Nat.testBit_lt_two_pow (hlt.trans_le (Nat.pow_le_pow_right (by norm_num) hi))
  have hbits : (x86Format 64).vaBits = 48 := rfl
  unfold PtFormat.Canonical
  rw [hbits]
  refine BitVec.eq_of_getLsbD_eq fun i hi => ?_
  rw [BitVec.getLsbD_signExtend, BitVec.msb_setWidth, BitVec.getLsbD_setWidth]
  rcases Nat.lt_or_ge i 48 with h48 | h48
  · simp [hi, h48]
  · have h47 : phys[47] = false := hhigh 47 le_rfl
    simp [not_lt.mpr h48, h47, hhigh i (by omega)]

end Leaves

/-! ## The range -/

/-- The level of the leaf for `v` in the identity of `[first, last)` : the large page of `v` lies
wholly inside, or not. -/
def mmuLevel (first last v : ℕ) : ℕ :=
  if first ≤ v / 2 ^ 21 * 2 ^ 21 ∧ v / 2 ^ 21 * 2 ^ 21 + 2 ^ 21 ≤ last then 2 else 1

/-- The pages of the range from `first` up to `cur` are the identity, other walks are those of the
tables `m₀`. -/
structure IdentityUpTo (m₀ m : Machine 64) (root : BitVec 64) (first last cur : ℕ) : Prop where
  tree : ∃ l, MmuTree m root l
  inside : ∀ v : BitVec 64, first ≤ v.toNat → v.toNat < cur →
    x86Translate root m.mem v = some ⟨v, mmuLevel first last v.toNat, true, true⟩
  outside : ∀ v : BitVec 64, (x86Format 64).Canonical v → ¬(first ≤ v.toNat ∧ v.toNat < cur) →
    (x86Format 64).walk root m.mem v = (x86Format 64).walk root m₀.mem v

/-- No page of the range is mapped larger than the identity maps it. -/
def NotLarger (m₀ : Machine 64) (root : BitVec 64) (first last : ℕ) : Prop :=
  ∀ v : BitVec 64, first ≤ v.toNat → v.toNat < last → ∀ t, x86Translate root m₀.mem v = some t →
    t.level ≤ mmuLevel first last v.toNat

section Range

variable {m₀ m : Machine 64} {root phys pte : BitVec 64} {first last level : ℕ}

/-- The next page, of either size. -/
theorem IdentityUpTo.install (h : IdentityUpTo m₀ m root first last phys.toNat)
    (hsize : NotLarger m₀ root first last) (hlast : last ≤ 2 ^ 47)
    (hlevel : 1 ≤ level ∧ level ≤ 3) (hpte : LeafOf level phys pte) (hfirst : first ≤ phys.toNat)
    (haligned : phys.toNat % 2 ^ (x86Format 64).levelShift level = 0)
    (hfits : phys.toNat + 2 ^ (x86Format 64).levelShift level ≤ last)
    (hmmu : ∀ v, phys.toNat ≤ v → v < phys.toNat + 2 ^ (x86Format 64).levelShift level →
      mmuLevel first last v = level)
    (hden : (installPte root level phys pte 0 m).2.denied = false) :
    IdentityUpTo m₀ (installPte root level phys pte 0 m).2 root first last
      (phys.toNat + 2 ^ (x86Format 64).levelShift level) := by
  have hpos := Nat.two_pow_pos ((x86Format 64).levelShift level)
  have hcanonical : (x86Format 64).Canonical phys := canonical_of_lt (by omega)
  have hlarge : NoLargeAbove m.mem root phys level := by
    refine noLargeAbove_of_walk fun es hes => ?_
    rw [h.outside phys hcanonical (by omega)] at hes
    have hle := hsize phys hfirst (by omega) _ (by rw [x86Translate, hes, Option.map_some])
    rwa [hmmu phys.toNat le_rfl (by omega)] at hle
  obtain ⟨l, htree⟩ := h.tree
  obtain ⟨l', htree', hnew, hold⟩ := htree.install hlevel hpte hcanonical hlarge hden
  refine ⟨⟨l', htree'⟩, fun v hv hlt => ?_, fun v hv hnot => ?_⟩
  · by_cases hpage : phys.toNat ≤ v.toNat
    · rw [hnew v ((shift_eq_iff haligned).mpr ⟨hpage, hlt⟩), hmmu v.toNat hpage hlt]
    · have hne := (shift_eq_iff (y := v) haligned).not.mpr fun hpage' => hpage hpage'.1
      have hkeep := hold v (canonical_of_lt (by omega)) hne
      rw [← h.inside v hv (by omega), x86Translate, hkeep, ← x86Translate]
  · have hne := (shift_eq_iff (y := v) haligned).not.mpr fun hpage => hnot (by omega)
    exact (hold v hv hne).trans (h.outside v hv fun hin => hnot (by omega))

/-- The loop of `install_pages` ends, and maps the rest of the range, page by page. -/
theorem installPages.loop_spec {max : BitVec 64} (hmax : max.toNat = last) (hlast : last ≤ 2 ^ 47)
    (hpages : last % 2 ^ 12 = 0) (hsize : NotLarger m₀ root first last) :
    ∀ {fuel : ℕ} {phys : BitVec 64} {m : Machine 64}, first ≤ phys.toNat → phys.toNat ≤ last →
      phys.toNat % 2 ^ 12 = 0 → (last - phys.toNat) / 2 ^ 12 < fuel →
      (∀ v, phys.toNat ≤ v → v < last → mmuLevel first last v = 1) →
      (m.denied = false → IdentityUpTo m₀ m root first last phys.toNat) →
      ∃ m', installPages.loop root max fuel phys phys m = some m' ∧
        (m'.denied = false → IdentityUpTo m₀ m' root first last last)
  | 0, _, _, _, _, _, hfuel, _, _ => absurd hfuel (Nat.not_lt_zero _)
  | fuel + 1, phys, m, hfirst, hle, haligned, hfuel, hmmu, h => by
    have hsum : (phys + pageSize).toNat = phys.toNat + 2 ^ 12 := by
      rw [BitVec.toNat_add, show (pageSize : BitVec 64).toNat = 2 ^ 12 from rfl]
      omega
    have hturn : phys + pageSize ≤ max ↔ phys.toNat + 2 ^ 12 ≤ last := by
      rw [BitVec.le_def, hsum, hmax]
    unfold installPages.loop
    by_cases hfits : phys.toNat + 2 ^ 12 ≤ last
    · rw [if_pos (hturn.mpr hfits)]
      refine loop_spec hmax hlast hpages hsize ?_ ?_ ?_ ?_ (fun v hv hlt => ?_) fun hden => ?_
      · omega
      · omega
      · omega
      · omega
      · exact hmmu v (by omega) hlt
      · have hold : m.denied = false := Bool.eq_false_iff.mpr fun hd =>
          absurd (hden.symm.trans (installPage_denied hd)) Bool.false_ne_true
        rw [hsum]
        exact (h hold).install hsize hlast ⟨le_rfl, by norm_num⟩
          (leafOf_page (isFrame_of_lt haligned (by omega))) hfirst haligned hfits
          (fun v hv hlt => hmmu v hv (hlt.trans_le hfits)) hden
    · rw [if_neg fun hle => hfits (hturn.mp hle)]
      have hend : phys.toNat = last := by omega
      exact ⟨m, rfl, fun hden => hend ▸ h hden⟩

/-- The loop of `setup_mmu_range` ends where no further large page fits. -/
theorem setupMmuRange.loop_spec {max : BitVec 64} (hmax : max.toNat = last) (hlast : last ≤ 2 ^ 47)
    (hsize : NotLarger m₀ root first last) :
    ∀ {fuel : ℕ} {phys : BitVec 64} {m : Machine 64}, first ≤ phys.toNat → phys.toNat ≤ last →
      phys.toNat % 2 ^ 21 = 0 → (last - phys.toNat) / 2 ^ 21 < fuel →
      (m.denied = false → IdentityUpTo m₀ m root first last phys.toNat) →
      ∃ phys' m', setupMmuRange.loop root max fuel phys m = some (phys', m') ∧
        phys.toNat ≤ phys'.toNat ∧ phys'.toNat ≤ last ∧ phys'.toNat % 2 ^ 21 = 0 ∧
        last < phys'.toNat + 2 ^ 21 ∧
        (m'.denied = false → IdentityUpTo m₀ m' root first last phys'.toNat)
  | 0, _, _, _, _, _, hfuel, _ => absurd hfuel (Nat.not_lt_zero _)
  | fuel + 1, phys, m, hfirst, hle, haligned, hfuel, h => by
    have hsum : (phys + largePageSize).toNat = phys.toNat + 2 ^ 21 := by
      rw [BitVec.toNat_add, show largePageSize.toNat = 2 ^ 21 from rfl]
      omega
    have hturn : phys + largePageSize ≤ max ↔ phys.toNat + 2 ^ 21 ≤ last := by
      rw [BitVec.le_def, hsum, hmax]
    unfold setupMmuRange.loop
    by_cases hfits : phys.toNat + 2 ^ 21 ≤ last
    · rw [if_pos (hturn.mpr hfits)]
      have hnext : (installLargePage root phys phys m).2.denied = false →
          IdentityUpTo m₀ (installLargePage root phys phys m).2 root first last
            (phys + largePageSize).toNat := fun hden => by
        have hold : m.denied = false := Bool.eq_false_iff.mpr fun hd =>
          absurd (hden.symm.trans (installPte.walk_denied hd)) Bool.false_ne_true
        rw [hsum]
        refine (h hold).install hsize hlast ⟨by norm_num, by norm_num⟩
          (leafOf_largePage (isFrame_of_lt (by omega) (by omega))) hfirst haligned hfits ?_ hden
        intro v hv hlt
        have hlt : v < phys.toNat + 2 ^ 21 := hlt
        exact if_pos ⟨by omega, by omega⟩
      obtain ⟨phys', m', hrun, hge, hle', haligned', hend, h'⟩ :=
        loop_spec hmax hlast hsize (by omega) (by omega) (by omega)
          (show _ / _ < fuel by omega) hnext
      exact ⟨phys', m', hrun, by omega, hle', haligned', hend, h'⟩
    · rw [if_neg fun hle => hfits (hturn.mp hle)]
      exact ⟨phys, m, rfl, le_rfl, hle, haligned, not_le.mp hfits, h⟩

end Range

/-- On the 64-bit build, `setup_mmu_range` maps a range from a multiple of the large page size on to
itself, for writes and for the user, by large leaves for exactly the large pages that lie wholly
inside, and leaves the translation of every canonical address outside. The tables that are there
already are a tree of writable user tables that map no page of the range larger, and no call of
`alloc_page` fails. -/
theorem setupMmuRange_identity {m : Machine 64} {root start len : BitVec 64} {l : List (BitVec 64)}
    {fuel : ℕ} (hs : Supplied (x86Format 64) m root 0 l)
    (htree : (x86Format 64).radix.IsTree m.mem root) (hlinks : ∀ v, LinksOpen root m.mem v)
    (hstart : start.toNat % 2 ^ 21 = 0) (hlen : len.toNat % 2 ^ 12 = 0)
    (hmax : start.toNat + len.toNat ≤ 2 ^ 47)
    (hsize : NotLarger m root start.toNat (start.toNat + len.toNat))
    (hfuel : len.toNat / 2 ^ 12 < fuel)
    (hserved : ∀ m', setupMmuRange fuel root start len m = some m' → m'.denied = false) :
    ∃ m', setupMmuRange fuel root start len m = some m' ∧
      (∀ v : BitVec 64, start.toNat ≤ v.toNat → v.toNat < start.toNat + len.toNat →
        x86Translate root m'.mem v =
          some ⟨v, mmuLevel start.toNat (start.toNat + len.toNat) v.toNat, true, true⟩) ∧
      ∀ v : BitVec 64, (x86Format 64).Canonical v →
        ¬(start.toNat ≤ v.toNat ∧ v.toNat < start.toNat + len.toNat) →
        x86Translate root m'.mem v = x86Translate root m.mem v := by
  have hsum : (len + start).toNat = start.toNat + len.toNat := by
    rw [BitVec.toNat_add]
    omega
  have h₀ : m.denied = false →
      IdentityUpTo m m root start.toNat (start.toNat + len.toNat) start.toNat := fun _ =>
    ⟨⟨l, hs, htree, hlinks⟩, fun v hv hlt => absurd hv (not_le.mpr hlt), fun _ _ _ => rfl⟩
  obtain ⟨phys, m₁, hrun₁, hge, hle, haligned, hend, h₁⟩ :=
    setupMmuRange.loop_spec hsum hmax hsize le_rfl (Nat.le_add_right _ _) hstart
      (show _ / _ < fuel by omega) h₀
  have hrest : (len + start - phys).toNat = start.toNat + len.toNat - phys.toNat := by
    rw [BitVec.toNat_sub_of_le (BitVec.le_def.mpr (by omega)), hsum]
  have hback : (len + start - phys) + phys = len + start := by
    rw [BitVec.sub_add_cancel]
  have hmod : ∀ x : BitVec 64, x.toNat % 2 ^ 12 = 0 → ¬x % pageSize ≠ 0 := fun x hx h => h (by
    refine BitVec.eq_of_toNat_eq ?_
    rw [BitVec.toNat_umod, show (pageSize : BitVec 64).toNat = 2 ^ 12 from rfl, hx]
    rfl)
  obtain ⟨m₂, hrun₂, h₂⟩ :=
    installPages.loop_spec hsum hmax (by omega) hsize hge hle (by omega)
      (show _ / _ < fuel by omega) (fun v hv hlt => if_neg fun hin => by omega) h₁
  have hrun : setupMmuRange fuel root start len m = some m₂ := by
    unfold setupMmuRange installPages
    simp only [hrun₁, Option.bind_some, hback]
    rw [if_neg (hmod phys (by omega)), if_neg (hmod phys (by omega)),
      if_neg (hmod _ (by rw [hrest]; omega)), hrun₂]
  have h := h₂ (hserved m₂ hrun)
  refine ⟨m₂, hrun, h.inside, fun v hv hnot => ?_⟩
  unfold x86Translate
  rw [h.outside v hv hnot]

/-- A large page and one page behind it, from an empty table. -/
theorem setupMmuRange_identity_two : ∃ m',
    setupMmuRange 1000 0x1000 0x200000 0x201000 zeroedRoot = some m' ∧
      x86Translate 0x1000 m'.mem 0x212345 = some ⟨0x212345, 2, true, true⟩ ∧
      x86Translate 0x1000 m'.mem 0x400123 = some ⟨0x400123, 1, true, true⟩ := by
  have hserved : (setupMmuRange 1000 0x1000 0x200000 0x201000 zeroedRoot).map Machine.denied =
      some false := by
    decide
  have hsize : NotLarger zeroedRoot 0x1000 (0x200000 : BitVec 64).toNat
      ((0x200000 : BitVec 64).toNat + (0x201000 : BitVec 64).toNat) := fun v _ _ t ht => by
    rw [x86Translate, zeroedRoot_walk] at ht
    cases ht
  have hlinks : ∀ v, LinksOpen 0x1000 zeroedRoot.mem v := fun v d e he hnext => by
    rw [zeroedRoot_entry _ he, PtFormat.radix_next, PtFormat.nextTable_zero] at hnext
    exact absurd rfl hnext
  obtain ⟨m', hrun, hin, -⟩ := setupMmuRange_identity (zeroedRoot_supplied _)
    (Radix.isTree_of_bare (by decide) (zeroedRoot_bare _)) hlinks (by decide) (by decide)
    (by decide) hsize (show _ < 1000 by decide) fun m' hm' => by
      rw [hm'] at hserved
      exact Option.some.inj hserved
  exact ⟨m', hrun, hin 0x212345 (by decide) (by decide), hin 0x400123 (by decide) (by decide)⟩

end AcrnUt
