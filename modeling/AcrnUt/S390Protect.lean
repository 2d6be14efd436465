import AcrnUt.S390Space

/-!
# Protection of s390x ranges

`protect_page` and `unprotect_page` change the entry of a page, and `protect_range` and
`unprotect_range` do it page after page, from the page of `start` on. The number of pages is
`len / 4096`, whatever the place of `start` in its page. A range that starts inside a page, or ends
inside one, may have bytes in up to two more pages, which keep their entries (`Missed`).

So the entries of the pages with a byte of the range change, and no others, if and only if those of
the missed pages are as they should be already (`protectRange_iff`).
-/

set_option linter.unusedSectionVars false

namespace AcrnUt

namespace S390

/-! ## The source -/

/-- What `protect_page` and `unprotect_page` share : change the entry of the page by `f`. -/
def changePage (f : BitVec 64 → BitVec 64) (root vaddr : BitVec 64) (m : S390Machine) :
    S390Machine :=
  let (pPte, m) := getPte root vaddr m
  let nPte := f (m.mem pPte)
  (setPte root nPte vaddr m).2

/-- `protect_page`. -/
def protectPage (root vaddr prot : BitVec 64) (m : S390Machine) : S390Machine :=
  changePage (· ||| prot) root vaddr m

/-- `unprotect_page`. -/
def unprotectPage (root vaddr prot : BitVec 64) (m : S390Machine) : S390Machine :=
  changePage (· &&& ~~~prot) root vaddr m

/-- The loop of `protect_range` and `unprotect_range`, around a function for one page. -/
def pageLoop (onPage : BitVec 64 → S390Machine → S390Machine) :
    ℕ → BitVec 64 → BitVec 64 → S390Machine → Option S390Machine
  | 0, _, _, _ => none
  | fuel + 1, curr, len, m =>
    if len = 0 then some m
    else pageLoop onPage fuel (curr + 1#64 <<< 12) (len - 1#64 <<< 12) (onPage curr m)

/-- `protect_range`. -/
def protectRange (fuel : ℕ) (root start len prot : BitVec 64) (m : S390Machine) :
    Option S390Machine :=
  let curr := start &&& pageMask
  let len := len &&& pageMask
  pageLoop (fun curr => protectPage root curr prot) fuel curr len m

/-- `unprotect_range`. -/
def unprotectRange (fuel : ℕ) (root start len prot : BitVec 64) (m : S390Machine) :
    Option S390Machine :=
  let curr := start &&& pageMask
  let len := len &&& pageMask
  pageLoop (fun curr => unprotectPage root curr prot) fuel curr len m

/-! ## What they are for -/

/-- The entry of a page. A page without a table has the entry of a new one. -/
def hwPte (mem : BitVec 64 → BitVec 64) (root v : BitVec 64) : BitVec 64 :=
  ((hwTable mem root v 4).map fun table => mem (offset pte table v)).getD pte.empty

/-- The page of `v` contains a byte of `[start, start + len)`. -/
def HasByte (start len v : BitVec 64) : Prop :=
  ∃ a, page a = page v ∧ start.toNat ≤ a.toNat ∧ a.toNat < start.toNat + len.toNat

/-- The entries of the pages with a byte of the range are changed by `f`, and no others. -/
structure RangeChanged (f : BitVec 64 → BitVec 64) (root start len : BitVec 64)
    (m m' : S390Machine) : Prop where
  changed : ∀ v, HasByte start len v → hwPte m'.mem root v = f (hwPte m.mem root v)
  unchanged : ∀ v, ¬HasByte start len v → hwPte m'.mem root v = hwPte m.mem root v

/-- The page of `v` contains a byte of the range, and comes after the `len / 4096` pages from that
of `start` on. -/
def Missed (start len v : BitVec 64) : Prop :=
  HasByte start len v ∧ start.toNat / 2 ^ 12 + len.toNat / 2 ^ 12 ≤ v.toNat / 2 ^ 12

section Pages

variable {B : Layout} {f : BitVec 64 → BitVec 64} {m : S390Machine} {n : ℕ}
  {root start len va v : BitVec 64}

/-- A page has a byte of the range if it begins before its end and ends after its start. -/
theorem hasByte_iff : HasByte start len v ↔
    0 < len.toNat ∧ start.toNat / 2 ^ 12 ≤ v.toNat / 2 ^ 12 ∧
      v.toNat / 2 ^ 12 * 2 ^ 12 < start.toNat + len.toNat := by
  constructor
  · rintro ⟨a, hpage, hle, hlt⟩
    rw [← BitVec.toNat_inj, toNat_page, toNat_page] at hpage
    omega
  · rintro ⟨hpos, hle, hlt⟩
    have hv := v.isLt
    have hpage := toNat_page v
    rcases Nat.le_total start.toNat (page v).toNat with h | h
    · refine ⟨page v, ?_, h, by omega⟩
      rw [← BitVec.toNat_inj, toNat_page, toNat_page]
      omega
    · refine ⟨start, ?_, le_rfl, by omega⟩
      rw [← BitVec.toNat_inj, toNat_page, toNat_page]
      omega

/-! ## One page -/

/-- The entry that the hardware reads is that of the view. -/
theorem S390Tables.hwPte_eq (h : S390Tables B m root) (v : BitVec 64) :
    hwPte m.mem root v = B.pteVal m.mem root v := by
  rw [Layout.pteVal, h.entry_eq (h.hwTable_eq le_rfl)]
  rfl

/-- The entries of the addresses in one page are the same. -/
theorem Layout.pteVal_congr (mem : BitVec 64 → BitVec 64) (hpage : page va = page v) :
    B.pteVal mem root va = B.pteVal mem root v := by
  unfold pteVal
  rw [radix.entry_eq_of_agree ((agree_five_iff va v).mpr hpage)]

/-- What was served in the end was served before. -/
theorem served_of_changePage (h : (changePage f root va m).denied = false) : m.denied = false :=
  served_of_getPte (served_of_getPte (served_of_setPte h))

/-- `protect_page` and `unprotect_page` change the entry of their page only. -/
theorem S390Tables.changePage_spec (h : S390Tables B m root)
    (hden : (changePage f root va m).denied = false) :
    S390Tables B (changePage f root va m) root ∧
      ∀ v, B.pteVal (changePage f root va m).mem root v =
        if page va = page v then f (B.pteVal m.mem root v) else B.pteVal m.mem root v := by
  unfold changePage at hden ⊢
  obtain ⟨t, m', heq, h', ht, hpte⟩ :=
    h.getPte_spec (served_of_getPte (served_of_setPte hden))
  rw [heq] at hden ⊢
  dsimp only at hden ⊢
  obtain ⟨htables, hset⟩ := h'.setPte_spec hden
  refine ⟨htables, fun v => ?_⟩
  have hval : m'.mem (offset pte t va) = B.pteVal m.mem root va := by
    rw [← hpte, Layout.pteVal, h'.entry_of_table ht]
    rfl
  rw [hset, hpte, hval]
  refine if_ctx_congr Iff.rfl (fun hpage => ?_) fun _ => rfl
  rw [Layout.pteVal_congr m.mem hpage]

/-! ## The loop -/

/-- Changes of the first `n` pages from `start` on. -/
def changePages (f : BitVec 64 → BitVec 64) (root start : BitVec 64) (n : ℕ) (m : S390Machine) :
    S390Machine :=
  (List.range n).foldl (fun m k => changePage f root (nthPage start k) m) m

theorem changePages_succ : changePages f root start (n + 1) m =
    changePage f root (nthPage start n) (changePages f root start n m) := by
  unfold changePages
  rw [List.range_succ, List.foldl_append]
  rfl

theorem changePages_succ' : changePages f root start (n + 1) m =
    changePages f root (start + 1#64 <<< 12) n (changePage f root start m) := by
  unfold changePages
  rw [List.range_succ_eq_map, List.foldl_cons, List.foldl_map, nthPage_zero]
  simp only [Nat.succ_eq_add_one, nthPage_succ]

/-- The loop changes a page for each 4096 of the length. -/
theorem pageLoop_eq {fuel : ℕ} (hn : n * 2 ^ 12 < 2 ^ 64) (hfuel : n < fuel) :
    pageLoop (changePage f root) fuel start (BitVec.ofNat 64 (n * 2 ^ 12)) m =
      some (changePages f root start n m) := by
  obtain ⟨fuel, rfl⟩ := Nat.exists_eq_succ_of_ne_zero (Nat.ne_zero_of_lt hfuel)
  induction n generalizing start m fuel with
  | zero =>
    rw [pageLoop, Nat.zero_mul]
    exact if_pos rfl
  | succ n ih =>
    obtain ⟨fuel, rfl⟩ := Nat.exists_eq_succ_of_ne_zero (show fuel ≠ 0 by omega)
    have hne : BitVec.ofNat 64 ((n + 1) * 2 ^ 12) ≠ 0 := by
      rw [Ne, ← BitVec.toNat_inj, BitVec.toNat_ofNat, Nat.mod_eq_of_lt hn]
      exact (Nat.mul_pos n.succ_pos (Nat.two_pow_pos 12)).ne'
    have hrest : BitVec.ofNat 64 ((n + 1) * 2 ^ 12) - 1#64 <<< 12 =
        BitVec.ofNat 64 (n * 2 ^ 12) := by
      rw [Nat.succ_mul, BitVec.ofNat_add]
      exact BitVec.add_sub_cancel _ _
    have hn' : n * 2 ^ 12 < 2 ^ 64 := (Nat.mul_le_mul_right _ n.le_succ).trans_lt hn
    rw [pageLoop, if_neg hne, hrest, ih hn' fuel (by omega), changePages_succ']

/-- The entries after the changes. -/
theorem S390Tables.changePages_spec (h : S390Tables B m root) (hstart : page start = start)
    (hfits : start.toNat + n * 2 ^ 12 ≤ 2 ^ 64)
    (hden : (changePages f root start n m).denied = false) :
    S390Tables B (changePages f root start n m) root ∧
      ∀ v, B.pteVal (changePages f root start n m).mem root v =
        if start.toNat ≤ v.toNat ∧ v.toNat < start.toNat + n * 2 ^ 12
        then f (B.pteVal m.mem root v) else B.pteVal m.mem root v := by
  induction n with
  | zero =>
    refine ⟨h, fun v => ?_⟩
    rw [if_neg (by omega)]
    rfl
  | succ n ih =>
    rw [changePages_succ] at hden ⊢
    have hfits' : start.toNat + n * 2 ^ 12 ≤ 2 ^ 64 :=
      (Nat.add_le_add_left (Nat.mul_le_mul_right _ n.le_succ) _).trans hfits
    obtain ⟨h₁, hpte₁⟩ := ih hfits' (served_of_changePage hden)
    obtain ⟨h₂, hpte₂⟩ := h₁.changePage_spec hden
    refine ⟨h₂, fun v => ?_⟩
    have hpage := page_nthPage_eq_iff hstart (show start.toNat + n * 2 ^ 12 < 2 ^ 64 by omega) v
    rw [hpte₂, hpte₁]
    by_cases hlast : page (nthPage start n) = page v
    · have hrange := hpage.mp hlast
      rw [if_pos hlast, if_neg (by omega), if_pos (by omega)]
    · rw [hpage] at hlast
      rw [if_neg (mt hpage.mp hlast)]
      exact if_congr (by omega) rfl rfl

/-! ## The range -/

theorem len_pages (len : BitVec 64) :
    len &&& pageMask = BitVec.ofNat 64 (len.toNat / 2 ^ 12 * 2 ^ 12) := by
  rw [← BitVec.toNat_inj, BitVec.toNat_ofNat, Nat.mod_eq_of_lt
    ((Nat.div_mul_le_self _ _).trans_lt len.isLt)]
  exact toNat_page len

/-- The pages that are changed have a byte of the range and are not missed. -/
theorem visited_iff : (page start).toNat ≤ v.toNat ∧
      v.toNat < (page start).toNat + len.toNat / 2 ^ 12 * 2 ^ 12 ↔
    HasByte start len v ∧ ¬Missed start len v := by
  unfold Missed
  rw [hasByte_iff, toNat_page]
  omega

/-- What the loop makes of a range. -/
theorem range_eq {fuel : ℕ} (hfuel : len.toNat / 2 ^ 12 < fuel) :
    pageLoop (changePage f root) fuel (start &&& pageMask) (len &&& pageMask) m =
      some (changePages f root (page start) (len.toNat / 2 ^ 12) m) := by
  rw [len_pages len]
  exact pageLoop_eq ((Nat.div_mul_le_self _ _).trans_lt len.isLt) hfuel

theorem protectRange_eq {fuel : ℕ} {prot : BitVec 64} (hfuel : len.toNat / 2 ^ 12 < fuel) :
    protectRange fuel root start len prot m =
      some (changePages (· ||| prot) root (page start) (len.toNat / 2 ^ 12) m) :=
  range_eq (f := (· ||| prot)) hfuel

/-- The entries after a range is changed. -/
theorem S390Tables.range_spec (h : S390Tables B m root) (hwrap : start.toNat + len.toNat ≤ 2 ^ 64)
    (hden : (changePages f root (page start) (len.toNat / 2 ^ 12) m).denied = false) :
    (∀ v, HasByte start len v → ¬Missed start len v →
      hwPte (changePages f root (page start) (len.toNat / 2 ^ 12) m).mem root v =
        f (hwPte m.mem root v)) ∧
    ∀ v, ¬HasByte start len v ∨ Missed start len v →
      hwPte (changePages f root (page start) (len.toNat / 2 ^ 12) m).mem root v =
        hwPte m.mem root v := by
  have hpage : page (page start) = page start := by
    rw [page_eq_self_iff, toNat_page]
    omega
  have hfits : (page start).toNat + len.toNat / 2 ^ 12 * 2 ^ 12 ≤ 2 ^ 64 := by
    rw [toNat_page]
    omega
  obtain ⟨h', hpte⟩ := h.changePages_spec hpage hfits hden
  constructor
  · intro v hbyte hmiss
    rw [h'.hwPte_eq, hpte, if_pos (visited_iff.mpr ⟨hbyte, hmiss⟩), h.hwPte_eq]
  · intro v hv
    rw [h'.hwPte_eq, hpte, if_neg, h.hwPte_eq]
    intro hvisited
    obtain ⟨hbyte, hmiss⟩ := visited_iff.mp hvisited
    exact hv.elim (fun hno => hno hbyte) hmiss

/-- The loop changes the entries of the pages with a byte of the range, and no others, if and only
if the change would leave those of the missed pages as they are. -/
theorem range_iff {fuel : ℕ} (h : S390Tables B m root)
    (hwrap : start.toNat + len.toNat ≤ 2 ^ 64) (hfuel : len.toNat / 2 ^ 12 < fuel)
    (hserved : ∀ m', pageLoop (changePage f root) fuel (start &&& pageMask) (len &&& pageMask) m =
      some m' → m'.denied = false) :
    (∃ m', pageLoop (changePage f root) fuel (start &&& pageMask) (len &&& pageMask) m = some m' ∧
      RangeChanged f root start len m m') ↔
      ∀ v, Missed start len v → f (hwPte m.mem root v) = hwPte m.mem root v := by
  obtain ⟨hvisited, hrest⟩ := h.range_spec hwrap (hserved _ (range_eq hfuel))
  constructor
  · rintro ⟨m', heq, hchanged⟩ v hmiss
    cases Option.some.inj (heq.symm.trans (range_eq hfuel))
    rw [← hchanged.changed v hmiss.1, hrest v (Or.inr hmiss)]
  · intro hkeep
    refine ⟨_, range_eq hfuel, fun v hbyte => ?_, fun v hbyte => hrest v (Or.inl hbyte)⟩
    by_cases hmiss : Missed start len v
    · rw [hrest v (Or.inr hmiss), hkeep v hmiss]
    · exact hvisited v hbyte hmiss

/-- For every range that does not wrap and all tables of this code : `protect_range` sets the bits
in the entries of the pages with a byte of the range and changes no other entry, if and only if the
missed pages have the bits set already. `unprotect_range` clears them so if and only if the missed
pages have none of them set. -/
theorem protectRange_iff {fuel : ℕ} {prot : BitVec 64} (h : S390Tables B m root)
    (hwrap : start.toNat + len.toNat ≤ 2 ^ 64) (hfuel : len.toNat / 2 ^ 12 < fuel)
    (hserved : ∀ m', protectRange fuel root start len prot m = some m' → m'.denied = false)
    (hserved' : ∀ m', unprotectRange fuel root start len prot m = some m' → m'.denied = false) :
    ((∃ m', protectRange fuel root start len prot m = some m' ∧
        RangeChanged (· ||| prot) root start len m m') ↔
      ∀ v, Missed start len v → hwPte m.mem root v ||| prot = hwPte m.mem root v) ∧
    ((∃ m', unprotectRange fuel root start len prot m = some m' ∧
        RangeChanged (· &&& ~~~prot) root start len m m') ↔
      ∀ v, Missed start len v → hwPte m.mem root v &&& ~~~prot = hwPte m.mem root v) :=
  ⟨range_iff (f := (· ||| prot)) h hwrap hfuel hserved,
    range_iff (f := (· &&& ~~~prot)) h hwrap hfuel hserved'⟩

end Pages

/-! ## Where the tables come from -/

/-- `setup_mmu` makes such tables, and the calls of `install_page` keep them. -/
theorem setupMmu_tables {m m₁ : S390Machine} {root physEnd : BitVec 64} {fuel : ℕ} (h : Supply m)
    (hpos : 0 < physEnd) (hfuel : 2 ^ 52 < fuel)
    (hsetup : setupMmu fuel physEnd m = some (root, m₁)) (calls : List Install)
    (hcalls : ∀ c ∈ calls, page c.phys = c.phys) (hden : (installs root calls m₁).denied = false) :
    S390Tables h.layout (installs root calls m₁) root := by
  have hle : physEnd ≤ -(1#64 <<< 12) := by
    by_contra hlt
    rw [setupMmu_never (BitVec.not_le.mp hlt)] at hsetup
    cases hsetup
  rw [setupMmu_eq hpos hle hfuel] at hsetup
  obtain ⟨rfl, rfl⟩ := Prod.mk.inj (Option.some.inj hsetup)
  rw [← installs_append] at hden ⊢
  have halloc : allocOne pgd m = ((allocOne pgd m).1, (allocOne pgd m).2) := Prod.mk.eta.symm
  obtain ⟨hroot, -⟩ := allocRoot_spec h halloc (served_of_installs hden)
  refine (hroot.installs_spec (fun c hc => ?_) hden).1
  exact (List.mem_append.mp hc).elim (aligned_setupCalls physEnd c) (hcalls c)

/-! ## Samples -/

section Sample

variable {f : BitVec 64 → BitVec 64} {m : S390Machine} {root start va : BitVec 64} {a b : ℕ}

/-- A change of a page takes the blocks of two calls of `get_pte` at most. -/
theorem Stocked.changePage (h : Stocked m (a + 6) (b + 2)) :
    Stocked (changePage f root va m) a b := by
  have hpte : Stocked (S390.getPte root va m).2 (a + 3) (b + 1) := h.getPte
  exact hpte.setPte

theorem Stocked.changePages {n : ℕ} (h : Stocked m (a + 6 * n) (b + 2 * n)) :
    Stocked (changePages f root start n m) a b := by
  induction n generalizing a b with
  | zero => exact h
  | succ n ih =>
    rw [changePages_succ]
    exact (ih (h.mono (by omega) (by omega))).changePage

/-- Tables that map the two pages from `0x1000` on, with blocks for more. -/
theorem exists_twoPages : ∃ (B : Layout) (m : S390Machine) (root : BitVec 64),
    S390Tables B m root ∧ Stocked m 6 2 ∧
      hwPte m.mem root 0x1000 = 0x1000 ∧ hwPte m.mem root 0x2000 = 0x2000 := by
  obtain ⟨B, m, root, h₀, hroot⟩ : ∃ (B : Layout) (m : S390Machine) (root : BitVec 64),
      S390Tables B m root ∧ Stocked m (9 + 3) (3 + 1) := by
    have hstock : Stocked (allocOne pgd sampleMachine).2 (9 + 3) (3 + 1) :=
      Stocked.allocUpper rfl (stocked_sampleMachine.mono (by norm_num) (by norm_num))
    exact ⟨_, _, _, (allocRoot_spec supply_sampleMachine Prod.mk.eta.symm hstock.served).1, hstock⟩
  have hone : Stocked (setPte root 0x1000 0x1000 m).2 (6 + 3) (2 + 1) := hroot.setPte
  have htwo : Stocked (setPte root 0x2000 0x2000 (setPte root 0x1000 0x1000 m).2).2 6 2 :=
    hone.setPte
  obtain ⟨h₁, hpte₁⟩ := h₀.setPte_spec hone.served
  obtain ⟨h₂, hpte₂⟩ := h₁.setPte_spec htwo.served
  refine ⟨_, _, _, h₂, htwo, ?_, ?_⟩
  · rw [h₂.hwPte_eq, hpte₂, if_neg (by decide), hpte₁, if_pos rfl]
  · rw [h₂.hwPte_eq, hpte₂, if_pos rfl]

/-- A range of one whole page. -/
theorem protectRange_wholePage : ∃ (m : S390Machine) (root : BitVec 64) (m₁ m₂ : S390Machine),
    protectRange 2 root 0x1000 0x1000 0x200 m = some m₁ ∧
      unprotectRange 2 root 0x1000 0x1000 0x200 m = some m₂ ∧
      hwPte m₁.mem root 0x1000 = 0x1200 ∧ hwPte m₁.mem root 0x2000 = 0x2000 ∧
      hwPte m₂.mem root 0x1000 = 0x1000 := by
  obtain ⟨B, m, root, h, hstock, hone, htwo⟩ := exists_twoPages
  have hserved : ∀ f m', pageLoop (changePage f root) 2 (0x1000 &&& pageMask)
      (0x1000 &&& pageMask) m = some m' → m'.denied = false := by
    intro f m' heq
    cases Option.some.inj (heq.symm.trans (range_eq (by decide)))
    exact (Stocked.changePages (a := 0) (b := 0) hstock).served
  have hnone : ∀ v, ¬Missed 0x1000 0x1000 v := by
    rintro v ⟨hbyte, hle⟩
    rw [hasByte_iff] at hbyte
    simp at hbyte hle
    omega
  have hset : ∀ m', protectRange 2 root 0x1000 0x1000 0x200 m = some m' → m'.denied = false :=
    hserved _
  have hclear : ∀ m', unprotectRange 2 root 0x1000 0x1000 0x200 m = some m' → m'.denied = false :=
    hserved _
  have hrange := protectRange_iff h (by decide) (by decide) hset hclear
  obtain ⟨m₁, heq₁, hset⟩ := hrange.1.mpr fun v hv => absurd hv (hnone v)
  obtain ⟨m₂, heq₂, hclear⟩ := hrange.2.mpr fun v hv => absurd hv (hnone v)
  have hbyte : HasByte 0x1000 0x1000 0x1000 := ⟨0x1000, rfl, le_rfl, by decide⟩
  have hother : ¬HasByte 0x1000 0x1000 0x2000 := fun hbyte => by
    rw [hasByte_iff] at hbyte
    exact absurd hbyte (by decide)
  refine ⟨m, root, m₁, m₂, heq₁, heq₂, ?_, ?_, ?_⟩
  · rw [hset.changed _ hbyte, hone]
    rfl
  · rw [hset.unchanged _ hother, htwo]
  · rw [hclear.changed _ hbyte, hone]
    rfl

/-- The range `[0x1800, 0x2800)` has bytes in two pages, and the second is not protected. -/
theorem protectRange_straddling :
    ∃ (B : Layout) (m : S390Machine) (root : BitVec 64) (m' : S390Machine),
    S390Tables B m root ∧ protectRange 2 root 0x1800 0x1000 0x200 m = some m' ∧
      m'.denied = false ∧ HasByte 0x1800 0x1000 0x2000 ∧ hwPte m.mem root 0x2000 = 0x2000 ∧
      hwPte m'.mem root 0x2000 = 0x2000 ∧ ¬RangeChanged (· ||| 0x200) root 0x1800 0x1000 m m' := by
  obtain ⟨B, m, root, h, hstock, -, htwo⟩ := exists_twoPages
  have hserved : (changePages (· ||| 0x200) root (page 0x1800)
      ((0x1000 : BitVec 64).toNat / 2 ^ 12) m).denied = false :=
    (Stocked.changePages (a := 0) (b := 0) hstock).served
  have hbyte : HasByte 0x1800 0x1000 0x2000 := ⟨0x2000, rfl, by decide, by decide⟩
  have hkeep := (h.range_spec (by decide) hserved).2 0x2000 (Or.inr ⟨hbyte, by decide⟩)
  refine ⟨B, m, root, _, h, protectRange_eq (by decide), hserved, hbyte, htwo, hkeep.trans htwo,
    fun hchanged => ?_⟩
  have hset := hchanged.changed _ hbyte
  rw [htwo] at hset
  exact absurd (hset.symm.trans (hkeep.trans htwo)) (by decide)

end Sample

end S390

end AcrnUt
