import AcrnUt.PtReach
import AcrnUt.X86Vm
import Mathlib.Data.List.GetD

/-!
# The nested page table of the SVM tests

`setup_svm` of `x86/svm.c` builds a four-level table bottom-up from pages of `alloc_page` :
2048 tables of leaves that count the frames up, four directories, and two upper tables of
which it fills four entries and one. `npt_get_pde` and `npt_get_pte` compute the address of
an entry without the tables above.

The pages come in the order of the free list, so the table number `k` is its page `k + 2`
(`nptPage`), behind the two that go to `hsave` and `scratch_page`. What `setup_svm` writes is
a list of words that the free list fixes (`nptSlots`, `setupSvm_spec`), and everything else
keeps what it held : the pages are not cleared, unlike those that `install_pte` and
`install_ept_entry` link. So every address below 4 GiB is mapped to itself
(`mapsToItself`), but an unused entry of an upper table maps what the former contents of the
page say (`walk_eq_none_iff`).
-/

set_option linter.unusedSectionVars false

namespace AcrnUt

/-! ## Words that are written in turn -/

section Writes

variable {α β : Type*} [DecidableEq α]

/-- Memory after the words of a list are written in turn. -/
def writeAll (slots : List (α × β)) (mem : α → β) : α → β :=
  slots.foldl (fun mem s => Function.update mem s.1 s.2) mem

variable {slots : List (α × β)} {mem : α → β} {a : α} {b : β}

theorem writeAll_append (slots' : List (α × β)) :
    writeAll (slots ++ slots') mem = writeAll slots' (writeAll slots mem) :=
  List.foldl_append ..

/-- A word that is not written stays. -/
theorem writeAll_of_ne (h : ∀ s ∈ slots, s.1 ≠ a) : writeAll slots mem a = mem a := by
  induction slots generalizing mem with
  | nil => rfl
  | cons s slots ih =>
    refine (ih fun t ht => h t (List.mem_cons_of_mem _ ht)).trans ?_
    exact Function.update_of_ne (h s List.mem_cons_self).symm _ _

/-- A word that is written, always with the same value, holds it. -/
theorem writeAll_of_mem (hmem : (a, b) ∈ slots) (h : ∀ s ∈ slots, s.1 = a → s.2 = b) :
    writeAll slots mem a = b := by
  induction slots generalizing mem with
  | nil => exact absurd hmem List.not_mem_nil
  | cons s slots ih =>
    have htail : ∀ t ∈ slots, t.1 = a → t.2 = b := fun t ht => h t (List.mem_cons_of_mem _ ht)
    by_cases hlater : (a, b) ∈ slots
    · exact ih hlater htail
    · obtain rfl : s = (a, b) := ((List.mem_cons.mp hmem).resolve_right hlater).symm
      have hne : ∀ t ∈ slots, t.1 ≠ a := fun t ht hta =>
        hlater ((Prod.ext hta (htail t ht hta) : t = (a, b)) ▸ ht)
      exact (writeAll_of_ne hne).trans (Function.update_self ..)

end Writes

/-! ## The source -/

/-- The variables of `x86/svm.c` that `setup_svm` sets. -/
structure SvmVars where
  pml4e : BitVec 64
  pdpe : BitVec 64
  pde : ℕ → BitVec 64
  pte : ℕ → BitVec 64
  scratchPage : BitVec 64

/-- The store of `value j` into `page[j]`, for `n` values of `j` from the given one on. -/
def fillPage (page : BitVec 64) (value : ℕ → BitVec 64) : ℕ → ℕ → Machine 64 → Machine 64
  | 0, _, m => m
  | n + 1, j, m =>
    fillPage page value n (j + 1) (m.store (entryAddr page (BitVec.ofNat 64 j)) (value j))

/-- The inner loop of the PTE level, with the running `address`. -/
def setupSvm.ptePage (page : BitVec 64) :
    ℕ → ℕ → BitVec 64 → Machine 64 → BitVec 64 × Machine 64
  | 0, _, address, m => (address, m)
  | n + 1, j, address, m =>
    setupSvm.ptePage page n (j + 1) (address + 4096)
      (m.store (entryAddr page (BitVec.ofNat 64 j)) (address ||| 0x067))

/-- The loop of the PTE level. -/
def setupSvm.pteLevel :
    ℕ → ℕ → BitVec 64 → (ℕ → BitVec 64) → Machine 64 → (ℕ → BitVec 64) × Machine 64
  | 0, _, _, pte, m => (pte, m)
  | n + 1, i, address, pte, m =>
    let (page, m) := allocPage m
    let (address, m) := setupSvm.ptePage page 512 0 address m
    setupSvm.pteLevel n (i + 1) address (Function.update pte i page) m

/-- The loop of the PDE level. -/
def setupSvm.pdeLevel (pte : ℕ → BitVec 64) :
    ℕ → ℕ → (ℕ → BitVec 64) → Machine 64 → (ℕ → BitVec 64) × Machine 64
  | 0, _, pde, m => (pde, m)
  | n + 1, i, pde, m =>
    let (page, m) := allocPage m
    let m := fillPage page (fun j => pte (i * 512 + j) ||| 0x027) 512 0 m
    setupSvm.pdeLevel pte n (i + 1) (Function.update pde i page) m

/-- The nested page table of `setup_svm`, for arrays `pte` and `pde` of these lengths. -/
def setupSvm.tables (pteLen pdeLen : ℕ) (v : SvmVars) (m : Machine 64) : SvmVars × Machine 64 :=
  let (pte, m) := setupSvm.pteLevel pteLen 0 0 v.pte m
  let (pde, m) := setupSvm.pdeLevel pte pdeLen 0 v.pde m
  let (pdpe, m) := allocPage m
  let m := fillPage pdpe (fun i => pde i ||| 0x27) 4 0 m
  let (pml4e, m) := allocPage m
  let m := m.store (entryAddr pml4e 0) (pdpe ||| 0x27)
  ({ v with pml4e, pdpe, pde, pte }, m)

/-- `setup_svm`, what it does to memory. `nptSupported` is the answer of `npt_supported`. -/
def setupSvm (nptSupported : Bool) (v : SvmVars) (m : Machine 64) : SvmVars × Machine 64 :=
  -- `hsave` only goes to a register.
  let (_, m) := allocPage m
  let (scratchPage, m) := allocPage m
  let v := { v with scratchPage }
  if ¬nptSupported then (v, m) else setupSvm.tables 2048 4 v m

/-- `npt_get_pde`. -/
def nptGetPde (v : SvmVars) (address : BitVec 64) : BitVec 64 :=
  let address := address >>> 21
  let i1 := (address >>> 9) &&& 0x3
  let i2 := address &&& 0x1ff
  entryAddr (v.pde i1.toNat) i2

/-- `npt_get_pte`. -/
def nptGetPte (v : SvmVars) (address : BitVec 64) : BitVec 64 :=
  let address := address >>> 12
  let i1 := (address >>> 9) &&& 0x7ff
  let i2 := address &&& 0x1ff
  entryAddr (v.pte i1.toNat) i2

/-! ## The tables of a free list -/

/-- The page of table `k` : behind those for `hsave` and `scratch_page`. The tables are
numbered as they are built : 2048 of leaves, four directories, `pdpe` and `pml4e`. -/
def nptPage (l : List (BitVec 64)) (k : ℕ) : BitVec 64 :=
  l.getD (k + 2) 0

/-- How many entries of table `k` are filled. -/
def nptCount (k : ℕ) : ℕ :=
  if k < 2052 then 512 else if k = 2052 then 4 else 1

/-- Entry `j` of table `k`. -/
def nptValue (l : List (BitVec 64)) (k j : ℕ) : BitVec 64 :=
  if k < 2048 then BitVec.ofNat 64 ((k * 512 + j) * 4096) ||| 0x67
  else if k < 2052 then nptPage l ((k - 2048) * 512 + j) ||| 0x27
  else if k = 2052 then nptPage l (2048 + j) ||| 0x27
  else nptPage l 2052 ||| 0x27

/-- The words of table `k`. -/
def nptTable (l : List (BitVec 64)) (k : ℕ) : List (BitVec 64 × BitVec 64) :=
  (List.range (nptCount k)).map fun j =>
    (entryAddr (nptPage l k) (BitVec.ofNat 64 j), nptValue l k j)

/-- The words of the first `n` tables. -/
def nptSlots (l : List (BitVec 64)) (n : ℕ) : List (BitVec 64 × BitVec 64) :=
  (List.range n).flatMap (nptTable l)

/-- The memory with the tables in the pages of the free list. -/
def nptMemory (l : List (BitVec 64)) (mem : BitVec 64 → BitVec 64) : BitVec 64 → BitVec 64 :=
  writeAll (nptSlots l 2054) mem

theorem nptValue_pte (l : List (BitVec 64)) {k : ℕ} (hk : k < 2048) (j : ℕ) :
    nptValue l k j = BitVec.ofNat 64 ((k * 512 + j) * 4096) ||| 0x67 :=
  if_pos hk

theorem nptValue_pde (l : List (BitVec 64)) {k : ℕ} (hk : k < 4) (j : ℕ) :
    nptValue l (2048 + k) j = nptPage l (k * 512 + j) ||| 0x27 := by
  rw [nptValue, if_neg (by omega), if_pos (by omega), Nat.add_sub_cancel_left]

theorem nptValue_pdpe (l : List (BitVec 64)) (j : ℕ) :
    nptValue l 2052 j = nptPage l (2048 + j) ||| 0x27 := by
  rw [nptValue, if_neg (by norm_num), if_neg (by norm_num), if_pos rfl]

theorem nptValue_pml4e (l : List (BitVec 64)) (j : ℕ) :
    nptValue l 2053 j = nptPage l 2052 ||| 0x27 := by
  rw [nptValue, if_neg (by norm_num), if_neg (by norm_num), if_neg (by norm_num)]

theorem nptCount_of_lt {k : ℕ} (hk : k < 2052) : nptCount k = 512 :=
  if_pos hk

theorem nptCount_pdpe : nptCount 2052 = 4 := by
  rw [nptCount, if_neg (by norm_num), if_pos rfl]

theorem nptCount_pml4e : nptCount 2053 = 1 := by
  rw [nptCount, if_neg (by norm_num), if_neg (by norm_num)]

theorem nptSlots_succ (l : List (BitVec 64)) (n : ℕ) :
    nptSlots l (n + 1) = nptSlots l n ++ nptTable l n := by
  simp [nptSlots, List.range_succ]

theorem nptCount_le (k : ℕ) : nptCount k ≤ 512 := by
  unfold nptCount
  split_ifs <;> norm_num

theorem mem_nptSlots {l : List (BitVec 64)} {n : ℕ} {s : BitVec 64 × BitVec 64} :
    s ∈ nptSlots l n ↔ ∃ k < n, ∃ j < nptCount k,
      (entryAddr (nptPage l k) (BitVec.ofNat 64 j), nptValue l k j) = s := by
  simp [nptSlots, nptTable]

/-! ## What `setup_svm` writes -/

/-- Filling a page writes its words in turn. -/
theorem fillPage_eq (page : BitVec 64) (value : ℕ → BitVec 64) :
    ∀ (n j : ℕ) (m : Machine 64), fillPage page value n j m =
      { m with mem := writeAll ((List.range' j n).map fun j =>
          (entryAddr page (BitVec.ofNat 64 j), value j)) m.mem }
  | 0, _, _ => rfl
  | n + 1, j, m => by
    rw [fillPage, fillPage_eq page value n, List.range'_succ]
    rfl

/-- The running address is the one of the frame with the number of the entry. -/
theorem ptePage_eq (page : BitVec 64) (b : ℕ) :
    ∀ (n j : ℕ) (m : Machine 64),
      setupSvm.ptePage page n j (BitVec.ofNat 64 ((b + j) * 4096)) m =
        (BitVec.ofNat 64 ((b + j + n) * 4096),
          fillPage page (fun j => BitVec.ofNat 64 ((b + j) * 4096) ||| 0x67) n j m)
  | 0, _, _ => rfl
  | n + 1, j, m => by
    have hnext : BitVec.ofNat 64 ((b + j) * 4096) + 4096
        = BitVec.ofNat 64 ((b + (j + 1)) * 4096) := by
      rw [← add_assoc, Nat.succ_mul, BitVec.ofNat_add]
      rfl
    rw [setupSvm.ptePage, hnext, ptePage_eq page b n (j + 1), fillPage]
    rw [show b + (j + 1) + n = b + j + (n + 1) by omega]

/-- The inner loop on a whole page of `c` entries. -/
theorem ptePage_page (page : BitVec 64) (i c : ℕ) (m : Machine 64) :
    setupSvm.ptePage page c 0 (BitVec.ofNat 64 (i * c * 4096)) m =
      (BitVec.ofNat 64 ((i + 1) * c * 4096),
        fillPage page (fun j => BitVec.ofNat 64 ((i * c + j) * 4096) ||| 0x67) c 0 m) := by
  have h := ptePage_eq page (i * c) c 0 m
  rwa [Nat.add_zero, ← Nat.succ_mul] at h

/-- An array filled from the entry `i` on. -/
theorem ite_update_succ {α : Type} (f g : ℕ → α) (i n t : ℕ) :
    (if i + 1 ≤ t ∧ t < i + 1 + n then g t else Function.update f i (g i) t)
      = if i ≤ t ∧ t < i + (n + 1) then g t else f t := by
  rcases eq_or_ne t i with rfl | hti
  · rw [if_neg (by omega), if_pos (by omega), Function.update_self]
  · rw [Function.update_of_ne hti]
    exact if_congr (by omega) rfl rfl

/-- The free list of `setup_svm` : enough pages, all of them frames. -/
structure NptSupply (m : Machine 64) (l : List (BitVec 64)) : Prop where
  list : m.FreeList l
  length : 2056 ≤ l.length
  frame : ∀ p ∈ l, IsFrame p

/-- The first `k` tables are built. -/
structure Built (l : List (BitVec 64)) (m₀ m : Machine 64) (k : ℕ) : Prop where
  list : m.FreeList (l.drop (k + 2))
  mem : m.mem = writeAll (nptSlots l k) m₀.mem
  denied : m.denied = m₀.denied

variable {l : List (BitVec 64)} {m₀ m : Machine 64} {k : ℕ}

namespace NptSupply

variable (hs : NptSupply m₀ l)

include hs

theorem nptPage_mem (hk : k < 2054) : nptPage l k ∈ l := by
  have hlen := hs.length
  rw [nptPage, List.getD_eq_getElem _ _ (by omega)]
  exact List.getElem_mem _

theorem isFrame (hk : k < 2054) : IsFrame (nptPage l k) :=
  hs.frame _ (hs.nptPage_mem hk)

theorem pageAligned (hk : k < 2054) : PageAligned (nptPage l k) :=
  (hs.isFrame hk).pageAligned pageShift_64

theorem drop_eq {i : ℕ} (hi : i < 2056) : l.drop i = l.getD i 0 :: l.drop (i + 1) := by
  have hlen := hs.length
  rw [List.getD_eq_getElem _ _ (by omega)]
  exact List.drop_eq_getElem_cons _

/-- Different tables have different pages. -/
theorem nptPage_inj {k' : ℕ} (hk : k < 2054) (hk' : k' < 2054)
    (h : nptPage l k = nptPage l k') : k = k' := by
  have hlen := hs.length
  rw [nptPage, nptPage, List.getD_eq_getElem _ _ (by omega),
    List.getD_eq_getElem _ _ (by omega)] at h
  have := (List.Nodup.getElem_inj_iff (Chain.nodup hs.list)).mp h
  omega

/-- An entry of a table has one table and one number. -/
theorem entryAddr_inj {k' j j' : ℕ} (hk : k < 2054) (hk' : k' < 2054) (hj : j < 512)
    (hj' : j' < 512) (h : entryAddr (nptPage l k) (BitVec.ofNat 64 j)
      = entryAddr (nptPage l k') (BitVec.ofNat 64 j')) : k = k' ∧ j = j' := by
  have hpage := congrArg pageOf h
  rw [(x86Format 64).pageOf_entryAddr_ofNat (hs.pageAligned hk) hj,
    (x86Format 64).pageOf_entryAddr_ofNat (hs.pageAligned hk') hj'] at hpage
  obtain rfl := hs.nptPage_inj hk hk' hpage
  exact ⟨rfl, (x86Format 64).entryAddr_inj hj hj' h⟩

/-- One more table : the page is the next of the list, and filling it leaves the rest of
the list alone. -/
theorem step (hb : Built l m₀ m k) (hk : k < 2054) :
    ∃ m₁, allocPage m = (nptPage l k, m₁) ∧
      ∀ value, (∀ j < nptCount k, value j = nptValue l k j) →
        Built l m₀ (fillPage (nptPage l k) value (nptCount k) 0 m₁) (k + 1) := by
  have hlist := hb.list
  rw [hs.drop_eq (show k + 2 < 2056 by omega)] at hlist
  change m.FreeList (nptPage l k :: l.drop (k + 3)) at hlist
  obtain ⟨halloc, hrest⟩ := allocPage_cons hlist
  refine ⟨_, halloc, fun value hvalue => ?_⟩
  rw [fillPage_eq]
  have htable : (List.range' 0 (nptCount k)).map (fun j =>
      (entryAddr (nptPage l k) (BitVec.ofNat 64 j), value j)) = nptTable l k := by
    rw [← List.range_eq_range']
    exact List.map_congr_left fun j hj => by rw [hvalue j (List.mem_range.mp hj)]
  rw [htable]
  refine ⟨hrest.congr fun p hp => writeAll_of_ne fun s hsmem heq => ?_, ?_, hb.denied⟩
  · obtain ⟨j, hj, rfl⟩ := List.mem_map.mp hsmem
    have hj' := (List.mem_range.mp hj).trans_le (nptCount_le k)
    have haligned := (hs.frame p (List.mem_of_mem_drop hp)).pageAligned pageShift_64
    have hpage := congrArg pageOf heq
    rw [(x86Format 64).pageOf_entryAddr_ofNat (hs.pageAligned hk) hj',
      pageOf_eq_self_iff.mpr haligned] at hpage
    exact (List.nodup_cons.mp (Chain.nodup hlist)).1 (hpage ▸ hp)
  · rw [nptSlots_succ, writeAll_append, ← hb.mem]

theorem pteLevel_spec :
    ∀ (n i : ℕ) (pte : ℕ → BitVec 64) (m : Machine 64), i + n ≤ 2048 → Built l m₀ m i →
      ∃ pte' m', setupSvm.pteLevel n i (BitVec.ofNat 64 (i * 512 * 4096)) pte m = (pte', m') ∧
        Built l m₀ m' (i + n) ∧
        ∀ t, pte' t = if i ≤ t ∧ t < i + n then nptPage l t else pte t
  | 0, i, pte, m, _, hb => ⟨pte, m, rfl, hb, fun t => (if_neg (by omega)).symm⟩
  | n + 1, i, pte, m, hn, hb => by
    obtain ⟨m₁, halloc, hfill⟩ := hs.step hb (by omega)
    have hnext := hfill (fun j => BitVec.ofNat 64 ((i * 512 + j) * 4096) ||| 0x67)
      fun j _ => (nptValue_pte l (by omega) j).symm
    rw [nptCount_of_lt (by omega)] at hnext
    obtain ⟨pte', m', hrun, hb', hpte⟩ :=
      pteLevel_spec n (i + 1) (Function.update pte i (nptPage l i)) _ (by omega) hnext
    refine ⟨pte', m', ?_, by rwa [show i + (n + 1) = i + 1 + n by omega], fun t => ?_⟩
    · unfold setupSvm.pteLevel
      simp only [halloc, ptePage_page]
      exact hrun
    · rw [hpte t]
      exact ite_update_succ pte (nptPage l) i n t

theorem pdeLevel_spec {pte : ℕ → BitVec 64} (hpte : ∀ t < 2048, pte t = nptPage l t) :
    ∀ (n i : ℕ) (pde : ℕ → BitVec 64) (m : Machine 64), i + n ≤ 4 → Built l m₀ m (2048 + i) →
      ∃ pde' m', setupSvm.pdeLevel pte n i pde m = (pde', m') ∧
        Built l m₀ m' (2048 + (i + n)) ∧
        ∀ t, pde' t = if i ≤ t ∧ t < i + n then nptPage l (2048 + t) else pde t
  | 0, i, pde, m, _, hb => ⟨pde, m, rfl, hb, fun t => (if_neg (by omega)).symm⟩
  | n + 1, i, pde, m, hn, hb => by
    obtain ⟨m₁, halloc, hfill⟩ := hs.step hb (by omega)
    have hcount : nptCount (2048 + i) = 512 := nptCount_of_lt (by omega)
    have hnext := hfill (fun j => pte (i * 512 + j) ||| 0x027) fun j hj => by
      rw [hcount] at hj
      rw [nptValue_pde l (by omega), hpte _ (by omega)]
    rw [hcount] at hnext
    obtain ⟨pde', m', hrun, hb', hpde⟩ :=
      pdeLevel_spec hpte n (i + 1) (Function.update pde i (nptPage l (2048 + i))) _ (by omega) hnext
    refine ⟨pde', m', ?_, by rwa [show i + (n + 1) = i + 1 + n by omega], fun t => ?_⟩
    · rw [setupSvm.pdeLevel, halloc]
      exact hrun
    · rw [hpde t]
      exact ite_update_succ pde (fun t => nptPage l (2048 + t)) i n t

end NptSupply

/-- The variables after `setup_svm`. -/
structure NptVars (l : List (BitVec 64)) (v : SvmVars) : Prop where
  pml4e : v.pml4e = nptPage l 2053
  pdpe : v.pdpe = nptPage l 2052
  pde : ∀ i < 4, v.pde i = nptPage l (2048 + i)
  pte : ∀ i < 2048, v.pte i = nptPage l i

/-- The pages of `hsave` and `scratch_page`. -/
theorem NptSupply.start (hs : NptSupply m l) : ∃ m₁ m₂,
    allocPage m = (l.getD 0 0, m₁) ∧ allocPage m₁ = (l.getD 1 0, m₂) ∧ Built l m m₂ 0 := by
  have hlist := hs.list
  rw [← List.drop_zero (l := l), hs.drop_eq (i := 0) (by omega)] at hlist
  obtain ⟨halloc₁, hlist₁⟩ := allocPage_cons hlist
  rw [hs.drop_eq (i := 0 + 1) (by omega)] at hlist₁
  obtain ⟨halloc₂, hlist₂⟩ := allocPage_cons hlist₁
  exact ⟨_, _, halloc₁, halloc₂, ⟨hlist₂, rfl, rfl⟩⟩

/-- What the tables are made of. -/
theorem tables_eq {pteLen pdeLen : ℕ} {v : SvmVars} {pte pde : ℕ → BitVec 64}
    {pdpe pml4e : BitVec 64} {m₁ m₂ m₃ m₄ : Machine 64}
    (hpte : setupSvm.pteLevel pteLen 0 0 v.pte m = (pte, m₁))
    (hpde : setupSvm.pdeLevel pte pdeLen 0 v.pde m₁ = (pde, m₂))
    (hpdpe : allocPage m₂ = (pdpe, m₃))
    (hpml4e : allocPage (fillPage pdpe (fun i => pde i ||| 0x27) 4 0 m₃) = (pml4e, m₄)) :
    setupSvm.tables pteLen pdeLen v m = ({ v with pml4e, pdpe, pde, pte },
      m₄.store (entryAddr pml4e 0) (pdpe ||| 0x27)) := by
  unfold setupSvm.tables
  simp only [hpte, hpde, hpdpe, hpml4e]

theorem setupSvm_eq {v : SvmVars} {hsave scratch : BitVec 64} {m₁ m₂ : Machine 64}
    (hhsave : allocPage m = (hsave, m₁)) (hscratch : allocPage m₁ = (scratch, m₂)) :
    setupSvm true v m = setupSvm.tables 2048 4 { v with scratchPage := scratch } m₂ := by
  unfold setupSvm
  simp only [hhsave, hscratch, not_true_eq_false, if_false]

/-- `setup_svm` takes 2056 pages and writes the words of the 2054 tables, no others. -/
theorem setupSvm_spec (hs : NptSupply m l) (v : SvmVars) :
    ∃ v' m', setupSvm true v m = (v', m') ∧ NptVars l v' ∧ m'.mem = nptMemory l m.mem ∧
      m'.FreeList (l.drop 2056) ∧ m'.denied = m.denied := by
  obtain ⟨m₁, m₂, hhsave, hscratch, hb₂⟩ := hs.start
  obtain ⟨pte, m₃, hpteRun, hb₃, hpte⟩ := hs.pteLevel_spec 2048 0 v.pte m₂ (by norm_num) hb₂
  have hpte' : ∀ t < 2048, pte t = nptPage l t := fun t ht => by
    rw [hpte t, if_pos (by omega)]
  rw [Nat.zero_add] at hb₃
  obtain ⟨pde, m₄, hpdeRun, hb₄, hpde⟩ := hs.pdeLevel_spec hpte' 4 0 v.pde m₃ (by norm_num) hb₃
  have hpde' : ∀ t < 4, pde t = nptPage l (2048 + t) := fun t ht => by
    rw [hpde t, if_pos (by omega)]
  rw [show 2048 + (0 + 4) = 2052 by norm_num] at hb₄
  obtain ⟨m₅, hpdpe, hfill₅⟩ := hs.step hb₄ (by norm_num)
  have hb₅ := hfill₅ (fun i => pde i ||| 0x27) fun j hj => by
    rw [nptCount_pdpe] at hj
    rw [nptValue_pdpe, hpde' j hj]
  rw [nptCount_pdpe, show 2052 + 1 = 2053 by norm_num] at hb₅
  obtain ⟨m₆, hpml4e, hfill₆⟩ := hs.step hb₅ (by norm_num)
  have hb₆ := hfill₆ (fun _ => nptPage l 2052 ||| 0x27) fun j _ => (nptValue_pml4e l j).symm
  rw [nptCount_pml4e, show 2053 + 1 = 2054 by norm_num] at hb₆
  have htables := @tables_eq m₂ 2048 4 { v with scratchPage := l.getD 1 0 } pte pde _ _ m₃ m₄ m₅ m₆
    hpteRun hpdeRun hpdpe hpml4e
  exact ⟨⟨nptPage l 2053, nptPage l 2052, pde, pte, l.getD 1 0⟩, _,
    (setupSvm_eq hhsave hscratch).trans htables, ⟨rfl, rfl, hpde', hpte'⟩, hb₆.mem, hb₆.list,
    hb₆.denied⟩

/-! ## The entries -/

section Entries

variable {mem : BitVec 64 → BitVec 64} {j : ℕ}

/-- What a filled entry holds. -/
theorem nptMemory_filled (hs : NptSupply m₀ l) (hk : k < 2054) (hj : j < nptCount k) :
    nptMemory l mem (entryAddr (nptPage l k) (BitVec.ofNat 64 j)) = nptValue l k j := by
  refine writeAll_of_mem (mem_nptSlots.mpr ⟨k, hk, j, hj, rfl⟩) fun s hsmem heq => ?_
  obtain ⟨k', hk', j', hj', rfl⟩ := mem_nptSlots.mp hsmem
  obtain ⟨rfl, rfl⟩ := hs.entryAddr_inj hk' hk (hj'.trans_le (nptCount_le k'))
    (hj.trans_le (nptCount_le k)) heq
  rfl

/-- The other entries keep what they held. -/
theorem nptMemory_unused (hs : NptSupply m₀ l) (hk : k < 2054) (hj : nptCount k ≤ j)
    (hj' : j < 512) : nptMemory l mem (entryAddr (nptPage l k) (BitVec.ofNat 64 j))
      = mem (entryAddr (nptPage l k) (BitVec.ofNat 64 j)) := by
  refine writeAll_of_ne fun s hsmem heq => ?_
  obtain ⟨k', hk', i, hi, rfl⟩ := mem_nptSlots.mp hsmem
  obtain ⟨rfl, rfl⟩ := hs.entryAddr_inj hk' hk (hi.trans_le (nptCount_le k')) hj' heq
  exact absurd hi (not_lt.mpr hj)

variable {p c : BitVec 64}

/-- A frame with low bits holds the address of the frame. -/
theorem or_and_addrMask (hp : IsFrame p) (hc : c &&& addrMask 64 = 0) :
    (p ||| c) &&& addrMask 64 = p := by
  rw [BitVec.and_or_distrib_right, hp, hc]
  exact BitVec.or_zero

/-- It is no large leaf if the low bits are none. -/
theorem or_not_large (hp : IsFrame p) (hc : c &&& largeMask 64 = 0) (level : ℕ) :
    ¬ PtFormat.Large level (p ||| c) := by
  have hmasks : addrMask 64 &&& largeMask 64 = 0 := by decide
  rintro ⟨-, hlarge⟩
  refine hlarge ?_
  rw [BitVec.and_or_distrib_right, hc, ← hp, BitVec.and_assoc, hmasks]
  exact BitVec.or_zero.trans BitVec.and_zero

/-- And it is present if they are. -/
theorem or_present (hc : c &&& 1 = 1) : (x86Format 64).Present (p ||| c) := by
  intro h
  have hor : (p &&& 1) ||| (c &&& 1) = 0 := by
    rw [← BitVec.and_or_distrib_right]
    exact h
  rw [hc] at hor
  exact absurd (BitVec.or_eq_zero_iff.mp hor).2 (by decide)

end Entries

/-! ## Walks -/

/-- The format of the tables, as the processor walks them. -/
abbrev nptFormat : PtFormat 64 :=
  x86Format 64

section Walks

variable {mem : BitVec 64 → BitVec 64} {a : BitVec 64}

theorem pgdirOffset_eq {s i : ℕ} (level : ℕ) (hshift : nptFormat.levelShift level = s)
    (h : a.toNat / 2 ^ s % 2 ^ 9 = i) : nptFormat.pgdirOffset a level = BitVec.ofNat 64 i := by
  rw [nptFormat.pgdirOffset_eq_ofNat, hshift, ← h]
  rfl

theorem entry_pml4e (hs : NptSupply m₀ l) (ha : a.toNat < 2 ^ 39) :
    nptMemory l mem (entryAddr (nptPage l 2053) (nptFormat.pgdirOffset a 4))
      = nptPage l 2052 ||| 0x27 := by
  have hindex : a.toNat / 2 ^ 39 % 2 ^ 9 = 0 := by
    rw [Nat.div_eq_of_lt ha, Nat.zero_mod]
  have hfilled : 0 < nptCount 2053 := by
    rw [nptCount_pml4e]
    norm_num
  rw [pgdirOffset_eq 4 rfl hindex, nptMemory_filled hs (by norm_num) hfilled, nptValue_pml4e]

theorem entry_pdpe (hs : NptSupply m₀ l) (ha : a.toNat < 2 ^ 32) :
    nptMemory l mem (entryAddr (nptPage l 2052) (nptFormat.pgdirOffset a 3))
      = nptPage l (2048 + a.toNat / 2 ^ 30) ||| 0x27 := by
  have hindex : a.toNat / 2 ^ 30 % 2 ^ 9 = a.toNat / 2 ^ 30 := by omega
  have hfilled : a.toNat / 2 ^ 30 < nptCount 2052 := by
    rw [nptCount_pdpe]
    omega
  rw [pgdirOffset_eq 3 rfl hindex, nptMemory_filled hs (by norm_num) hfilled, nptValue_pdpe]

theorem entry_pde (hs : NptSupply m₀ l) (ha : a.toNat < 2 ^ 32) :
    nptMemory l mem
        (entryAddr (nptPage l (2048 + a.toNat / 2 ^ 30)) (nptFormat.pgdirOffset a 2))
      = nptPage l (a.toNat / 2 ^ 21) ||| 0x27 := by
  have hshift : nptFormat.levelShift 2 = 21 := rfl
  rw [pgdirOffset_eq 2 hshift rfl, nptMemory_filled hs (by omega)
    (by rw [nptCount_of_lt (by omega)]; omega), nptValue_pde l (by omega)]
  congr 2
  omega

theorem entry_pte (hs : NptSupply m₀ l) (ha : a.toNat < 2 ^ 32) :
    nptMemory l mem (entryAddr (nptPage l (a.toNat / 2 ^ 21)) (nptFormat.pgdirOffset a 1))
      = BitVec.ofNat 64 (a.toNat / 2 ^ 12 * 4096) ||| 0x67 := by
  have hshift : nptFormat.levelShift 1 = 12 := rfl
  rw [pgdirOffset_eq 1 hshift rfl, nptMemory_filled hs (by omega)
    (by rw [nptCount_of_lt (by omega)]; omega), nptValue_pte l (by omega)]
  congr 3
  omega

/-- The walk of `a` goes from `pml4e` through the entry of `npt_get_pde` to that of `npt_get_pte`,
and the leaf there maps `a` to itself. -/
structure MapsToItself (v : SvmVars) (cells : BitVec 64 → BitVec 64) (a : BitVec 64) : Prop where
  walk : ∃ e₄ e₃, nptFormat.walk v.pml4e cells a =
    some [e₄, e₃, cells (nptGetPde v a), cells (nptGetPte v a)]
  pde : (nptFormat.radix.table cells v.pml4e a 2).map
    (entryAddr · (nptFormat.pgdirOffset a 2)) = some (nptGetPde v a)
  pte : (nptFormat.radix.table cells v.pml4e a 3).map
    (entryAddr · (nptFormat.pgdirOffset a 1)) = some (nptGetPte v a)
  identity : (cells (nptGetPte v a) &&& addrMask 64) + (a &&& 0xfff) = a

/-- Every address below 4 GiB is mapped to itself, and none of the others is mapped. The walk
translates 48 bits. -/
def NptIdentity (v : SvmVars) (cells : BitVec 64 → BitVec 64) : Prop :=
  (∀ a : BitVec 64, a.toNat < 2 ^ 32 → MapsToItself v cells a) ∧
    ∀ a : BitVec 64, 2 ^ 32 ≤ a.toNat → a.toNat < 2 ^ 48 →
      nptFormat.walk v.pml4e cells a = none

/-- An index that two shifts and a mask cut out of an address. -/
theorem toNat_shift_shift_and {mask : BitVec 64} {b : ℕ} (hmask : mask.toNat = 2 ^ b - 1)
    (a : BitVec 64) (s s' : ℕ) :
    ((a >>> s >>> s') &&& mask).toNat = a.toNat / 2 ^ s / 2 ^ s' % 2 ^ b := by
  rw [BitVec.toNat_and, hmask, Nat.and_two_pow_sub_one_eq_mod, BitVec.toNat_ushiftRight,
    BitVec.toNat_ushiftRight, Nat.shiftRight_eq_div_pow, Nat.shiftRight_eq_div_pow]

theorem nptGetPde_eq {v : SvmVars} (hv : NptVars l v) (ha : a.toNat < 2 ^ 32) :
    nptGetPde v a
      = entryAddr (nptPage l (2048 + a.toNat / 2 ^ 30)) (nptFormat.pgdirOffset a 2) := by
  have hmask : (0x3 : BitVec 64).toNat = 2 ^ 2 - 1 := rfl
  have hindex : ((a >>> 21 >>> 9) &&& 0x3).toNat = a.toNat / 2 ^ 30 := by
    rw [toNat_shift_shift_and hmask]
    omega
  rw [nptGetPde, hindex, hv.pde _ (by omega)]
  rfl

theorem nptGetPte_eq {v : SvmVars} (hv : NptVars l v) (ha : a.toNat < 2 ^ 32) :
    nptGetPte v a = entryAddr (nptPage l (a.toNat / 2 ^ 21)) (nptFormat.pgdirOffset a 1) := by
  have hmask : (0x7ff : BitVec 64).toNat = 2 ^ 11 - 1 := rfl
  have hindex : ((a >>> 12 >>> 9) &&& 0x7ff).toNat = a.toNat / 2 ^ 21 := by
    rw [toNat_shift_shift_and hmask]
    omega
  rw [nptGetPte, hindex, hv.pte _ (by omega)]
  rfl

/-- The low bits of a link to a table. -/
theorem link_masks : (0x27 : BitVec 64) &&& addrMask 64 = 0 ∧
    (0x27 : BitVec 64) &&& largeMask 64 = 0 ∧ (0x27 : BitVec 64) &&& 1 = 1 := by
  decide

/-- A filled entry above the leaves leads on to its table. -/
theorem table_link {cells : BitVec 64 → BitVec 64} {root t p : BitVec 64} {d level : ℕ}
    (ht : nptFormat.radix.table cells root a d = some t) (hd : nptFormat.pageLevel - d = level + 1)
    (hlevel : 0 < level)
    (he : cells (entryAddr t (nptFormat.pgdirOffset a (level + 1))) = p ||| 0x27)
    (hp : IsFrame p) : nptFormat.radix.table cells root a (d + 1) = some p := by
  obtain ⟨haddr, hlarge, hpresent⟩ := link_masks
  have h := nptFormat.table_next ht hd hlevel (by rw [he]; exact or_present hpresent)
    (by rw [he]; exact or_not_large hp hlarge _)
  rwa [he, or_and_addrMask hp haddr] at h

/-- The tables that the walk of an address below 4 GiB goes through. -/
theorem tables_below (hs : NptSupply m₀ l) (mem : BitVec 64 → BitVec 64) (ha : a.toNat < 2 ^ 32) :
    nptFormat.radix.table (nptMemory l mem) (nptPage l 2053) a 1 = some (nptPage l 2052) ∧
      nptFormat.radix.table (nptMemory l mem) (nptPage l 2053) a 2
        = some (nptPage l (2048 + a.toNat / 2 ^ 30)) ∧
      nptFormat.radix.table (nptMemory l mem) (nptPage l 2053) a 3
        = some (nptPage l (a.toNat / 2 ^ 21)) := by
  have ha' : a.toNat < 2 ^ 39 := by omega
  have h₁ : nptFormat.radix.table (nptMemory l mem) (nptPage l 2053) a 1 = some (nptPage l 2052) :=
    table_link rfl rfl (by norm_num) (entry_pml4e hs ha') (hs.isFrame (by norm_num))
  have h₂ := table_link h₁ rfl (by norm_num) (entry_pdpe hs ha) (hs.isFrame (by omega))
  have h₃ := table_link h₂ rfl (by norm_num) (entry_pde hs ha) (hs.isFrame (by omega))
  exact ⟨h₁, h₂, h₃⟩

theorem leaf_masks : (0x67 : BitVec 64) &&& addrMask 64 = 0 ∧ (0x67 : BitVec 64) &&& 1 = 1 := by
  decide

/-- The frame in the leaf of an address is the page of the address. -/
theorem leaf_isFrame (ha : a.toNat < 2 ^ 32) :
    IsFrame (BitVec.ofNat 64 (a.toNat / 2 ^ 12 * 4096)) := by
  have hnat : (BitVec.ofNat 64 (a.toNat / 2 ^ 12 * 4096)).toNat = a.toNat / 2 ^ 12 * 4096 := by
    rw [BitVec.toNat_ofNat, Nat.mod_eq_of_lt (by omega)]
  refine isFrame_of_lt ?_ ?_
  · rw [hnat]
    omega
  · rw [hnat]
    omega

theorem leaf_add_offset (ha : a.toNat < 2 ^ 32) :
    BitVec.ofNat 64 (a.toNat / 2 ^ 12 * 4096) + (a &&& 0xfff) = a := by
  have hmask : (0xfff : BitVec 64).toNat = 2 ^ 12 - 1 := rfl
  refine BitVec.eq_of_toNat_eq ?_
  rw [BitVec.toNat_add, BitVec.toNat_ofNat, BitVec.toNat_and, hmask,
    Nat.and_two_pow_sub_one_eq_mod]
  omega

/-- The walk through three tables to a present leaf. -/
theorem walk_of_tables {cells : BitVec 64 → BitVec 64} {root t₁ t₂ t₃ e : BitVec 64}
    (h₁ : nptFormat.radix.table cells root a 1 = some t₁)
    (h₂ : nptFormat.radix.table cells root a 2 = some t₂)
    (h₃ : nptFormat.radix.table cells root a 3 = some t₃)
    (he : cells (entryAddr t₃ (nptFormat.pgdirOffset a 1)) = e) (hpresent : nptFormat.Present e) :
    nptFormat.walk root cells a =
      some [cells (entryAddr root (nptFormat.pgdirOffset a 4)),
        cells (entryAddr t₁ (nptFormat.pgdirOffset a 3)),
        cells (entryAddr t₂ (nptFormat.pgdirOffset a 2)), e] := by
  subst he
  have h₀ : nptFormat.radix.table cells root a 0 = some root := rfl
  have hends : nptFormat.radix.Ends cells root a 3
      (cells (entryAddr t₃ (nptFormat.pgdirOffset a 1))) :=
    ⟨nptFormat.entry_of_table h₃, nptFormat.nextTable_eq_none.mpr (Or.inr (Or.inl le_rfl))⟩
  rw [nptFormat.walk_of_ends hends, if_pos hpresent]
  simp only [List.range_succ, List.range_zero, List.nil_append, List.filterMap_append,
    List.filterMap_cons, List.filterMap_nil, nptFormat.entry_of_table h₀,
    nptFormat.entry_of_table h₁, nptFormat.entry_of_table h₂]
  rfl

/-- Whatever the pages held, every address below 4 GiB is mapped to itself. -/
theorem mapsToItself {v : SvmVars} (hs : NptSupply m₀ l) (hv : NptVars l v)
    (ha : a.toNat < 2 ^ 32) : MapsToItself v (nptMemory l mem) a := by
  obtain ⟨haddr, hone⟩ := leaf_masks
  have hleaf : nptMemory l mem (nptGetPte v a)
      = BitVec.ofNat 64 (a.toNat / 2 ^ 12 * 4096) ||| 0x67 := by
    rw [nptGetPte_eq hv ha]
    exact entry_pte hs ha
  have htables := tables_below hs mem ha
  have hpml4e := hv.pml4e
  have hpde := nptGetPde_eq hv ha
  have hpte := nptGetPte_eq hv ha
  generalize nptMemory l mem = cells at hleaf htables ⊢
  obtain ⟨h₁, h₂, h₃⟩ := htables
  rw [← hpml4e] at h₁ h₂ h₃
  have hwalk := walk_of_tables h₁ h₂ h₃ (hpte ▸ hleaf) (or_present hone)
  rw [← hpde, ← hleaf] at hwalk
  refine ⟨⟨_, _, hwalk⟩, ?_, ?_, ?_⟩
  · rw [h₂, Option.map_some, hpde]
  · rw [h₃, Option.map_some, hpte]
  · rw [hleaf, or_and_addrMask (leaf_isFrame ha) haddr]
    exact leaf_add_offset ha

/-! ## The unused entries -/

section Upper

variable {cells : BitVec 64 → BitVec 64} {root p : BitVec 64}

/-- Behind a link in the first table the walk goes on from the table below. -/
theorem isSome_walk_iff (he : cells (entryAddr root (nptFormat.pgdirOffset a 4)) = p ||| 0x27)
    (hp : IsFrame p) : (nptFormat.walk root cells a).isSome ↔
      (nptFormat.walkFrom cells a 3 p).isSome := by
  obtain ⟨haddr, hlarge, hone⟩ := link_masks
  have hiff : (nptFormat.walk root cells a).isSome ↔ _ :=
    @PtFormat.isSome_walkFrom_iff 64 _ nptFormat cells a root 3
  rw [he, or_and_addrMask hp haddr] at hiff
  refine hiff.trans ⟨fun h => ?_, fun h => ⟨or_present hone, Or.inr (Or.inr h)⟩⟩
  rcases h.2 with h0 | hlarge' | h
  · exact absurd h0 (by norm_num)
  · exact absurd hlarge' (or_not_large hp hlarge 4)
  · exact h

/-- The addresses from 4 GiB on are not mapped exactly if none of the entries leads to a leaf
that they select : those of the table below from number 4 on, and of the first table from
number 1 on. -/
theorem walk_eq_none_iff (hp : IsFrame p) (he : ∀ a : BitVec 64, a.toNat < 2 ^ 39 →
      cells (entryAddr root (nptFormat.pgdirOffset a 4)) = p ||| 0x27) :
    (∀ a : BitVec 64, 2 ^ 32 ≤ a.toNat → a.toNat < 2 ^ 48 → nptFormat.walk root cells a = none) ↔
      (∀ i, 4 ≤ i → i < 512 →
          ¬ nptFormat.LeadsToLeaf cells 3 (cells (entryAddr p (BitVec.ofNat 64 i)))) ∧
        ∀ i, 1 ≤ i → i < 512 →
          ¬ nptFormat.LeadsToLeaf cells 4 (cells (entryAddr root (BitVec.ofNat 64 i))) := by
  have hthree : nptFormat.levelShift (2 + 1) = 30 := rfl
  have hfour : nptFormat.levelShift (3 + 1) = 39 := rfl
  have hlow (i : ℕ) (hi : i < 512) := @PtFormat.exists_walkFrom_iff 64 _ nptFormat cells p 2 i
    (by decide) hi
  have hhigh (i : ℕ) (hi : i < 512) := @PtFormat.exists_walkFrom_iff 64 _ nptFormat cells root 3 i
    (by decide) hi
  rw [hthree] at hlow
  rw [hfour] at hhigh
  constructor
  · intro hnone
    refine ⟨fun i hi hi' hleads => ?_, fun i hi hi' hleads => ?_⟩
    · obtain ⟨a, hindex, hsome⟩ := (hlow i hi').mpr hleads
      have hwalk := (isSome_walk_iff (he a (by omega)) hp).mpr hsome
      rw [hnone a (by omega) (by omega)] at hwalk
      exact absurd hwalk Bool.false_ne_true
    · obtain ⟨a, hindex, hsome⟩ := (hhigh i hi').mpr hleads
      have hwalk : (nptFormat.walk root cells a).isSome := hsome
      rw [hnone a (by omega) (by omega)] at hwalk
      exact absurd hwalk Bool.false_ne_true
  · rintro ⟨hpdpe, hpml4e⟩ a ha ha'
    refine Option.not_isSome_iff_eq_none.mp fun hwalk => ?_
    rcases Nat.lt_or_ge a.toNat (2 ^ 39) with hbelow | habove
    · have hsome := (isSome_walk_iff (he a hbelow) hp).mp hwalk
      exact hpdpe (a.toNat / 2 ^ 30) (by omega) (by omega) ((hlow _ (by omega)).mp ⟨a, rfl, hsome⟩)
    · exact hpml4e (a.toNat / 2 ^ 39) (by omega) (by omega)
        ((hhigh _ (by omega)).mp ⟨a, rfl, hwalk⟩)

end Upper

end Walks

/-- After `setup_svm` every address below 4 GiB is mapped to itself, whatever the pages held. -/
theorem setupSvm_below (hs : NptSupply m l) (v : SvmVars) {a : BitVec 64}
    (ha : a.toNat < 2 ^ 32) :
    MapsToItself (setupSvm true v m).1 (setupSvm true v m).2.mem a := by
  obtain ⟨v', m', hrun, hv, hmem, -⟩ := setupSvm_spec hs v
  rw [hrun, hmem]
  exact mapsToItself hs hv ha

/-- Above, an address is mapped exactly through an entry that `setup_svm` does not write. -/
theorem setupSvm_above_iff (hs : NptSupply m l) (v : SvmVars) :
    (∀ a : BitVec 64, 2 ^ 32 ≤ a.toNat → a.toNat < 2 ^ 48 →
        nptFormat.walk (setupSvm true v m).1.pml4e (setupSvm true v m).2.mem a = none) ↔
      (∀ i, 4 ≤ i → i < 512 → ¬ nptFormat.LeadsToLeaf (nptMemory l m.mem) 3
          (m.mem (entryAddr (nptPage l 2052) (BitVec.ofNat 64 i)))) ∧
        ∀ i, 1 ≤ i → i < 512 → ¬ nptFormat.LeadsToLeaf (nptMemory l m.mem) 4
          (m.mem (entryAddr (nptPage l 2053) (BitVec.ofNat 64 i))) := by
  obtain ⟨v', m', hrun, hv, hmem, -⟩ := setupSvm_spec hs v
  rw [hrun, hmem, hv.pml4e]
  have hpdpe (i : ℕ) (hi : 4 ≤ i) (hi' : i < 512) :
      nptMemory l m.mem (entryAddr (nptPage l 2052) (BitVec.ofNat 64 i))
        = m.mem (entryAddr (nptPage l 2052) (BitVec.ofNat 64 i)) :=
    nptMemory_unused hs (by norm_num) (nptCount_pdpe.trans_le hi) hi'
  have hpml4e (i : ℕ) (hi : 1 ≤ i) (hi' : i < 512) :
      nptMemory l m.mem (entryAddr (nptPage l 2053) (BitVec.ofNat 64 i))
        = m.mem (entryAddr (nptPage l 2053) (BitVec.ofNat 64 i)) :=
    nptMemory_unused hs (by norm_num) (nptCount_pml4e.trans_le hi) hi'
  have hlink (a : BitVec 64) (ha : a.toNat < 2 ^ 39) :
      nptMemory l m.mem (entryAddr (nptPage l 2053) (nptFormat.pgdirOffset a 4))
        = nptPage l 2052 ||| 0x27 := entry_pml4e hs ha
  -- From here on only these words matter, not how the tables are written.
  generalize nptMemory l m.mem = cells at hpdpe hpml4e hlink ⊢
  refine (walk_eq_none_iff (hs.isFrame (by norm_num)) hlink).trans (and_congr ?_ ?_)
  · exact forall_congr' fun i => forall₂_congr fun hi hi' => by rw [hpdpe i hi hi']
  · exact forall_congr' fun i => forall₂_congr fun hi hi' => by rw [hpml4e i hi hi']

/-- `setup_svm` maps every address below 4 GiB to itself and no other exactly if none of the
entries that it does not write, 508 of `pdpe` and 511 of `pml4e`, leads to a present leaf
with what the page held before. -/
theorem setupSvm_identity_iff (hs : NptSupply m l) (v : SvmVars) :
    NptIdentity (setupSvm true v m).1 (setupSvm true v m).2.mem ↔
      (∀ i, 4 ≤ i → i < 512 → ¬ nptFormat.LeadsToLeaf (nptMemory l m.mem) 3
          (m.mem (entryAddr (nptPage l 2052) (BitVec.ofNat 64 i)))) ∧
        ∀ i, 1 ≤ i → i < 512 → ¬ nptFormat.LeadsToLeaf (nptMemory l m.mem) 4
          (m.mem (entryAddr (nptPage l 2053) (BitVec.ofNat 64 i))) :=
  (and_iff_right fun _ => setupSvm_below hs v).trans (setupSvm_above_iff hs v)

/-! ## Pages that all hold the same word -/

/-- 2056 pages from 1 MiB on, donated to an empty allocator, in a memory of equal words. -/
def uniformPages (word : BitVec 64) : Machine 64 :=
  (freePages 0x100000 0x808000 ⟨fun _ => word, 0, false⟩).getD ⟨fun _ => word, 0, false⟩

/-- The pages of `uniformPages`. -/
def uniformList : List (BitVec 64) :=
  pageRun 0x100000 2056

theorem length_uniformList : uniformList.length = 2056 := by
  rw [uniformList, pageRun, List.length_map, List.length_range]

theorem toNat_pageAt_uniform {j : ℕ} (hj : j < 2056) :
    (pageAt (0x100000 : BitVec 64) j).toNat = 0x100000 + j * 2 ^ 12 := by
  have hstart : (0x100000 : BitVec 64).toNat = 0x100000 := rfl
  refine (toNat_pageAt ?_).trans ?_
  · rw [pageShift_64, hstart]
    omega
  · rw [pageShift_64, hstart]

theorem uniformList_isFrame {p : BitVec 64} (hp : p ∈ uniformList) : IsFrame p := by
  obtain ⟨j, hj, rfl⟩ := mem_pageRun.mp hp
  have hnat := toNat_pageAt_uniform hj
  refine isFrame_of_lt ?_ ?_
  · rw [hnat]
    omega
  · rw [hnat]
    omega

theorem uniformPages_spec (word : BitVec 64) : (uniformPages word).FreeList uniformList ∧
    ∀ a, a ∉ uniformList → (uniformPages word).mem a = word := by
  have hnil : (⟨fun _ => word, 0, false⟩ : Machine 64).FreeList [] := chain_nil.mpr rfl
  have hcount : pageCount (0x808000 : BitVec 64) = 2056 := rfl
  have hzero : (0 : BitVec 64) ∉ pageRun (0x100000 : BitVec 64) 2056 := by
    intro h
    obtain ⟨j, hj, heq⟩ := mem_pageRun.mp h
    have hnat := toNat_pageAt_uniform hj
    rw [heq] at hnat
    have hz : (0 : BitVec 64).toNat = 0 := rfl
    omega
  obtain ⟨m', hm', hlist, hkept, -⟩ := @freePages_spec 64 _ _ [] 0x100000 0x808000 hnil
    ⟨by decide, by decide, by decide⟩ (by decide) (hcount ▸ hzero) (by simp)
  rw [hcount] at hlist hkept
  rw [List.append_nil] at hlist
  have heq : uniformPages word = m' := by rw [uniformPages, hm', Option.getD_some]
  rw [heq]
  exact ⟨hlist, hkept⟩

theorem uniformPages_supply (word : BitVec 64) : NptSupply (uniformPages word) uniformList :=
  ⟨(uniformPages_spec word).1, length_uniformList.ge, fun _ => uniformList_isFrame⟩

/-- The link of the free list is in the first word of a page only. -/
theorem uniformPages_entry (word : BitVec 64) {k i : ℕ} (hk : k < 2054) (hi : 1 ≤ i)
    (hi' : i < 512) :
    (uniformPages word).mem (entryAddr (nptPage uniformList k) (BitVec.ofNat 64 i)) = word := by
  have hs := uniformPages_supply word
  refine (uniformPages_spec word).2 _ fun hmem => ?_
  have haligned := (uniformList_isFrame hmem).pageAligned pageShift_64
  have hpage := pageOf_eq_self_iff.mpr haligned
  rw [(x86Format 64).pageOf_entryAddr_ofNat (hs.pageAligned hk) hi'] at hpage
  have hfirst : entryAddr (nptPage uniformList k) (BitVec.ofNat 64 0) = nptPage uniformList k := by
    rw [entryAddr_eq]
    exact BitVec.add_zero _
  have h := (x86Format 64).entryAddr_inj (i := 0) (Nat.two_pow_pos _) hi' (hfirst.trans hpage)
  omega

theorem not_leadsToLeaf_zero {cells : BitVec 64 → BitVec 64} (level : ℕ) :
    ¬ nptFormat.LeadsToLeaf cells (level + 1) 0 := fun h =>
  h.1 BitVec.zero_and

/-- The variables of `x86/svm.c` before they are set. -/
def unsetVars : SvmVars :=
  ⟨0, 0, fun _ => 0, fun _ => 0, 0⟩

theorem setupSvm_identity_zeros :
    NptIdentity (setupSvm true unsetVars (uniformPages 0)).1
      (setupSvm true unsetVars (uniformPages 0)).2.mem := by
  refine (setupSvm_identity_iff (uniformPages_supply 0) unsetVars).mpr
    ⟨fun i hi hi' => ?_, fun i hi hi' => ?_⟩
  · rw [uniformPages_entry 0 (by norm_num) (by omega) hi']
    exact not_leadsToLeaf_zero 2
  · rw [uniformPages_entry 0 (by norm_num) hi hi']
    exact not_leadsToLeaf_zero 3

/-- With the words of a present large leaf in the pages, `pdpe[4]` maps more. -/
theorem setupSvm_stale_leaf :
    ¬ NptIdentity (setupSvm true unsetVars (uniformPages 0x87)).1
      (setupSvm true unsetVars (uniformPages 0x87)).2.mem := by
  rintro ⟨-, habove⟩
  obtain ⟨hpdpe, -⟩ := (setupSvm_above_iff (uniformPages_supply 0x87) unsetVars).mp habove
  have hentry := uniformPages_entry 0x87 (show 2052 < 2054 by norm_num) (show 1 ≤ 4 by norm_num)
    (by norm_num)
  refine hpdpe 4 le_rfl (by norm_num) ?_
  rw [hentry]
  have hpresent : nptFormat.Present (0x87 : BitVec 64) := by decide
  have hlarge : PtFormat.Large 3 (0x87 : BitVec 64) := by decide
  exact ⟨hpresent, Or.inr (Or.inl hlarge)⟩

end AcrnUt
