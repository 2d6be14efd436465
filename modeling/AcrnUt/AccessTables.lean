import AcrnUt.AccessCheck
import AcrnUt.Page

/-!
# The tables of the access test

`__ac_setup_specific_pages` of `x86/access.c` goes down from the root, reuses entries of index 0
until it meets another index, and from there on hangs in pages of its pool, with the entries of the
configuration in the last two levels. Every write goes to the page of the table it is at, and those
pages are all different, so the processor finds the entries as they were written
(`AccessTest.setup_walk`), with everything allowed above them. The words have the bits of the
configuration and no other that the processor looks at (`AccessTest.agrees_words`). So a test of
one access on fresh tables whose directory entry the processor uses passes exactly if the
architecture allows what is seen (`AccessTest.exec_iff`).
-/

set_option linter.unusedSectionVars false

namespace AcrnUt

open X86Paging

namespace AccessTest

/-! ## The words -/

/-- `if (F(x)) pte |= mask`. -/
def orIf (e : BitVec 64) (c : Bool) (mask : BitVec 64) : BitVec 64 :=
  if c then e ||| mask else e

/-- `PT_BASE_ADDR_MASK`. -/
def ptBaseAddrMask : BitVec 64 := ((1#64 <<< 40) - 1) &&& ~~~(4096#64 - 1)

/-- `PT_PSE_BASE_ADDR_MASK`. -/
def ptPseBaseAddrMask : BitVec 64 := ptBaseAddrMask &&& ~~~(1#64 <<< 21)

/-- The `phys` of `ac_test_init`. -/
def acPhys : BitVec 64 := 32 * 1024 * 1024

/-- The entry of the directory, with the page `pt` for a table. -/
def acPde (flags : BitVec 32) (pt : BitVec 64) : BitVec 64 :=
  let pte : BitVec 64 :=
    if !hasFlag flags .pdePse then orIf pt (hasFlag flags .pkuPkey) (2#64 <<< 59)
    else orIf ((acPhys &&& ptPseBaseAddrMask) ||| 1#64 <<< 7) (hasFlag flags .pkuPkey) (1#64 <<< 59)
  let pte := orIf pte (hasFlag flags .pdePresent) (1#64 <<< 0)
  let pte := orIf pte (hasFlag flags .pdeWritable) (1#64 <<< 1)
  let pte := orIf pte (hasFlag flags .pdeUser) (1#64 <<< 2)
  let pte := orIf pte (hasFlag flags .pdeAccessed) ptAccessedMask
  let pte := orIf pte (hasFlag flags .pdeDirty) ptDirtyMask
  let pte := orIf pte (hasFlag flags .pdeNx) (1#64 <<< 63)
  let pte := orIf pte (hasFlag flags .pdeBit51) (1#64 <<< 51)
  orIf pte (hasFlag flags .pdeBit13) (1#64 <<< 13)

/-- The entry of the table. -/
def acPte (flags : BitVec 32) : BitVec 64 :=
  let pte := orIf (acPhys &&& ptBaseAddrMask) (hasFlag flags .pkuPkey) (1#64 <<< 59)
  let pte := orIf pte (hasFlag flags .ptePresent) (1#64 <<< 0)
  let pte := orIf pte (hasFlag flags .pteWritable) (1#64 <<< 1)
  let pte := orIf pte (hasFlag flags .pteUser) (1#64 <<< 2)
  let pte := orIf pte (hasFlag flags .pteAccessed) ptAccessedMask
  let pte := orIf pte (hasFlag flags .pteDirty) ptDirtyMask
  let pte := orIf pte (hasFlag flags .pteNx) (1#64 <<< 63)
  orIf pte (hasFlag flags .pteBit51) (1#64 <<< 51)

theorem getLsbD_orIf (e : BitVec 64) (c : Bool) {k i : ℕ} (hi : i < 64) :
    (orIf e c (1#64 <<< k)).getLsbD i = (e.getLsbD i || c && decide (k = i)) := by
  rw [← BitVec.twoPow_eq]
  cases c
  · simp [orIf]
  · simp only [orIf, if_true, BitVec.getLsbD_or, BitVec.getLsbD_twoPow, Bool.true_and]
    rcases eq_or_ne k i with rfl | hne
    · simp [hi]
    · simp [hne]

theorem two_shift : 2#64 <<< 59 = 1#64 <<< 60 := rfl

theorem base_pte : acPhys &&& ptBaseAddrMask = 1#64 <<< 25 := by decide

theorem base_pde : acPhys &&& ptPseBaseAddrMask = 1#64 <<< 25 := by decide

/-- A page of the pool. -/
structure PoolPage (pt : BitVec 64) : Prop where
  aligned : ∀ i, i < 12 → pt.getLsbD i = false
  below : ∀ i, 27 ≤ i → pt.getLsbD i = false

/-- The bits of the directory entry. -/
theorem getLsbD_acPde (flags : BitVec 32) (pt : BitVec 64) {i : ℕ} (hi : i < 64) :
    (acPde flags pt).getLsbD i =
      ((if hasFlag flags .pdePse then decide (25 = i) || decide (7 = i) ||
          hasFlag flags .pkuPkey && decide (59 = i)
        else pt.getLsbD i || hasFlag flags .pkuPkey && decide (60 = i)) ||
        hasFlag flags .pdePresent && decide (0 = i) ||
        hasFlag flags .pdeWritable && decide (1 = i) ||
        hasFlag flags .pdeUser && decide (2 = i) || hasFlag flags .pdeAccessed && decide (5 = i) ||
        hasFlag flags .pdeDirty && decide (6 = i) || hasFlag flags .pdeNx && decide (63 = i) ||
        hasFlag flags .pdeBit51 && decide (51 = i) ||
        hasFlag flags .pdeBit13 && decide (13 = i)) := by
  have hbit : ∀ k, (1#64 <<< k).getLsbD i = decide (k = i) := by
    intro k
    rw [← BitVec.twoPow_eq, BitVec.getLsbD_twoPow]
    rcases eq_or_ne k i with rfl | hne
    · simp [hi]
    · simp [hne]
  simp only [acPde, ptAccessedMask, ptDirtyMask, two_shift, base_pde, getLsbD_orIf _ _ hi]
  cases hasFlag flags .pdePse <;>
    simp only [Bool.not_true, Bool.not_false, Bool.false_eq_true, if_true, if_false,
      getLsbD_orIf _ _ hi, BitVec.getLsbD_or, hbit]

/-- The bits of the table entry. -/
theorem getLsbD_acPte (flags : BitVec 32) {i : ℕ} (hi : i < 64) :
    (acPte flags).getLsbD i =
      (decide (25 = i) || hasFlag flags .pkuPkey && decide (59 = i) ||
        hasFlag flags .ptePresent && decide (0 = i) ||
        hasFlag flags .pteWritable && decide (1 = i) ||
        hasFlag flags .pteUser && decide (2 = i) || hasFlag flags .pteAccessed && decide (5 = i) ||
        hasFlag flags .pteDirty && decide (6 = i) || hasFlag flags .pteNx && decide (63 = i) ||
        hasFlag flags .pteBit51 && decide (51 = i)) := by
  have hbit : (1#64 <<< 25).getLsbD i = decide (25 = i) := by
    rw [← BitVec.twoPow_eq, BitVec.getLsbD_twoPow]
    rcases eq_or_ne 25 i with rfl | hne
    · simp
    · simp [hne]
  simp only [acPte, ptAccessedMask, ptDirtyMask, base_pte, getLsbD_orIf _ _ hi, hbit]

/-- The key of an entry with a key of 0 or 1. -/
theorem key_eq {e : PageEntry} {b : Bool} (h₅₉ : e.getLsbD 59 = b)
    (hrest : ∀ i, 59 < i → i < 63 → e.getLsbD i = false) : e.key = if b then 1 else 0 := by
  have hextract : e.extractLsb' 59 4 = if b then 1#4 else 0#4 := by
    refine BitVec.eq_of_getLsbD_eq fun i hi => ?_
    rw [BitVec.getLsbD_extractLsb', decide_eq_true hi, Bool.true_and]
    rcases Nat.eq_zero_or_pos i with rfl | hpos
    · rw [h₅₉]
      cases b <;> rfl
    · rw [hrest _ (by omega) (by omega)]
      cases b <;> simp [hpos.ne']
  rw [PageEntry.key, hextract]
  cases b <;> rfl

/-- The bits of the directory entry besides those of its address. -/
theorem acPde_bit (flags : BitVec 32) {pt : BitVec 64} (hpt : PoolPage pt) {i : ℕ} (hi : i < 64)
    (hflag : i < 12 ∨ 27 ≤ i) :
    (acPde flags pt).getLsbD i =
      (hasFlag flags .pdePse && decide (7 = i) ||
        hasFlag flags .pkuPkey && (hasFlag flags .pdePse && decide (59 = i) ||
          !hasFlag flags .pdePse && decide (60 = i)) ||
        hasFlag flags .pdePresent && decide (0 = i) ||
        hasFlag flags .pdeWritable && decide (1 = i) ||
        hasFlag flags .pdeUser && decide (2 = i) || hasFlag flags .pdeAccessed && decide (5 = i) ||
        hasFlag flags .pdeDirty && decide (6 = i) || hasFlag flags .pdeNx && decide (63 = i) ||
        hasFlag flags .pdeBit51 && decide (51 = i)) := by
  have hzero : pt.getLsbD i = false := hflag.elim (hpt.aligned i) (hpt.below i)
  have h₂₅ : decide (25 = i) = false := decide_eq_false (by omega)
  have h₁₃ : decide (13 = i) = false := decide_eq_false (by omega)
  rw [getLsbD_acPde _ _ hi, hzero, h₂₅, h₁₃]
  cases hasFlag flags .pdePse <;> simp

/-- The words of a configuration have its bits. -/
theorem agrees_words {flags : BitVec 32} {pt : BitVec 64} {maxphyaddr : ℕ} (hpt : PoolPage pt)
    (hlow : 27 ≤ maxphyaddr) : Agrees flags maxphyaddr (acPde flags pt) (acPte flags) where
  directory :=
    { present := (acPde_bit flags hpt (by omega) (by omega)).trans (by simp)
      writable := (acPde_bit flags hpt (by omega) (by omega)).trans (by simp)
      user := (acPde_bit flags hpt (by omega) (by omega)).trans (by simp)
      nx := (acPde_bit flags hpt (by omega) (by omega)).trans (by simp)
      bit51 := (acPde_bit flags hpt (by omega) (by omega)).trans (by simp)
      address := fun i hi hi' => by
        rw [acPde_bit flags hpt (by omega) (by omega)]
        have hne : ∀ k, k ≤ 13 ∨ 51 ≤ k → decide (k = i) = false :=
          fun k hk => decide_eq_false (by omega)
        simp [hne] }
  large := (acPde_bit flags hpt (by omega) (by omega)).trans (by simp)
  accessed ha := (acPde_bit flags hpt (by omega) (by omega)).trans (by simp [ha])
  largePage hp := by
    refine ⟨?_, fun i hi hi' => ?_, ?_⟩
    · rw [getLsbD_acPde _ _ (by omega)]
      simp [hp]
    · rw [getLsbD_acPde _ _ (by omega)]
      have hne : ∀ k, k ≤ 13 ∨ 21 ≤ k → decide (k = i) = false :=
        fun k hk => decide_eq_false (by omega)
      simp [hp, hne]
    · have h₅₉ := acPde_bit flags hpt (i := 59) (by omega) (by omega)
      refine key_eq (by simpa [hp] using h₅₉) fun i hi hi' => ?_
      rw [acPde_bit flags hpt (by omega) (by omega)]
      have hne : ∀ k, k ≤ 59 ∨ 63 ≤ k → decide (k = i) = false :=
        fun k hk => decide_eq_false (by omega)
      simp [hp, hne]
  table _ := by
    refine ⟨⟨?_, ?_, ?_, ?_, ?_, fun i hi hi' => ?_⟩, ?_⟩
    · exact (getLsbD_acPte flags (by omega)).trans (by simp)
    · exact (getLsbD_acPte flags (by omega)).trans (by simp)
    · exact (getLsbD_acPte flags (by omega)).trans (by simp)
    · exact (getLsbD_acPte flags (by omega)).trans (by simp)
    · exact (getLsbD_acPte flags (by omega)).trans (by simp)
    · rw [getLsbD_acPte flags (by omega)]
      have hne : ∀ k, k ≤ 25 ∨ 51 ≤ k → decide (k = i) = false :=
        fun k hk => decide_eq_false (by omega)
      simp [hne]
    · have h₅₉ := getLsbD_acPte flags (i := 59) (by omega)
      refine key_eq (by simpa using h₅₉) fun i hi hi' => ?_
      rw [getLsbD_acPte flags (by omega)]
      have hne : ∀ k, k ≤ 59 ∨ 63 ≤ k → decide (k = i) = false :=
        fun k hk => decide_eq_false (by omega)
      simp [hne]

/-! ## The setup -/

/-- The memory, by the addresses of entries, with `pt_pool_current` and the pointers that are set.
The room that is left is checked before any page is taken, so the counter does not overflow. -/
structure Setup where
  mem : BitVec 64 → BitVec 64
  current : ℕ
  pdep : Option (BitVec 64)
  ptep : Option (BitVec 64)

/-- `pt_pool`. -/
def ptPool : ℕ := 33 * 1024 * 1024

/-- `pt_pool_size`. -/
def ptPoolSize : ℕ := 120 * 1024 * 1024 - ptPool

/-- `ac_test_alloc_pt`. -/
def acTestAllocPt (s : Setup) : BitVec 64 × Setup :=
  (BitVec.ofNat 64 (ptPool + s.current), { s with current := s.current + 4096 })

/-- `ac_test_enough_room`. -/
def acTestEnoughRoom (s : Setup) : Bool :=
  s.current + 5 * 4096 ≤ ptPoolSize

/-- `PT_INDEX`. -/
def ptIndex (address : BitVec 64) (level : ℕ) : BitVec 64 :=
  (address >>> (12 + (level - 1) * 9)) &&& 511

/-- The address of `vroot[index]`. -/
def entryAt (root virt : BitVec 64) (level : ℕ) : BitVec 64 :=
  (root &&& ptBaseAddrMask) + 8 * ptIndex virt level

/-- The word of a level above the directory. -/
def upperWord (x : BitVec 64) : BitVec 64 :=
  x ||| (1#64 <<< 0 ||| 1#64 <<< 1 ||| 1#64 <<< 2)

/-- The word that the turn for a level writes, and what else it does. -/
def setupWord (flags : BitVec 32) (a : BitVec 64) (level : ℕ) (s : Setup) : BitVec 64 × Setup :=
  if level = 1 then (acPte flags, { s with ptep := some a })
  else if level = 2 then
    if hasFlag flags .pdePse then (acPde flags 0, { s with pdep := some a })
    else
      let r := acTestAllocPt s
      (acPde flags r.1, { r.2 with pdep := some a })
  else
    let r := acTestAllocPt s
    (upperWord r.1, r.2)

/-- The loop of `__ac_setup_specific_pages`, from a level on. -/
def setupLoop (flags : BitVec 32) (virt : BitVec 64) : ℕ → BitVec 64 → Bool → Setup → Setup
  | 0, _, _, s => s
  | i + 1, root, skip, s =>
    if 2 ≤ i + 1 ∨ hasFlag flags .pdePse = false then
      let a := entryAt root virt (i + 1)
      if skip = true ∧ 2 ≤ i + 1 ∧ ptIndex virt (i + 1) = 0 then
        setupLoop flags virt i (s.mem a) skip s
      else
        let r := setupWord flags a (i + 1) s
        setupLoop flags virt i r.1 false { r.2 with mem := Function.update r.2.mem a r.1 }
    else s

/-- `__ac_setup_specific_pages` without pages of the caller's. -/
def acSetupPages (flags : BitVec 32) (virt cr3 : BitVec 64) (levels : ℕ) (s : Setup) : Setup :=
  let s := if !acTestEnoughRoom s then { s with current := 0 } else s
  setupLoop flags virt levels cr3 true { s with ptep := none }

/-! ### Addresses -/

/-- The table that an entry points to. -/
def tableOf (e : BitVec 64) : ℕ :=
  (e &&& ptBaseAddrMask).toNat

theorem getLsbD_ptBaseAddrMask {i : ℕ} (hi : i < 64) :
    ptBaseAddrMask.getLsbD i = decide (12 ≤ i ∧ i < 40) := by
  revert i
  decide

theorem getLsbD_tableOf (e : BitVec 64) {i : ℕ} (hi : i < 64) :
    (e &&& ptBaseAddrMask).getLsbD i = (decide (12 ≤ i ∧ i < 40) && e.getLsbD i) := by
  rw [BitVec.getLsbD_and, getLsbD_ptBaseAddrMask hi, Bool.and_comm]

theorem tableOf_mod (e : BitVec 64) : tableOf e % 4096 = 0 := by
  refine toNat_mod_two_pow_eq_zero_iff (n := 12) |>.mpr fun i hi => ?_
  rw [getLsbD_tableOf e (by omega)]
  simp [hi]

theorem tableOf_lt (e : BitVec 64) : tableOf e < 2 ^ 40 := by
  refine Nat.lt_pow_two_of_testBit _ fun i hi => ?_
  rcases lt_or_ge i 64 with hlt | hge
  · have hbit := getLsbD_tableOf e hlt
    rw [BitVec.getLsbD] at hbit
    rw [tableOf, hbit]
    simp [hi]
  · exact BitVec.getLsbD_of_ge _ _ hge

theorem toNat_ptIndex_lt (virt : BitVec 64) (level : ℕ) : (ptIndex virt level).toNat < 512 := by
  rw [ptIndex, BitVec.toNat_and]
  exact (Nat.and_le_right).trans_lt (by decide)

theorem toNat_entryAt (root virt : BitVec 64) (level : ℕ) :
    (entryAt root virt level).toNat = tableOf root + 8 * (ptIndex virt level).toNat := by
  have ht := tableOf_lt root
  have hi := toNat_ptIndex_lt virt level
  have hmul : (8 * ptIndex virt level).toNat = 8 * (ptIndex virt level).toNat := by
    rw [BitVec.toNat_mul]
    exact Nat.mod_eq_of_lt (show 8 * (ptIndex virt level).toNat < 2 ^ 64 by omega)
  rw [entryAt, BitVec.toNat_add, hmul]
  exact Nat.mod_eq_of_lt (show tableOf root + 8 * (ptIndex virt level).toNat < 2 ^ 64 by omega)

/-- A page that the pool gives out. -/
theorem poolPage_ofNat {current : ℕ} (halign : current % 4096 = 0)
    (hroom : current + 4096 ≤ ptPoolSize) : PoolPage (BitVec.ofNat 64 (ptPool + current)) ∧
      (BitVec.ofNat 64 (ptPool + current)).toNat = ptPool + current := by
  have hlt : ptPool + current < 2 ^ 27 := by
    unfold ptPoolSize ptPool at *
    omega
  have hnat : (BitVec.ofNat 64 (ptPool + current)).toNat = ptPool + current := by
    rw [BitVec.toNat_ofNat]
    exact Nat.mod_eq_of_lt (hlt.trans (by decide))
  refine ⟨⟨?_, fun i hi => ?_⟩, hnat⟩
  · refine toNat_mod_two_pow_eq_zero_iff.mp ?_
    rw [hnat]
    unfold ptPool
    omega
  · rw [BitVec.getLsbD, hnat]
    exact Nat.testBit_eq_false_of_lt (hlt.trans_le (Nat.pow_le_pow_right (by omega) hi))

theorem poolPage_zero : PoolPage 0 :=
  ⟨fun _ _ => BitVec.getLsbD_zero, fun _ _ => BitVec.getLsbD_zero⟩

/-- An entry with the address of a page of the pool. -/
theorem tableOf_eq {e x : BitVec 64} (hx : PoolPage x)
    (hbits : ∀ i, 12 ≤ i → i < 40 → e.getLsbD i = x.getLsbD i) : tableOf e = x.toNat := by
  have heq : e &&& ptBaseAddrMask = x := by
    refine BitVec.eq_of_getLsbD_eq fun i hi => ?_
    rw [getLsbD_tableOf e hi]
    rcases lt_or_ge i 12 with h | h
    · simp [hx.aligned i h, show ¬ 12 ≤ i by omega]
    · rcases lt_or_ge i 40 with h' | h'
      · simp [h, h', hbits i h h']
      · simp [hx.below i (by omega), show ¬ i < 40 by omega]
  rw [tableOf, heq]

theorem getLsbD_upperWord (x : BitVec 64) {i : ℕ} (hi : i < 64) :
    (upperWord x).getLsbD i = (x.getLsbD i || decide (i < 3)) := by
  have hseven : (1#64 <<< 0 ||| 1#64 <<< 1 ||| 1#64 <<< 2).getLsbD i = decide (i < 3) := by
    revert i
    decide
  rw [upperWord, BitVec.getLsbD_or, hseven]

theorem tableOf_upperWord {x : BitVec 64} (hx : PoolPage x) : tableOf (upperWord x) = x.toNat := by
  refine tableOf_eq hx fun i hi hi' => ?_
  rw [getLsbD_upperWord x (by omega)]
  simp [show ¬ i < 3 by omega]

/-- The entry of a directory points to its table, unless bit 13 is asked for. -/
theorem tableOf_acPde {flags : BitVec 32} (hlegal : acTestLegal flags = true)
    (hsmall : hasFlag flags .pdePse = false) {x : BitVec 64} (hx : PoolPage x) :
    tableOf (acPde flags x) = x.toNat := by
  have h₁₃ : hasFlag flags .pdeBit13 = false := by
    unfold acTestLegal at hlegal
    simp_all
  refine tableOf_eq hx fun i hi hi' => ?_
  have hne : ∀ k, k < 12 ∨ 40 ≤ k → decide (k = i) = false := fun k hk => decide_eq_false (by omega)
  rw [getLsbD_acPde _ _ (by omega)]
  simp [hsmall, h₁₃, hne]

/-! ### The walk -/

/-- An entry above the directory that allows everything and has no reserved bit set. -/
structure Permissive (maxphyaddr : ℕ) (e : PageEntry) : Prop where
  present : e.present = true
  writable : e.writable = true
  user : e.user = true
  executable : e.nx = false
  small : e.large = false
  address : ∀ i, maxphyaddr ≤ i → i < 52 → e.getLsbD i = false

/-- From the table of `root`, the walk comes through entries that allow everything to the entry
`dir` that points to the directory. -/
inductive Reaches (mem : BitVec 64 → BitVec 64) (virt : BitVec 64) (maxphyaddr : ℕ) :
    ℕ → BitVec 64 → BitVec 64 → Prop
  | here (dir : BitVec 64) : Reaches mem virt maxphyaddr 2 dir dir
  | up {level : ℕ} {root dir : BitVec 64} :
      Permissive maxphyaddr (mem (entryAt root virt (level + 1))) →
      Reaches mem virt maxphyaddr level (mem (entryAt root virt (level + 1))) dir →
      Reaches mem virt maxphyaddr (level + 1) root dir

/-- The tables that the loop reuses lie below the pool, and their entries allow everything. It
meets an index other than 0 above the page table. -/
def Reusable (mem : BitVec 64 → BitVec 64) (virt : BitVec 64) (maxphyaddr : ℕ) :
    ℕ → BitVec 64 → Prop
  | 0, _ => False
  | 1, _ => False
  | level + 2, root => tableOf root + 4096 ≤ ptPool ∧ (ptIndex virt (level + 2) = 0 →
      Permissive maxphyaddr (mem (entryAt root virt (level + 2))) ∧
        Reusable mem virt maxphyaddr (level + 1) (mem (entryAt root virt (level + 2))))

/-- The processor finds the entries of the configuration, at the addresses in `pdep` and `ptep`. -/
structure Built (flags : BitVec 32) (virt : BitVec 64) (maxphyaddr level : ℕ) (root : BitVec 64)
    (ptep : Option (BitVec 64)) (s : Setup) (dir pt : BitVec 64) : Prop where
  reaches : Reaches s.mem virt maxphyaddr level root dir
  page : PoolPage pt
  pdep : s.pdep = some (entryAt dir virt 2)
  pde : s.mem (entryAt dir virt 2) = acPde flags pt
  large : hasFlag flags .pdePse = true → s.ptep = ptep
  ptep : hasFlag flags .pdePse = false → s.ptep = some (entryAt (acPde flags pt) virt 1)
  pte : hasFlag flags .pdePse = false → s.mem (entryAt (acPde flags pt) virt 1) = acPte flags

section Loop

variable {flags : BitVec 32} {virt root : BitVec 64} {maxphyaddr level : ℕ} {s : Setup}

theorem permissive_upperWord {x : BitVec 64} (hx : PoolPage x) (hlow : 27 ≤ maxphyaddr) :
    Permissive maxphyaddr (upperWord x) := by
  have hbit : ∀ i, i < 64 → (upperWord x).getLsbD i = (x.getLsbD i || decide (i < 3)) :=
    fun i hi => getLsbD_upperWord x hi
  refine ⟨?_, ?_, ?_, ?_, ?_, fun i hi hi' => ?_⟩
  · rw [PageEntry.present, hbit 0 (by omega)]
    simp
  · rw [PageEntry.writable, hbit 1 (by omega)]
    simp
  · rw [PageEntry.user, hbit 2 (by omega)]
    simp
  · rw [PageEntry.nx, hbit 63 (by omega), hx.below 63 (by omega)]
    rfl
  · rw [PageEntry.large, hbit 7 (by omega), hx.aligned 7 (by omega)]
    rfl
  · rw [hbit i (by omega), hx.below i (by omega)]
    simp [show ¬ i < 3 by omega]

theorem toNat_entryAt_lt (root virt : BitVec 64) (level : ℕ) :
    (entryAt root virt level).toNat < tableOf root + 4096 := by
  have hi := toNat_ptIndex_lt virt level
  rw [toNat_entryAt]
  omega

/-- From the directory on, its entry is written first and that of the table behind it. Below the
pool nothing else changes. -/
theorem built_two (maxphyaddr : ℕ) (hlegal : acTestLegal flags = true) (hcur : s.current % 4096 = 0)
    (hroom : s.current + 4096 ≤ ptPoolSize) (hroot : tableOf root + 4096 ≤ ptPool + s.current) :
    (∃ pt,
      Built flags virt maxphyaddr 2 root s.ptep (setupLoop flags virt 2 root false s) root pt) ∧
      ∀ x : BitVec 64, x.toNat < ptPool + s.current → x ≠ entryAt root virt 2 →
        (setupLoop flags virt 2 root false s).mem x = s.mem x := by
  cases hp : hasFlag flags .pdePse with
  | true =>
    have hloop : setupLoop flags virt 2 root false s =
        { s with
          mem := Function.update s.mem (entryAt root virt 2) (acPde flags 0)
          pdep := some (entryAt root virt 2) } := by
      simp [setupLoop, setupWord, hp]
    rw [hloop]
    refine ⟨⟨0, .here root, poolPage_zero, rfl, ?_, fun _ => rfl, ?_, ?_⟩, fun x _ hne => ?_⟩
    · exact Function.update_self ..
    · exact fun h => absurd (hp.symm.trans h) (by decide)
    · exact fun h => absurd (hp.symm.trans h) (by decide)
    · exact Function.update_of_ne hne ..
  | false =>
    obtain ⟨hpage, hnat⟩ := poolPage_ofNat hcur hroom
    generalize hx : BitVec.ofNat 64 (ptPool + s.current) = pt at hpage hnat
    have hloop : setupLoop flags virt 2 root false s =
        { mem := Function.update
            (Function.update s.mem (entryAt root virt 2) (acPde flags pt))
            (entryAt (acPde flags pt) virt 1) (acPte flags)
          current := s.current + 4096
          pdep := some (entryAt root virt 2)
          ptep := some (entryAt (acPde flags pt) virt 1) } := by
      simp [setupLoop, setupWord, acTestAllocPt, hp, hx]
    have hbehind : ∀ x : BitVec 64, x.toNat < ptPool + s.current →
        x ≠ entryAt (acPde flags pt) virt 1 := by
      rintro x hlt rfl
      rw [toNat_entryAt, tableOf_acPde hlegal hp hpage, hnat] at hlt
      omega
    have hbelow := toNat_entryAt_lt root virt 2
    rw [hloop]
    refine ⟨⟨pt, .here root, hpage, rfl, ?_, ?_, fun _ => rfl, fun _ => ?_⟩, fun x hlt hne => ?_⟩
    · exact (Function.update_of_ne (hbehind _ (by omega)) ..).trans (Function.update_self ..)
    · exact fun h => absurd (hp.symm.trans h) (by decide)
    · exact Function.update_self ..
    · exact (Function.update_of_ne (hbehind x hlt) ..).trans (Function.update_of_ne hne ..)

/-- The turn for a level above the directory. -/
theorem loop_upper {i : ℕ} (hi : 2 ≤ i) :
    setupLoop flags virt (i + 1) root false s =
      setupLoop flags virt i (upperWord (BitVec.ofNat 64 (ptPool + s.current))) false
        { s with
          mem := Function.update s.mem (entryAt root virt (i + 1))
            (upperWord (BitVec.ofNat 64 (ptPool + s.current)))
          current := s.current + 4096 } := by
  have h₁ : i ≠ 0 := by omega
  have h₂ : i ≠ 1 := by omega
  rw [setupLoop, if_pos (Or.inl (by omega))]
  simp [setupWord, acTestAllocPt, h₁, h₂]

/-- From a level where no table is reused, the loop hangs in pages of the pool. -/
theorem built_of_pool (hlegal : acTestLegal flags = true) (hlow : 27 ≤ maxphyaddr) :
    ∀ {i : ℕ} {root : BitVec 64} {s : Setup}, s.current % 4096 = 0 →
      s.current + (i + 1) * 4096 ≤ ptPoolSize → tableOf root + 4096 ≤ ptPool + s.current →
      (∃ dir pt, Built flags virt maxphyaddr (i + 2) root s.ptep
        (setupLoop flags virt (i + 2) root false s) dir pt) ∧
      ∀ x : BitVec 64, x.toNat < ptPool + s.current → x ≠ entryAt root virt (i + 2) →
        (setupLoop flags virt (i + 2) root false s).mem x = s.mem x
  | 0, root, s, hcur, hroom, hroot => by
    obtain ⟨⟨pt, hb⟩, hframe⟩ := built_two maxphyaddr hlegal hcur (by omega) hroot
    exact ⟨⟨root, pt, hb⟩, hframe⟩
  | i + 1, root, s, hcur, hroom, hroot => by
    obtain ⟨hpage, hnat⟩ := poolPage_ofNat hcur (by omega)
    rw [loop_upper (by omega)]
    generalize BitVec.ofNat 64 (ptPool + s.current) = x at hpage hnat
    have htable : tableOf (upperWord x) = ptPool + s.current :=
      (tableOf_upperWord hpage).trans hnat
    obtain ⟨⟨dir, pt, hb⟩, hframe⟩ := built_of_pool hlegal hlow (i := i)
      (s := { s with
        mem := Function.update s.mem (entryAt root virt (i + 3)) (upperWord x)
        current := s.current + 4096 })
      (show (s.current + 4096) % 4096 = 0 by omega)
      (show s.current + 4096 + (i + 1) * 4096 ≤ ptPoolSize by omega)
      (show tableOf (upperWord x) + 4096 ≤ ptPool + (s.current + 4096) by omega)
    have hkeep : ∀ y : BitVec 64, y.toNat < ptPool + s.current → _ = _ := fun y hy =>
      hframe y (show y.toNat < ptPool + (s.current + 4096) by omega) (by
        rintro rfl
        rw [toNat_entryAt, htable] at hy
        omega)
    have hbelow := toNat_entryAt_lt root virt (i + 3)
    have hentry := (hkeep _ (by omega)).trans (Function.update_self ..)
    refine ⟨⟨dir, pt, ?_, hb.page, hb.pdep, hb.pde, hb.large, hb.ptep, hb.pte⟩, fun y hy hne => ?_⟩
    · refine .up ?_ ?_
      · rw [hentry]
        exact permissive_upperWord hpage hlow
      · rw [hentry]
        exact hb.reaches
    · exact (hkeep y hy).trans (Function.update_of_ne hne ..)

theorem loop_written {i : ℕ} {skip : Bool} (h : ¬ (skip = true ∧ ptIndex virt (i + 2) = 0)) :
    setupLoop flags virt (i + 2) root skip s =
      setupLoop flags virt (i + 1) (setupWord flags (entryAt root virt (i + 2)) (i + 2) s).1 false
        { (setupWord flags (entryAt root virt (i + 2)) (i + 2) s).2 with
          mem := Function.update (setupWord flags (entryAt root virt (i + 2)) (i + 2) s).2.mem
            (entryAt root virt (i + 2))
            (setupWord flags (entryAt root virt (i + 2)) (i + 2) s).1 } := by
  rw [setupLoop, if_pos (Or.inl (by omega))]
  exact if_neg fun h' => h ⟨h'.1, h'.2.2⟩

theorem loop_reused {i : ℕ} (hindex : ptIndex virt (i + 2) = 0) :
    setupLoop flags virt (i + 2) root true s =
      setupLoop flags virt (i + 1) (s.mem (entryAt root virt (i + 2))) true s := by
  rw [setupLoop, if_pos (Or.inl (by omega))]
  exact if_pos ⟨rfl, by omega, hindex⟩

/-- At the first index that is not 0, the loop stops to reuse. -/
theorem built_not_reused (hlegal : acTestLegal flags = true) (hlow : 27 ≤ maxphyaddr)
    (hcur : s.current % 4096 = 0) {i : ℕ} (hroot : tableOf root + 4096 ≤ ptPool)
    (hroom : s.current + (i + 1) * 4096 ≤ ptPoolSize) (hindex : ptIndex virt (i + 2) ≠ 0) :
    (∃ dir pt, Built flags virt maxphyaddr (i + 2) root s.ptep
      (setupLoop flags virt (i + 2) root true s) dir pt) ∧
      ∀ x : BitVec 64, x.toNat < ptPool → x.toNat % 4096 = 0 →
        (setupLoop flags virt (i + 2) root true s).mem x = s.mem x := by
  have hloop : setupLoop flags virt (i + 2) root true s =
      setupLoop flags virt (i + 2) root false s := by
    have h₁ : ¬ (true = true ∧ ptIndex virt (i + 2) = 0) := fun h => hindex h.2
    have h₂ : ¬ (false = true ∧ ptIndex virt (i + 2) = 0) := fun h => Bool.false_ne_true h.1
    rw [loop_written h₁, loop_written h₂]
  have hroot' : tableOf root + 4096 ≤ ptPool + s.current := by omega
  rw [hloop]
  refine ⟨(built_of_pool hlegal hlow hcur hroom hroot').1, fun x hlt hmod => ?_⟩
  refine (built_of_pool hlegal hlow hcur hroom hroot').2 x (by omega) ?_
  rintro rfl
  have htable := tableOf_mod root
  have hlt' := toNat_ptIndex_lt virt (i + 2)
  rw [toNat_entryAt] at hmod
  exact hindex (BitVec.eq_of_toNat_eq (show (ptIndex virt (i + 2)).toNat = 0 by omega))

/-- The reused entries, which have index 0, are not written. -/
theorem built_of_reusable (hlegal : acTestLegal flags = true) (hlow : 27 ≤ maxphyaddr)
    (hcur : s.current % 4096 = 0) :
    ∀ {i : ℕ} {root : BitVec 64}, Reusable s.mem virt maxphyaddr (i + 2) root →
      s.current + (i + 1) * 4096 ≤ ptPoolSize →
      (∃ dir pt, Built flags virt maxphyaddr (i + 2) root s.ptep
        (setupLoop flags virt (i + 2) root true s) dir pt) ∧
      ∀ x : BitVec 64, x.toNat < ptPool → x.toNat % 4096 = 0 →
        (setupLoop flags virt (i + 2) root true s).mem x = s.mem x := by
  intro i
  induction i with
  | zero =>
    intro root h hroom
    by_cases hindex : ptIndex virt 2 = 0
    · exact (h.2 hindex).2.elim
    · exact built_not_reused hlegal hlow hcur h.1 hroom hindex
  | succ i ih =>
    intro root h hroom
    have hroom' : s.current + (i + 1) * 4096 ≤ ptPoolSize :=
      (Nat.add_le_add_left (Nat.mul_le_mul_right _ (Nat.le_succ _)) _).trans hroom
    by_cases hindex : ptIndex virt (i + 3) = 0
    · obtain ⟨hperm, hreuse⟩ := h.2 hindex
      obtain ⟨⟨dir, pt, hb⟩, hframe⟩ := ih hreuse hroom'
      have hnat : (entryAt root virt (i + 3)).toNat = tableOf root := by
        rw [toNat_entryAt, hindex]
        rfl
      have hroot := h.1
      have hentry := hframe (entryAt root virt (i + 3)) (by omega) (by rw [hnat, tableOf_mod])
      rw [loop_reused hindex]
      refine ⟨⟨dir, pt, .up ?_ ?_, hb.page, hb.pdep, hb.pde, hb.large, hb.ptep, hb.pte⟩, hframe⟩
      · rw [hentry]
        exact hperm
      · rw [hentry]
        exact hb.reaches
    · exact built_not_reused hlegal hlow hcur h.1 hroom hindex

end Loop

/-- After `__ac_setup_specific_pages`, the processor's walk from the root comes to the entries that
`pdep` and `ptep` point to, through entries that allow everything. -/
theorem setup_walk {flags : BitVec 32} {virt cr3 : BitVec 64} {maxphyaddr levels : ℕ} {s : Setup}
    (hlegal : acTestLegal flags = true) (hlow : 27 ≤ maxphyaddr) (hcur : s.current % 4096 = 0)
    (hlevels : levels ≤ 5) (hreuse : Reusable s.mem virt maxphyaddr levels cr3) :
    ∃ dir pt, Built flags virt maxphyaddr levels cr3 none (acSetupPages flags virt cr3 levels s)
      dir pt := by
  have hroom : ∃ c, c % 4096 = 0 ∧ c + 5 * 4096 ≤ ptPoolSize ∧
      (if !acTestEnoughRoom s then { s with current := 0 } else s) = { s with current := c } := by
    by_cases h : s.current + 5 * 4096 ≤ ptPoolSize
    · exact ⟨s.current, hcur, h, by simp [acTestEnoughRoom, h]⟩
    · exact ⟨0, by omega, by decide, by simp [acTestEnoughRoom, h]⟩
  obtain ⟨c, hc, hsize, hs⟩ := hroom
  obtain ⟨i, rfl⟩ : ∃ i, levels = i + 2 := by
    match levels, hreuse with
    | i + 2, _ => exact ⟨i, rfl⟩
  have hsize' : c + (i + 1) * 4096 ≤ ptPoolSize :=
    (Nat.add_le_add_left (Nat.mul_le_mul_right _ (by omega)) _).trans hsize
  have hb := (built_of_reusable (s := { s with current := c, ptep := none }) hlegal hlow hc
    hreuse hsize').1
  unfold acSetupPages
  rw [hs]
  exact hb

/-! ## One access on fresh tables -/

section Exec

variable {flags pkru : BitVec 32} {maxphyaddr : ℕ} {pde pte : PageEntry} {o : Seen}

/-- Two entries that differ in the accessed flag only, and the second of which does not have it. -/
theorem of_or_accessedBit {p q : PageEntry} (h : p ||| accessedBit = q ||| accessedBit)
    (hq : q.getLsbD 5 = false) : p = q ∨ p = q ||| accessedBit := by
  have hbit : ∀ i, i ≠ 5 → p.getLsbD i = q.getLsbD i := by
    intro i hi
    have hor := congrArg (fun b : PageEntry => b.getLsbD i) h
    simpa [accessedBit, BitVec.getLsbD_twoPow, hi.symm] using hor
  cases hp : p.getLsbD 5 with
  | true => exact Or.inr ((or_eq_self hp).symm.trans h)
  | false =>
    refine Or.inl (BitVec.eq_of_getLsbD_eq fun i _ => ?_)
    rcases eq_or_ne i 5 with rfl | hi
    · rw [hp, hq]
    · exact hbit i hi

/-- Without a second access, an entry whose accessed flag is the configuration's has none to lose,
and if the processor uses it, a fault may set it. -/
theorem checks_iff_fresh (pkru : BitVec 32) (hlegal : acTestLegal flags = true)
    (hwidth : maxphyaddr ≤ 51) (h : Agrees flags maxphyaddr pde pte)
    (honce : hasFlag flags .accessTwice = false)
    (hfresh : pde.getLsbD 5 = hasFlag flags .pdeAccessed)
    (husable : (modeOf flags pkru maxphyaddr).usable pde = true)
    (hplace : hasFlag flags .pdePse = true → o.pte = pte) :
    acTestChecks flags (acSetExpectedStatus flags pde pte) o = true ↔
      Access (modeOf flags pkru maxphyaddr) (accessOf flags) pde pte o.fault o.pde o.pte := by
  have hallowed : ∀ o, Allowed flags pkru maxphyaddr pde pte o ↔
      Access (modeOf flags pkru maxphyaddr) (accessOf flags) pde pte o.fault o.pde o.pte := by
    intro o
    simp [Allowed, honce]
  simp only [checks_iff pkru hlegal hwidth h hplace, hallowed, or_iff_left_iff_imp]
  rintro ⟨hfault, hacc, q, hq, ha⟩
  obtain ⟨e, he⟩ := Option.isSome_iff_exists.mp hfault
  rw [he] at ha ⊢
  obtain ⟨hf, hp, ht⟩ := access_some_iff.mp ha
  refine access_some_iff.mpr ⟨hf, ?_, ht⟩
  have hset : o.pde ||| accessedBit = pde ||| accessedBit := by
    rw [← hq]
    rcases hp with rfl | ⟨-, rfl⟩
    · rfl
    · rw [BitVec.or_assoc, BitVec.or_self]
  exact (of_or_accessedBit hset (hfresh.trans hacc)).imp id fun hp => ⟨husable, hp⟩

/-- A large page does not need the entry of the table to have the bits of the configuration. -/
theorem Agrees.of_large (h : Agrees flags maxphyaddr pde pte) (hp : hasFlag flags .pdePse = true)
    (e : PageEntry) : Agrees flags maxphyaddr pde e :=
  { h with table := fun hsmall => absurd (hp.symm.trans hsmall) (by decide) }

/-- On fresh tables, the checks accept what the architecture allows for the entries that the
processor's walk comes to. If the configuration does not ask for the accessed flag of the directory
entry, then after a fault they also accept another one : with two accesses a flag that was lost, and
with an entry that the processor does not use one that was set. -/
theorem exec_iff {virt cr3 : BitVec 64} {levels : ℕ} {s : Setup} (hlegal : acTestLegal flags = true)
    (hlow : 27 ≤ maxphyaddr) (hwidth : maxphyaddr ≤ 51) (hcur : s.current % 4096 = 0)
    (hlevels : levels ≤ 5) (hreuse : Reusable s.mem virt maxphyaddr levels cr3) :
    ∃ dir pde pte,
      Reaches (acSetupPages flags virt cr3 levels s).mem virt maxphyaddr levels cr3 dir ∧
      (acSetupPages flags virt cr3 levels s).pdep = some (entryAt dir virt 2) ∧
      (acSetupPages flags virt cr3 levels s).mem (entryAt dir virt 2) = pde ∧
      (acSetupPages flags virt cr3 levels s).ptep =
        (if hasFlag flags .pdePse then none else some (entryAt pde virt 1)) ∧
      (acSetupPages flags virt cr3 levels s).mem (entryAt pde virt 1) = pte ∧
      ∀ o : Seen, (hasFlag flags .pdePse = true → o.pte = pte) →
        (acTestChecks flags (acSetExpectedStatus flags pde pte) o = true ↔
          Allowed flags pkru maxphyaddr pde pte o ∨
            (hasFlag flags .accessTwice = true ∨
              (modeOf flags pkru maxphyaddr).usable pde = false) ∧
              o.fault.isSome = true ∧ hasFlag flags .pdeAccessed = false ∧
              ∃ p, p ||| accessedBit = o.pde ||| accessedBit ∧
                Allowed flags pkru maxphyaddr pde pte { o with pde := p }) := by
  obtain ⟨dir, pt, hb⟩ := setup_walk hlegal hlow hcur hlevels hreuse
  have hfresh : (acPde flags pt).getLsbD 5 = hasFlag flags .pdeAccessed :=
    (acPde_bit flags hb.page (by omega) (by omega)).trans (by simp)
  have hwords : Agrees flags maxphyaddr (acPde flags pt) (acPte flags) :=
    agrees_words hb.page hlow
  have hagrees : Agrees flags maxphyaddr (acPde flags pt)
      ((acSetupPages flags virt cr3 levels s).mem (entryAt (acPde flags pt) virt 1)) := by
    cases hp : hasFlag flags .pdePse with
    | true => exact hwords.of_large hp _
    | false => exact hb.pte hp ▸ hwords
  refine ⟨dir, _, _, hb.reaches, hb.pdep, hb.pde, ?_, rfl, fun o hplace => ?_⟩
  · cases hp : hasFlag flags .pdePse with
    | true => exact hb.large hp
    | false => exact hb.ptep hp
  · cases honce : hasFlag flags .accessTwice with
    | true => simpa using checks_iff pkru hlegal hwidth hagrees hplace
    | false =>
      cases husable : (modeOf flags pkru maxphyaddr).usable (acPde flags pt) with
      | false => simpa using checks_iff pkru hlegal hwidth hagrees hplace
      | true =>
        have hone := checks_iff_fresh pkru hlegal hwidth hagrees honce hfresh husable hplace
        simpa [Allowed, honce] using hone

/-- A read of a page of 4 levels that is present, with the root in the second page. -/
theorem exec_iff_read : ∃ dir pde pte,
    Reaches (acSetupPages 0x81 0x123400000000 0x1000 4 ⟨fun _ => 0, 0, none, none⟩).mem
        0x123400000000 36 4 0x1000 dir ∧
      (acSetupPages 0x81 0x123400000000 0x1000 4 ⟨fun _ => 0, 0, none, none⟩).pdep =
        some (entryAt dir 0x123400000000 2) ∧
      (acSetupPages 0x81 0x123400000000 0x1000 4 ⟨fun _ => 0, 0, none, none⟩).mem
        (entryAt dir 0x123400000000 2) = pde ∧
      (acSetupPages 0x81 0x123400000000 0x1000 4 ⟨fun _ => 0, 0, none, none⟩).ptep =
        (if hasFlag 0x81 .pdePse then none else some (entryAt pde 0x123400000000 1)) ∧
      (acSetupPages 0x81 0x123400000000 0x1000 4 ⟨fun _ => 0, 0, none, none⟩).mem
        (entryAt pde 0x123400000000 1) = pte ∧
      ∀ o : Seen, (hasFlag 0x81 .pdePse = true → o.pte = pte) →
        (acTestChecks 0x81 (acSetExpectedStatus 0x81 pde pte) o = true ↔
          Allowed 0x81 0 36 pde pte o ∨
            (hasFlag 0x81 .accessTwice = true ∨ (modeOf 0x81 0 36).usable pde = false) ∧
              o.fault.isSome = true ∧ hasFlag 0x81 .pdeAccessed = false ∧
              ∃ p, p ||| accessedBit = o.pde ||| accessedBit ∧
                Allowed 0x81 0 36 pde pte { o with pde := p }) :=
  exec_iff (by decide) (by decide) (by decide) (by decide) (by decide)
    ⟨by decide, fun h => absurd h (by decide)⟩

end Exec

end AccessTest

end AcrnUt
