import AcrnUt.Pci

/-!
# Reading and writing BARs

What the functions of `lib/pci.c` compute from the registers of a function : the kind and
the size of a BAR are those of the layout (`pciBarIs64_eq`, `pciBarSize_eq`), the lookup
translates the address that the BAR decodes (`pciBarGetAddr'_eq`), and a write of an
address changes that BAR alone (`PciConf.setBar`).

`pci_bar_set_addr` records its argument, and `pci_dev_init` what the host bridge makes of
the address in the registers. The two agree exactly if the first window that holds the
address translates it to itself (`resource_iff`).
-/

set_option linter.unusedSectionVars false

namespace AcrnUt

theorem assert_eq {p : Prop} [Decidable p] (h : p) : assert p = some () :=
  if_pos h

theorem of_assert {p : Prop} [Decidable p] {u : Unit} (h : assert p = some u) : p := by
  unfold assert at h
  split_ifs at h
  assumption

namespace Bar

/-- The BAR is a 64-bit one. -/
def IsMem64 : Bar → Bool
  | mem64 .. => true
  | _ => false

/-- The BAR decodes I/O space. -/
def IsIo : Bar → Bool
  | io _ => true
  | _ => false

/-- The size of a BAR, zero if there is none. -/
def size : Bar → BitVec 64
  | io bits => 1#64 <<< bits
  | mem32 _ bits => 1#64 <<< bits
  | mem64 _ bits => 1#64 <<< bits
  | _ => 0

/-- The address bits that the BAR decodes. -/
def addrBits : Bar → BitVec 64
  | io bits => addrMask bits
  | mem32 _ bits => addrMask bits
  | mem64 _ bits => addrMask bits
  | _ => 0

theorem exists_io {b : Bar} (h : b.IsIo = true) : ∃ bits, b = io bits := by
  cases b with
  | io bits => exact ⟨bits, rfl⟩
  | _ => cases h

theorem exists_mem64 {b : Bar} (h : b.IsMem64 = true) :
    ∃ prefetch bits, b = mem64 prefetch bits := by
  cases b with
  | mem64 prefetch bits => exact ⟨prefetch, bits, rfl⟩
  | _ => cases h

theorem low_eq (b : Bar) : b.low = if b.IsIo then 3 else 15 := by
  cases b <;> rfl

end Bar

namespace PciConf

variable (c : PciConf)

/-- The BAR at a register. -/
abbrev bar (n : ℕ) : Bar :=
  c.layout.bar n

/-- The address that the BAR at register `n` decodes. -/
def address (n : ℕ) : BitVec 64 :=
  let addr := (c.value n &&& c.layout.mask n).setWidth 64
  if (c.bar n).IsMem64 then addr ||| (c.value (n + 1)).setWidth 64 <<< 32 else addr

end PciConf

section Reads

variable {c : PciConf} {n : ℕ}

theorem pciBarGet_eq (hn : n < 6) : pciBarGet c n = some (c.value n) := by
  unfold pciBarGet
  rw [assert_eq hn]
  rfl

/-- Off the address bits a BAR register reads as the layout says. -/
theorem value_and_of_low (hb : c.bar n ≠ .upper) {x : BitVec 32} (hx : x &&& (c.bar n).low = x) :
    c.value n &&& x = (c.bar n).info &&& x := by
  refine and_eq_of_fixed (c.value_info n) ?_
  rw [c.layout.mask_of_ne_upper hb, ← hx, BitVec.and_assoc, Bar.low_and_mask (c.layout.sized n)]
  exact BitVec.and_zero

theorem value_and_one (hb : c.bar n ≠ .upper) :
    c.value n &&& 1 = if (c.bar n).IsIo then 1 else 0 := by
  rw [value_and_of_low hb (by cases c.bar n <;> simp only [Bar.low] <;> decide)]
  cases c.bar n with
  | mem32 prefetch bits => cases prefetch <;> simp [Bar.info, Bar.IsIo]
  | mem64 prefetch bits => cases prefetch <;> simp [Bar.info, Bar.IsIo]
  | _ => simp [Bar.info, Bar.IsIo]

theorem pciBarMask_eq (hb : c.bar n ≠ .upper) : pciBarMask (c.value n) = ~~~(c.bar n).low := by
  unfold pciBarMask
  rw [value_and_one hb, Bar.low_eq]
  cases (c.bar n).IsIo <;> rfl

/-- The type bits of a memory BAR. -/
theorem value_and_type (hb : c.bar n ≠ .upper) (hio : (c.bar n).IsIo = false) {x : BitVec 32}
    (hx : x &&& 15 = x) : c.value n &&& x = (c.bar n).info &&& x := by
  refine value_and_of_low hb ?_
  rw [Bar.low_eq, hio]
  exact hx

theorem pciBarIs64_eq (hn : n < 6) (hb : c.bar n ≠ .upper) :
    pciBarIs64 c n = some (c.bar n).IsMem64 := by
  unfold pciBarIs64
  rw [pciBarGet_eq hn]
  simp only [Option.bind_eq_bind, Option.bind_some]
  rw [value_and_one hb]
  cases hio : (c.bar n).IsIo with
  | true =>
    obtain ⟨bits, hbar⟩ := Bar.exists_io hio
    rw [hbar]
    rfl
  | false =>
    rw [value_and_type hb hio (by decide)]
    cases c.bar n with
    | mem32 prefetch bits => cases prefetch <;> simp [Bar.info, Bar.IsMem64]
    | mem64 prefetch bits => cases prefetch <;> simp [Bar.info, Bar.IsMem64]
    | _ => simp [Bar.info, Bar.IsMem64]

theorem pciBarIsMemory_eq (hn : n < 6) (hb : c.bar n ≠ .upper) :
    pciBarIsMemory c n = some !(c.bar n).IsIo := by
  unfold pciBarIsMemory
  rw [pciBarGet_eq hn]
  simp only [Option.bind_eq_bind, Option.bind_some]
  rw [value_and_one hb]
  cases (c.bar n).IsIo <;> rfl

/-! ## Sizes -/

theorem PciConf.writeBar_writeBar (v v' : BitVec 32) :
    (c.writeBar n v).writeBar n v' = c.writeBar n v' := by
  unfold PciConf.writeBar
  simp only [Function.update_idem]

theorem PciConf.writeBar_value : c.writeBar n (c.value n) = c := by
  unfold PciConf.writeBar
  simp only [write_self (c.value_info n), Function.update_eq_self]

/-- Sizing a register puts back what it held. -/
theorem pciBarSizeHelper_eq :
    pciBarSizeHelper c n = (c.layout.mask n ||| (c.bar n).info, c) := by
  have hvalue : (c.writeBar n (~~~0)).value n = c.layout.mask n ||| (c.bar n).info := by
    have hones : ~~~(0 : BitVec 32) &&& c.layout.mask n = c.layout.mask n := by
      rw [BitVec.and_comm]
      exact BitVec.and_allOnes
    change Function.update c.value n _ n = _
    rw [Function.update_self, hones]
  unfold pciBarSizeHelper
  simp only [PciConf.writeBar_writeBar, PciConf.writeBar_value, hvalue]

namespace Bar

variable {b : Bar} {bits : ℕ}

/-- The size is the complement of the address bits, plus one. -/
theorem neg_addrMask (bits : ℕ) : ~~~addrMask bits + 1 = 1#64 <<< bits := by
  unfold addrMask
  rw [BitVec.not_not]
  exact BitVec.sub_add_cancel _ _

theorem neg_addrMask_low (hb : bits < 32) :
    (~~~((addrMask bits).setWidth 32) + 1).setWidth 64 = 1#64 <<< bits := by
  have hpow : 2 ^ bits < 2 ^ 32 := Nat.pow_lt_pow_right (by norm_num) hb
  have hnot : ~~~((addrMask bits).setWidth 32) = (~~~addrMask bits).setWidth 32 := by
    ext i hi
    simp only [BitVec.getElem_not, BitVec.getElem_setWidth, BitVec.getLsbD_not]
    simp [show i < 64 by omega]
  have hadd : (~~~addrMask bits).setWidth 32 + 1 = (~~~addrMask bits + 1).setWidth 32 := by
    rw [BitVec.setWidth_add _ _ (by norm_num)]
    rfl
  rw [hnot, hadd, neg_addrMask]
  refine BitVec.eq_of_toNat_eq ?_
  rw [BitVec.toNat_setWidth, BitVec.toNat_setWidth, toNat_one_shiftLeft (by omega),
    Nat.mod_eq_of_lt hpow, Nat.mod_eq_of_lt (hpow.trans (by norm_num))]

theorem mask_and_not_low (hb : b.Sized) : b.mask &&& ~~~b.low = b.mask := by
  have hlow := low_and_mask hb
  rw [BitVec.and_comm] at hlow
  rw [BitVec.and_comm]
  exact not_and_of_and_eq_zero hlow

/-- The register of a BAR does not size as zero. -/
theorem mask_or_info_ne_zero (hb : b.Sized) (hsize : b.size ≠ 0) : b.mask ||| b.info ≠ 0 := by
  have hbit : ∀ {x y : BitVec 32} {i : ℕ}, x.getLsbD i = true ∨ y.getLsbD i = true →
      x ||| y ≠ 0 := by
    intro x y i h hzero
    have hi : (x ||| y).getLsbD i = true := by
      rw [BitVec.getLsbD_or]
      exact Bool.or_eq_true_iff.mpr h
    rw [hzero] at hi
    exact absurd (hi.symm.trans BitVec.getLsbD_zero) (by decide)
  have htop : ∀ {bits}, bits < 32 → ((addrMask bits).setWidth 32).getLsbD 31 = true := by
    intro bits hbits
    rw [BitVec.getLsbD_setWidth, getLsbD_addrMask (by omega) (by norm_num)]
    simp
    omega
  cases b with
  | none => exact absurd rfl hsize
  | upper => exact absurd rfl hsize
  | io bits => exact hbit (Or.inl (htop hb.2))
  | mem32 prefetch bits => exact hbit (Or.inl (htop hb.2))
  | mem64 prefetch bits =>
    refine hbit (i := 2) (Or.inr ?_)
    cases prefetch <;> simp [info]

end Bar

/-- The halves of a 64-bit word. -/
theorem halves (x : BitVec 64) :
    ((x >>> 32).setWidth 32).setWidth 64 <<< 32 ||| (x.setWidth 32).setWidth 64 = x := by
  ext i hi
  simp only [BitVec.getElem_or, BitVec.getElem_shiftLeft, BitVec.getElem_setWidth,
    BitVec.getLsbD_setWidth, BitVec.getLsbD_ushiftRight]
  by_cases h : i < 32
  · simp [h, show i < 64 by omega]
  · simp [h, show i - 32 < 32 by omega, show 32 + (i - 32) = i by omega,
      BitVec.getLsbD_eq_getElem hi]

theorem or_and_not_low (hb : c.bar n ≠ .upper) :
    (c.layout.mask n ||| (c.bar n).info) &&& ~~~(c.bar n).low = (c.bar n).mask := by
  rw [BitVec.and_or_distrib_right, Bar.info_low, c.layout.mask_of_ne_upper hb,
    Bar.mask_and_not_low (c.layout.sized n)]
  exact BitVec.or_zero

theorem Bar.size_ne_zero {bits : ℕ} (hb : bits < 64) : 1#64 <<< bits ≠ 0 := by
  intro h
  have hnat := congrArg BitVec.toNat h
  rw [toNat_one_shiftLeft hb] at hnat
  exact absurd hnat (Nat.two_pow_pos bits).ne'

theorem Bar.Sized.size_ne_zero {b : Bar} (hsized : b.Sized) (hnone : b ≠ .none)
    (hupper : b ≠ .upper) : b.size ≠ 0 := by
  cases b with
  | none => exact absurd rfl hnone
  | upper => exact absurd rfl hupper
  | io bits => exact Bar.size_ne_zero (hsized.2.trans (by norm_num))
  | mem32 prefetch bits => exact Bar.size_ne_zero (hsized.2.trans (by norm_num))
  | mem64 prefetch bits => exact Bar.size_ne_zero hsized.2

/-- `pci_bar_size` finds the size of the BAR, and leaves it as it was. -/
theorem pciBarSize_eq (hn : n < 6) (hb : c.bar n ≠ .upper) :
    pciBarSize c n = some ((c.bar n).size, c) := by
  have hsized : (c.bar n).Sized := c.layout.sized n
  have hmask : c.layout.mask n = (c.bar n).mask := c.layout.mask_of_ne_upper hb
  unfold pciBarSize
  rw [pciBarSizeHelper_eq]
  simp only
  by_cases hnone : c.bar n = .none
  · rw [if_pos (by rw [hmask, hnone]; rfl), hnone]
    rfl
  · have hne : ¬c.layout.mask n ||| (c.bar n).info = 0 := by
      rw [hmask]
      exact Bar.mask_or_info_ne_zero hsized (hsized.size_ne_zero hnone hb)
    rw [if_neg hne, pciBarGet_eq hn, pciBarIs64_eq hn hb]
    simp only [Option.bind_eq_bind, Option.bind_some, pciBarMask_eq hb, or_and_not_low hb]
    cases hbar : c.bar n with
    | none => exact absurd hbar hnone
    | upper => exact absurd hbar hb
    | io bits =>
      rw [hbar] at hsized
      exact congrArg (fun size => some (size, c)) (Bar.neg_addrMask_low hsized.2)
    | mem32 prefetch bits =>
      rw [hbar] at hsized
      exact congrArg (fun size => some (size, c)) (Bar.neg_addrMask_low hsized.2)
    | mem64 prefetch bits =>
      have hupper : c.bar (n + 1) = .upper := (c.layout.upper_succ_iff n).mpr ⟨_, _, hbar⟩
      have hhigh : c.layout.mask (n + 1) ||| (c.bar (n + 1)).info =
          (Bar.addrMask bits >>> 32).setWidth 32 := by
        rw [hupper, c.layout.mask_succ_of_mem64 hbar]
        exact BitVec.or_zero
      simp only [Bar.IsMem64, if_true, pciBarSizeHelper_eq, hhigh, Bar.mask, halves,
        Bar.neg_addrMask]
      rfl

/-! ## The address of a BAR -/

/-- The lookup translates the address that the BAR decodes. -/
theorem pciBarGetAddr'_eq (spaces : List AddrSpace) (hn : n < 6) (hb : c.bar n ≠ .upper) :
    pciBarGetAddr' spaces c n =
      if pciHostBridgeGetPaddr spaces (c.address n) ≠ invalidPhysAddr then
        some (pciHostBridgeGetPaddr spaces (c.address n)) else none := by
  have haddr : c.value n &&& ~~~(c.bar n).low = c.value n &&& c.layout.mask n := by
    have hlow := Bar.low_and_mask (c.layout.sized n)
    rw [BitVec.and_comm, ← c.layout.mask_of_ne_upper hb] at hlow
    exact and_not_eq_of_fixed (c.value_info n) (Bar.info_low _) hlow
  unfold pciBarGetAddr' PciConf.address
  rw [pciBarGet_eq hn, pciBarIs64_eq hn hb]
  simp only [Option.bind_eq_bind, Option.bind_some, pciBarMask_eq hb, haddr]
  cases hbar : (c.bar n).IsMem64 with
  | true =>
    have hsucc : n + 1 < 6 := by
      obtain ⟨prefetch, bits, hb'⟩ := Bar.exists_mem64 hbar
      exact c.layout.succ_lt_six hb'
    simp only [if_true, pciBarGet_eq hsucc, Option.bind_some, Option.pure_def, assert]
    split_ifs <;> rfl
  | false =>
    simp only [Bool.false_eq_true, if_false, Option.bind_some, Option.pure_def, assert]
    split_ifs <;> rfl

/-! ## Initialisation -/

/-- The register of the BAR that follows. -/
def PciConf.next (c : PciConf) (n : ℕ) : ℕ :=
  if (c.bar n).IsMem64 then n + 2 else n + 1

theorem PciConf.next_eq (c : PciConf) (n : ℕ) : c.next n = n + 1 ∨ c.next n = n + 2 := by
  unfold PciConf.next
  split_ifs
  · exact Or.inr rfl
  · exact Or.inl rfl

theorem PciConf.bar_next_ne_upper (c : PciConf) (n : ℕ) : c.bar (c.next n) ≠ .upper := by
  unfold PciConf.next
  split_ifs with h
  · obtain ⟨prefetch, bits, hbar⟩ := Bar.exists_mem64 h
    exact c.layout.ne_upper_succ_succ hbar
  · refine c.layout.ne_upper_succ fun prefetch bits hbar => h ?_
    change (c.layout.bar n).IsMem64 = true
    rw [hbar]
    rfl

/-- The host bridge translates the address of the BAR, if there is one. -/
def Decodes (spaces : List AddrSpace) (c : PciConf) (n : ℕ) : Prop :=
  (c.bar n).size ≠ 0 → pciHostBridgeGetPaddr spaces (c.address n) ≠ invalidPhysAddr

/-- What `pci_dev_init` records for a register. -/
def PciConf.resource (spaces : List AddrSpace) (c : PciConf) (n : ℕ) : BitVec 64 :=
  match c.bar n with
  | .none => invalidPhysAddr
  | .upper => pciHostBridgeGetPaddr spaces (c.address (n - 1))
  | _ => pciHostBridgeGetPaddr spaces (c.address n)

theorem PciConf.resource_of_size (spaces : List AddrSpace) (h : (c.bar n).size ≠ 0) :
    c.resource spaces n = pciHostBridgeGetPaddr spaces (c.address n) := by
  unfold PciConf.resource
  cases hbar : c.bar n with
  | none => exact absurd (by rw [hbar]; rfl) h
  | upper => exact absurd (by rw [hbar]; rfl) h
  | _ => rfl

theorem PciConf.size_eq_zero (hb : c.bar n ≠ .upper) (h : (c.bar n).size = 0) :
    c.bar n = .none := by
  by_contra hnone
  exact (show (c.bar n).Sized from c.layout.sized n).size_ne_zero hnone hb h

/-- A turn of the loop of `pci_dev_init` records the BAR at its register. -/
theorem pciDevInit_bar (spaces : List AddrSpace) (dev : PciDev) (hn : n < 6)
    (hb : c.bar n ≠ .upper) (hdec : Decodes spaces c n) :
    ∃ dev', pciDevInit.bar spaces n dev c = some (dev', c, c.next n) ∧
      ∀ m, dev' m = if n ≤ m ∧ m < c.next n then c.resource spaces m else dev m := by
  unfold pciDevInit.bar
  rw [pciBarSize_eq hn hb]
  simp only [Option.bind_eq_bind, Option.bind_some]
  by_cases hsize : (c.bar n).size = 0
  · have hnone := c.size_eq_zero hb hsize
    have hnext : c.next n = n + 1 := by
      unfold PciConf.next
      rw [hnone]
      rfl
    rw [if_neg (not_not.mpr hsize), hnext]
    refine ⟨_, rfl, fun m => ?_⟩
    rcases eq_or_ne m n with rfl | hm
    · rw [Function.update_self, if_pos ⟨le_rfl, Nat.lt_succ_self m⟩, PciConf.resource, hnone]
    · rw [Function.update_of_ne hm, if_neg (by omega)]
  · rw [if_pos hsize, pciBarGetAddr'_eq spaces hn hb, if_pos (hdec hsize), pciBarIs64_eq hn hb]
    have hres := c.resource_of_size spaces hsize
    simp only [Option.bind_some]
    unfold PciConf.next
    cases h64 : (c.bar n).IsMem64 with
    | false =>
      refine ⟨_, rfl, fun m => ?_⟩
      rcases eq_or_ne m n with rfl | hm
      · rw [Function.update_self, hres]
        simp
      · rw [Function.update_of_ne hm, if_neg]
        simp only [Bool.false_eq_true, if_false]
        omega
    | true =>
      obtain ⟨prefetch, bits, hbar⟩ := Bar.exists_mem64 h64
      have hupper : c.bar (n + 1) = .upper := (c.layout.upper_succ_iff n).mpr ⟨_, _, hbar⟩
      have hres' : c.resource spaces (n + 1) = pciHostBridgeGetPaddr spaces (c.address n) := by
        rw [PciConf.resource, hupper]
        rfl
      rw [if_pos rfl, if_pos rfl, assert_eq (c.layout.succ_lt_six hbar)]
      refine ⟨_, rfl, fun m => ?_⟩
      rcases eq_or_ne m (n + 1) with rfl | hm
      · rw [Function.update_self, Function.update_self, hres', if_pos (by omega)]
      · rw [Function.update_of_ne hm]
        rcases eq_or_ne m n with rfl | hm'
        · rw [Function.update_self, hres, if_pos (by omega)]
        · rw [Function.update_of_ne hm', if_neg (by omega)]

theorem decodes_of_pciDevInit_bar {spaces : List AddrSpace} {dev : PciDev}
    {r : PciDev × PciConf × ℕ} (hn : n < 6) (hb : c.bar n ≠ .upper)
    (h : pciDevInit.bar spaces n dev c = some r) :
    Decodes spaces c n := by
  intro hsize hinvalid
  unfold pciDevInit.bar at h
  rw [pciBarSize_eq hn hb] at h
  simp only [Option.bind_eq_bind, Option.bind_some] at h
  rw [if_pos hsize, pciBarGetAddr'_eq spaces hn hb, if_neg (not_not.mpr hinvalid)] at h
  cases h

/-- The loop of `pci_dev_init` records every BAR from its register on. -/
theorem pciDevInit_bars (spaces : List AddrSpace) (fuel : ℕ) (dev : PciDev) (hfuel : 6 ≤ n + fuel)
    (hb : c.bar n ≠ .upper) (hdec : ∀ m, n ≤ m → m < 6 → Decodes spaces c m) :
    ∃ dev', pciDevInit.bars spaces fuel n dev c = some (dev', c) ∧ (∀ m < n, dev' m = dev m) ∧
      ∀ m, n ≤ m → m < 6 → dev' m = c.resource spaces m := by
  induction fuel generalizing n dev with
  | zero => exact ⟨dev, rfl, fun _ _ => rfl, fun m hm hm' => absurd hm' (by omega)⟩
  | succ fuel ih =>
    unfold pciDevInit.bars
    split_ifs with hn
    · obtain ⟨dev₁, hrun, hdev₁⟩ := pciDevInit_bar spaces dev hn hb (hdec n le_rfl hn)
      have hnext := c.next_eq n
      obtain ⟨dev', hrun', hlow, hhigh⟩ := ih (n := c.next n) dev₁ (by omega)
        (c.bar_next_ne_upper n) fun m hm => hdec m (by omega)
      refine ⟨dev', ?_, fun m hm => ?_, fun m hm hm' => ?_⟩
      · rw [hrun]
        exact hrun'
      · rw [hlow m (by omega), hdev₁, if_neg (by omega)]
      · rcases Nat.lt_or_ge m (c.next n) with hlt | hge
        · rw [hlow m hlt, hdev₁, if_pos ⟨hm, hlt⟩]
        · exact hhigh m hge hm'
    · exact ⟨dev, rfl, fun _ _ => rfl, fun m hm hm' => absurd hm' (by omega)⟩

theorem decodes_of_pciDevInit_bars {spaces : List AddrSpace} {fuel : ℕ} {dev : PciDev}
    {r : PciDev × PciConf} (hfuel : 6 ≤ n + fuel) (hb : c.bar n ≠ .upper)
    (h : pciDevInit.bars spaces fuel n dev c = some r) :
    ∀ m, n ≤ m → m < 6 → Decodes spaces c m := by
  induction fuel generalizing n dev with
  | zero => exact fun m hm hm' => absurd hm' (by omega)
  | succ fuel ih =>
    unfold pciDevInit.bars at h
    split_ifs at h with hn
    · obtain ⟨r₁, hbar, hrest⟩ := Option.bind_eq_some_iff.mp h
      have hdec := decodes_of_pciDevInit_bar hn hb hbar
      obtain ⟨dev₁, hrun, -⟩ := pciDevInit_bar spaces dev hn hb hdec
      obtain rfl := Option.some.inj (hrun.symm.trans hbar)
      have hnext := c.next_eq n
      intro m hm hm'
      rcases Nat.lt_or_ge m (c.next n) with hlt | hge
      · rcases eq_or_ne m n with rfl | hne
        · exact hdec
        · obtain rfl : m = n + 1 := by omega
          have h64 : (c.bar n).IsMem64 = true := by
            by_contra hcon
            unfold PciConf.next at hlt
            rw [if_neg hcon] at hlt
            omega
          obtain ⟨prefetch, bits, hbar⟩ := Bar.exists_mem64 h64
          have hupper : c.bar (n + 1) = .upper := (c.layout.upper_succ_iff n).mpr ⟨_, _, hbar⟩
          exact fun hsize => absurd (by rw [hupper]; rfl) hsize
      · exact ih (by omega) (c.bar_next_ne_upper n) hrest m hge hm'
    · exact fun m hm hm' => absurd hm' (by omega)

/-- `pci_dev_init` returns if the host bridge translates every BAR, and records them. -/
theorem pciDevInit_eq {spaces : List AddrSpace} (h : ∀ m < 6, Decodes spaces c m) :
    ∃ dev, pciDevInit spaces c = some (dev, c) ∧ ∀ m < 6, dev m = c.resource spaces m := by
  obtain ⟨dev, hrun, -, hdev⟩ := pciDevInit_bars (n := 0) spaces 6 (fun _ => 0) le_rfl
    c.layout.zero_ne_upper fun m _ => h m
  exact ⟨dev, hrun, fun m => hdev m (Nat.zero_le m)⟩

theorem decodes_of_pciDevInit {spaces : List AddrSpace} {r : PciDev × PciConf}
    (h : pciDevInit spaces c = some r) : ∀ m < 6, Decodes spaces c m :=
  fun m => decodes_of_pciDevInit_bars le_rfl c.layout.zero_ne_upper h m (Nat.zero_le m)

/-! ## Writing an address -/

/-- The registers of a BAR written with an address. -/
def PciConf.setBar (c : PciConf) (n : ℕ) (addr : BitVec 64) : PciConf :=
  let c' := c.writeBar n (addr.setWidth 32)
  if (c.bar n).IsMem64 then c'.writeBar (n + 1) ((addr >>> 32).setWidth 32) else c'

/-- The addresses that `pci_bar_set_addr` records. -/
def PciConf.setResource (c : PciConf) (dev : PciDev) (n : ℕ) (addr : BitVec 64) : PciDev :=
  let dev := Function.update dev n addr
  if (c.bar n).IsMem64 then Function.update dev (n + 1) addr else dev

@[simp] theorem PciConf.setBar_layout (c : PciConf) (n : ℕ) (addr : BitVec 64) :
    (c.setBar n addr).layout = c.layout := by
  unfold PciConf.setBar
  simp only
  split_ifs <;> rfl

/-- The address fits a 32-bit BAR. -/
def Bar.Fits (b : Bar) (addr : BitVec 64) : Prop :=
  b.IsMem64 = false → addr >>> 32 = 0

/-- What `pci_bar_set_addr` does, and what its assertions say. -/
theorem of_pciBarSetAddr {dev dev' : PciDev} {c' : PciConf} {addr : BitVec 64}
    (hb : c.bar n ≠ .upper) (h : pciBarSetAddr dev c n addr = some (dev', c')) :
    n < 6 ∧ addr ≠ invalidPhysAddr ∧ (c.bar n).Fits addr ∧ c' = c.setBar n addr ∧
      dev' = c.setResource dev n addr := by
  unfold pciBarSetAddr at h
  simp only [Option.bind_eq_bind] at h
  obtain ⟨_, haddr, h⟩ := Option.bind_eq_some_iff.mp h
  obtain ⟨_, -, h⟩ := Option.bind_eq_some_iff.mp h
  obtain ⟨_, hn, h⟩ := Option.bind_eq_some_iff.mp h
  have hn := of_assert hn
  rw [pciBarIs64_eq hn hb] at h
  have h64 : pciBarIs64 (c.writeBar n (addr.setWidth 32)) n = some (c.bar n).IsMem64 :=
    pciBarIs64_eq hn hb
  simp only [Option.bind_some, h64] at h
  unfold PciConf.setBar PciConf.setResource Bar.Fits
  refine ⟨hn, of_assert haddr, ?_⟩
  cases hbar : (c.bar n).IsMem64 with
  | true =>
    rw [hbar, if_pos rfl, if_pos rfl] at h
    obtain ⟨_, -, h⟩ := Option.bind_eq_some_iff.mp h
    cases h
    rw [Function.update_self]
    exact ⟨fun hc => absurd hc (by decide), rfl, rfl⟩
  | false =>
    rw [hbar, if_neg Bool.false_ne_true, if_neg Bool.false_ne_true] at h
    obtain ⟨_, hfits, h⟩ := Option.bind_eq_some_iff.mp h
    cases h
    exact ⟨fun _ => of_assert hfits, rfl, rfl⟩

theorem Bar.mask_eq (b : Bar) : b.mask = b.addrBits.setWidth 32 := by
  cases b <;> rfl

theorem setBar_value {addr : BitVec 64} {k : ℕ} (hk : k ≠ n)
    (hk' : (c.bar n).IsMem64 = true → k ≠ n + 1) : (c.setBar n addr).value k = c.value k := by
  unfold PciConf.setBar PciConf.writeBar
  simp only
  split_ifs with h64
  · exact (Function.update_of_ne (hk' h64) _ _).trans (Function.update_of_ne hk _ _)
  · exact Function.update_of_ne hk _ _

theorem setWidth_and (x y : BitVec 64) :
    x.setWidth 32 &&& y.setWidth 32 = (x &&& y).setWidth 32 := by
  ext i hi
  simp

theorem setBar_value_self {addr : BitVec 64} (hb : c.bar n ≠ .upper) :
    (c.setBar n addr).value n &&& c.layout.mask n =
      (addr &&& (c.bar n).addrBits).setWidth 32 := by
  have hmask : c.layout.mask n = (c.bar n).addrBits.setWidth 32 := by
    rw [c.layout.mask_of_ne_upper hb, Bar.mask_eq]
  have hwrite : (c.setBar n addr).value n =
      (addr.setWidth 32 &&& c.layout.mask n) ||| (c.bar n).info := by
    unfold PciConf.setBar PciConf.writeBar
    simp only
    split_ifs
    · exact (Function.update_of_ne (Nat.succ_ne_self n).symm _ _).trans (Function.update_self ..)
    · exact Function.update_self ..
  rw [hwrite, ← setWidth_and, ← hmask]
  ext i hi
  have hbit : ((c.bar n).info &&& c.layout.mask n)[i] = (0#32)[i] := by
    rw [c.layout.info_and_mask n]
    rfl
  simp only [BitVec.getElem_and, BitVec.getElem_or, BitVec.getElem_zero] at hbit ⊢
  rw [Bool.and_or_distrib_right, hbit, Bool.or_false, Bool.and_assoc, Bool.and_self]

theorem setBar_value_succ {addr : BitVec 64} (h64 : (c.bar n).IsMem64 = true) :
    (c.setBar n addr).value (n + 1) = ((addr &&& (c.bar n).addrBits) >>> 32).setWidth 32 := by
  obtain ⟨prefetch, bits, hbar⟩ := Bar.exists_mem64 h64
  have hupper : c.layout.bar (n + 1) = .upper := (c.layout.upper_succ_iff n).mpr ⟨_, _, hbar⟩
  have hmask : c.layout.mask (n + 1) = ((c.bar n).addrBits >>> 32).setWidth 32 := by
    rw [c.layout.mask_succ_of_mem64 hbar, hbar]
    rfl
  have hshift : ∀ x y : BitVec 64, x >>> 32 &&& y >>> 32 = (x &&& y) >>> 32 := by
    intro x y
    ext i hi
    simp
  unfold PciConf.setBar
  rw [if_pos h64]
  refine (Function.update_self ..).trans ?_
  change ((addr >>> 32).setWidth 32 &&& c.layout.mask (n + 1)) ||| (c.layout.bar (n + 1)).info = _
  rw [hupper, hmask, setWidth_and, hshift]
  exact BitVec.or_zero

/-- A BAR written with an address decodes the bits of the address that it keeps. -/
theorem setBar_address {addr : BitVec 64} (hb : c.bar n ≠ .upper) (hfits : (c.bar n).Fits addr) :
    (c.setBar n addr).address n = addr &&& (c.bar n).addrBits := by
  unfold PciConf.address
  rw [PciConf.setBar_layout, setBar_value_self hb]
  simp only [PciConf.bar, PciConf.setBar_layout]
  cases h64 : (c.layout.bar n).IsMem64 with
  | false =>
    rw [if_neg Bool.false_ne_true]
    have hlt : addr.toNat < 2 ^ 32 := by
      have hnat := congrArg BitVec.toNat (hfits h64)
      rw [BitVec.toNat_ushiftRight, Nat.shiftRight_eq_div_pow] at hnat
      change _ = 0 at hnat
      omega
    have hle : (addr &&& (c.layout.bar n).addrBits).toNat ≤ addr.toNat := by
      rw [BitVec.toNat_and]
      exact Nat.and_le_left
    refine BitVec.eq_of_toNat_eq ?_
    rw [BitVec.toNat_setWidth, BitVec.toNat_setWidth]
    omega
  | true =>
    rw [if_pos rfl, setBar_value_succ h64, BitVec.or_comm, halves]

/-- The other BARs stay. -/
theorem setBar_address_of_ne {addr : BitVec 64} {m : ℕ} (hb : c.bar n ≠ .upper)
    (hb' : c.bar m ≠ .upper) (hm : m ≠ n) : (c.setBar n addr).address m = c.address m := by
  have hsucc : ∀ {k l}, (c.bar k).IsMem64 = true → c.bar l ≠ .upper → l ≠ k + 1 := by
    rintro k l h64 hl rfl
    obtain ⟨prefetch, bits, hbar⟩ := Bar.exists_mem64 h64
    exact hl ((c.layout.upper_succ_iff k).mpr ⟨_, _, hbar⟩)
  unfold PciConf.address
  rw [setBar_value hm fun h64 => hsucc h64 hb']
  simp only [PciConf.bar, PciConf.setBar_layout]
  by_cases h64 : (c.layout.bar m).IsMem64 = true
  · have hvalue : (c.setBar n addr).value (m + 1) = c.value (m + 1) :=
      setBar_value (hsucc h64 hb).symm fun _ => by omega
    rw [if_pos h64, if_pos h64, hvalue]
  · rw [if_neg h64, if_neg h64]

/-! ## Recorded addresses -/

theorem PciConf.setResource_self (dev : PciDev) (addr : BitVec 64) :
    c.setResource dev n addr n = addr := by
  unfold PciConf.setResource
  split_ifs
  · exact (Function.update_of_ne (Nat.succ_ne_self n).symm _ _).trans (Function.update_self ..)
  · exact Function.update_self ..

theorem PciConf.setResource_succ {dev : PciDev} {addr : BitVec 64}
    (h64 : (c.bar n).IsMem64 = true) : c.setResource dev n addr (n + 1) = addr := by
  unfold PciConf.setResource
  rw [if_pos h64]
  exact Function.update_self ..

theorem pciBarGetAddr_eq {dev : PciDev} (hn : n < 6) : pciBarGetAddr dev n = some (dev n) := by
  unfold pciBarGetAddr
  rw [assert_eq hn]
  rfl

/-- The first window that holds an address translates it. -/
theorem pciHostBridgeGetPaddr_eq (spaces : List AddrSpace) (a : BitVec 64) :
    pciHostBridgeGetPaddr spaces a =
      match spaces.find? (fun as => as.Contains a) with
      | some as => as.start + (a - as.pciStart)
      | none => invalidPhysAddr := by
  induction spaces with
  | nil => rfl
  | cons as spaces ih =>
    unfold pciHostBridgeGetPaddr
    rw [List.find?_cons]
    by_cases h : as.Contains a
    · rw [if_pos h, decide_eq_true h]
    · rw [if_neg h, decide_eq_false h, ih]

theorem getPaddr_eq_iff {spaces : List AddrSpace} {a addr : BitVec 64}
    (haddr : addr ≠ invalidPhysAddr) :
    pciHostBridgeGetPaddr spaces a = addr ↔
      ∃ as, spaces.find? (fun as => as.Contains a) = some as ∧
        as.start - as.pciStart = addr - a := by
  have hring : ∀ x y z w : BitVec 64, x + (y - z) = w ↔ x - z = w - y := by
    intro x y z w
    constructor <;> intro h <;> bv_omega
  rw [pciHostBridgeGetPaddr_eq]
  cases spaces.find? (fun as => as.Contains a) with
  | none =>
    constructor
    · exact fun h => absurd h.symm haddr
    · rintro ⟨as, h, -⟩
      cases h
  | some as =>
    rw [hring]
    exact ⟨fun h => ⟨as, rfl, h⟩, fun ⟨_, h, h'⟩ => Option.some.inj h ▸ h'⟩

/-- A device keeps a BAR's address where `pci_dev_init` would find it after a write by
`pci_bar_set_addr`, exactly if the first window that holds the address in the registers (the
address without the bits below the BAR's size) moves it by those bits. For an address that
is a multiple of the size that is a window whose CPU addresses are its PCI addresses. -/
theorem resource_iff {spaces : List AddrSpace} {c' : PciConf} {dev dev' : PciDev}
    {addr : BitVec 64} (hbar : (c.bar n).size ≠ 0) (hinit : (pciDevInit spaces c).isSome)
    (hset : pciBarSetAddr dev c n addr = some (dev', c')) :
    (∃ fresh, pciDevInit spaces c' = some (fresh, c') ∧ pciBarGetAddr dev' n = some (fresh n) ∧
      ((c.bar n).IsMem64 = true → dev' (n + 1) = fresh (n + 1))) ↔
      ∃ as, spaces.find? (fun as => as.Contains (addr &&& (c.bar n).addrBits)) = some as ∧
        as.start - as.pciStart = addr - (addr &&& (c.bar n).addrBits) := by
  have hb : c.bar n ≠ .upper := by
    intro hupper
    exact hbar (by rw [hupper]; rfl)
  obtain ⟨hn, haddr, hfits, rfl, rfl⟩ := of_pciBarSetAddr hb hset
  have haddress := setBar_address hb hfits
  have hbars : ∀ m, (c.setBar n addr).bar m = c.bar m := fun m => by
    rw [PciConf.bar, PciConf.setBar_layout]
  have hself : (c.setBar n addr).resource spaces n =
      pciHostBridgeGetPaddr spaces (addr &&& (c.bar n).addrBits) := by
    rw [PciConf.resource_of_size spaces (by rwa [hbars]), haddress]
  rw [← getPaddr_eq_iff haddr]
  constructor
  · rintro ⟨fresh, hfresh, hget, -⟩
    obtain ⟨fresh', hfresh', hres⟩ := pciDevInit_eq (decodes_of_pciDevInit hfresh)
    rw [hfresh] at hfresh'
    cases hfresh'
    rw [pciBarGetAddr_eq hn, PciConf.setResource_self, hres n hn, hself] at hget
    exact (Option.some.inj hget).symm
  · intro hpaddr
    have hdec : ∀ m < 6, Decodes spaces (c.setBar n addr) m := by
      intro m hm hsize
      rw [hbars] at hsize
      rcases eq_or_ne m n with rfl | hne
      · rwa [haddress, hpaddr]
      · have hb' : c.bar m ≠ .upper := by
          intro hupper
          exact hsize (by rw [hupper]; rfl)
        rw [setBar_address_of_ne hb hb' hne]
        obtain ⟨r, hr⟩ := Option.isSome_iff_exists.mp hinit
        exact decodes_of_pciDevInit hr m hm hsize
    obtain ⟨fresh, hfresh, hres⟩ := pciDevInit_eq hdec
    refine ⟨fresh, hfresh, ?_, fun h64 => ?_⟩
    · rw [pciBarGetAddr_eq hn, PciConf.setResource_self, hres n hn, hself, hpaddr]
    · obtain ⟨prefetch, bits, hmem⟩ := Bar.exists_mem64 h64
      have hupper : (c.setBar n addr).bar (n + 1) = .upper :=
        (hbars (n + 1)).trans ((c.layout.upper_succ_iff n).mpr ⟨_, _, hmem⟩)
      rw [PciConf.setResource_succ h64, hres _ (c.layout.succ_lt_six hmem), PciConf.resource,
        hupper]
      change addr = pciHostBridgeGetPaddr spaces ((c.setBar n addr).address n)
      rw [haddress, hpaddr]

end Reads

/-! ## A function with one BAR -/

/-- One BAR of 32 bits, at the first register. -/
def BarLayout.single (b : Bar) (hb : b.Sized) (h64 : b.IsMem64 = false) (hne : b ≠ .upper) :
    BarLayout where
  bar
    | 0 => b
    | _ + 1 => .none
  sized
    | 0 => hb
    | _ + 1 => trivial
  upper_succ_iff n := by
    refine iff_of_false Bar.noConfusion ?_
    rintro ⟨prefetch, bits, h⟩
    cases n with
    | zero =>
      change b = _ at h
      rw [h] at h64
      cases h64
    | succ n => cases h
  zero_ne_upper := hne
  none_of_le
    | 0, hn => absurd hn (Nat.not_succ_le_zero 5)
    | _ + 1, _ => rfl

/-- A function with the BAR, which holds an address. -/
def PciConf.single (b : Bar) (hb : b.Sized) (h64 : b.IsMem64 = false) (hne : b ≠ .upper)
    (addr : BitVec 32) : PciConf where
  layout := .single b hb h64 hne
  vendorId := 0x1b36
  deviceId := 5
  headerType := 0
  command := 0
  value
    | 0 => (addr &&& b.mask) ||| b.info
    | _ + 1 => 0
  normal := by decide
  value_info
    | 0 => write_fixed addr (Bar.info_and_mask hb)
    | _ + 1 => by
      change 0 &&& ~~~_ = _
      exact BitVec.zero_and

/-- 64 bytes of I/O space. -/
def ioFunction : PciConf :=
  .single (.io 6) ⟨by norm_num, by norm_num⟩ rfl Bar.noConfusion 0x1000

/-- A window of I/O space. -/
def ioWindow (start : BitVec 64) : AddrSpace :=
  ⟨0, start, 0x10000, 0, 1⟩

theorem ioWindow_getPaddr (start : BitVec 64) {a : BitVec 64} (ha : a < 0x10000) :
    pciHostBridgeGetPaddr [ioWindow start] a = start + a := by
  have hcontains : (ioWindow start).Contains a := by
    have hend : (0 : BitVec 64) + 0x10000 = 0x10000 := by decide
    unfold AddrSpace.Contains ioWindow
    rw [hend]
    exact ⟨BitVec.le_def.mpr (Nat.zero_le _), ha⟩
  unfold pciHostBridgeGetPaddr
  rw [if_pos hcontains]
  exact congrArg (start + ·) (BitVec.sub_zero a)

theorem ioFunction_init (start addr : BitVec 64) {c : PciConf} (hc : c.bar = ioFunction.bar)
    (haddr : c.address 0 = addr) (hlt : addr < 0x10000) (hne : start + addr ≠ invalidPhysAddr) :
    ∃ dev, pciDevInit [ioWindow start] c = some (dev, c) ∧ dev 0 = start + addr := by
  have hdec : ∀ m < 6, Decodes [ioWindow start] c m := by
    intro m _ hsize
    cases m with
    | zero => rwa [haddr, ioWindow_getPaddr start hlt]
    | succ m =>
      rw [hc] at hsize
      exact absurd rfl hsize
  obtain ⟨dev, hrun, hdev⟩ := pciDevInit_eq hdec
  refine ⟨dev, hrun, ?_⟩
  rw [hdev 0 (by norm_num), PciConf.resource_of_size _ (by rw [hc]; decide), haddr,
    ioWindow_getPaddr start hlt]

/-- A window that does not translate. -/
theorem resource_identity :
    (∃ fresh, pciDevInit [ioWindow 0] (ioFunction.setBar 0 0x2000) =
        some (fresh, ioFunction.setBar 0 0x2000) ∧
      pciBarGetAddr (ioFunction.setResource (fun _ => 0) 0 0x2000) 0 = some (fresh 0) ∧
      ((ioFunction.bar 0).IsMem64 = true →
        ioFunction.setResource (fun _ => 0) 0 0x2000 (0 + 1) = fresh (0 + 1))) ↔
      ∃ as, [ioWindow 0].find? (fun as => as.Contains (0x2000 &&& (ioFunction.bar 0).addrBits)) =
          some as ∧
        as.start - as.pciStart = 0x2000 - (0x2000 &&& (ioFunction.bar 0).addrBits) := by
  obtain ⟨dev, hrun, -⟩ := ioFunction_init 0 0x1000 rfl (by decide) (by decide) (by decide)
  have hinit : (pciDevInit [ioWindow 0] ioFunction).isSome := by
    rw [hrun]
    rfl
  have hset : pciBarSetAddr (fun _ => 0) ioFunction 0 0x2000 =
      some (ioFunction.setResource (fun _ => 0) 0 0x2000, ioFunction.setBar 0 0x2000) := rfl
  exact resource_iff (by decide) hinit hset

/-- A window from I/O address 0 to CPU address `0x3eff0000` : the device keeps the I/O
address, and a fresh `pci_dev_init` finds the CPU address. -/
theorem resource_translated :
    (∃ dev, pciDevInit [ioWindow 0x3eff0000] ioFunction = some (dev, ioFunction)) ∧
      (ioWindow 0x3eff0000).Contains 0x2000 ∧
      pciBarSetAddr (fun _ => 0) ioFunction 0 0x2000 =
        some (ioFunction.setResource (fun _ => 0) 0 0x2000, ioFunction.setBar 0 0x2000) ∧
      pciBarGetAddr (ioFunction.setResource (fun _ => 0) 0 0x2000) 0 = some 0x2000 ∧
      ∃ fresh, pciDevInit [ioWindow 0x3eff0000] (ioFunction.setBar 0 0x2000) =
          some (fresh, ioFunction.setBar 0 0x2000) ∧
        pciBarGetAddr fresh 0 = some 0x3eff2000 := by
  obtain ⟨dev, hrun, -⟩ := ioFunction_init 0x3eff0000 0x1000 rfl (by decide) (by decide)
    (by decide)
  obtain ⟨fresh, hrun', hfresh⟩ := ioFunction_init 0x3eff0000 0x2000
    (c := ioFunction.setBar 0 0x2000) rfl (by decide) (by decide) (by decide)
  refine ⟨⟨dev, hrun⟩, by decide, rfl, rfl, fresh, hrun', ?_⟩
  rw [pciBarGetAddr_eq (by norm_num), hfresh]
  rfl

end AcrnUt
