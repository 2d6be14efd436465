import AcrnUt.PhysAlloc

/-!
# PCI functions and the host bridge

`lib/pci.c` and the windows of `lib/pci-host-generic.c`. A function (`PciConf`) has the
registers of its configuration space that the source touches : identity, header type,
command, and six BAR registers. What a BAR register answers is fixed by the layout of the
function (`BarLayout`) : a BAR of `2^bits` bytes keeps the address bits from `bits` on, and
its low bits say what it is.

The host bridge has windows (`AddrSpace`) from PCI to CPU addresses. `struct pci_dev` keeps
an address for each BAR, in `resource[]`, which `pci_dev_init` fills from configuration
space and `pci_bar_set_addr` from its argument. An assertion that stops the source is
`none`.
-/

set_option linter.unusedSectionVars false

namespace AcrnUt

/-! ## Base address registers -/

/-- What a BAR register is. -/
inductive Bar
  | none
  | io (bits : ℕ)
  | mem32 (prefetch : Bool) (bits : ℕ)
  | mem64 (prefetch : Bool) (bits : ℕ)
  | upper
  deriving DecidableEq

namespace Bar

/-- The sizes that a BAR can have. -/
def Sized : Bar → Prop
  | none => True
  | io bits => 2 ≤ bits ∧ bits < 32
  | mem32 _ bits => 4 ≤ bits ∧ bits < 32
  | mem64 _ bits => 4 ≤ bits ∧ bits < 64
  | upper => True

/-- The address bits that a BAR of `2^bits` bytes decodes. -/
def addrMask (bits : ℕ) : BitVec 64 :=
  ~~~((1#64 <<< bits) - 1)

/-- The bits of a register that a write reaches. -/
def mask : Bar → BitVec 32
  | none => 0
  | io bits => (addrMask bits).setWidth 32
  | mem32 _ bits => (addrMask bits).setWidth 32
  | mem64 _ bits => (addrMask bits).setWidth 32
  | upper => 0

/-- The bits of the register above a 64-bit BAR that a write reaches. -/
def upperMask : Bar → BitVec 32
  | mem64 _ bits => (addrMask bits >>> 32).setWidth 32
  | _ => 0

/-- The bits that say what the BAR is. -/
def info : Bar → BitVec 32
  | none => 0
  | io _ => 1
  | mem32 prefetch _ => if prefetch then 8 else 0
  | mem64 prefetch _ => 4 ||| if prefetch then 8 else 0
  | upper => 0

end Bar

/-- The BARs of a function, at their registers. A 64-bit BAR takes two of the six. -/
structure BarLayout where
  bar : ℕ → Bar
  sized : ∀ n, (bar n).Sized
  upper_succ_iff : ∀ n, bar (n + 1) = .upper ↔ ∃ prefetch bits, bar n = .mem64 prefetch bits
  zero_ne_upper : bar 0 ≠ .upper
  none_of_le : ∀ n, 6 ≤ n → bar n = .none

/-- The bits of register `n` that a write reaches. -/
def BarLayout.mask (l : BarLayout) : ℕ → BitVec 32
  | 0 => (l.bar 0).mask
  | n + 1 => (l.bar (n + 1)).mask ||| (l.bar n).upperMask

/-- The configuration space of a function with a normal header. -/
structure PciConf where
  layout : BarLayout
  vendorId : BitVec 16
  deviceId : BitVec 16
  headerType : BitVec 8
  command : BitVec 16
  value : ℕ → BitVec 32
  normal : headerType &&& 0x7f = 0
  value_info : ∀ n, value n &&& ~~~layout.mask n = (layout.bar n).info

/-! ### Words -/

section Words

variable {w : ℕ} {x m i y l : BitVec w}

theorem not_and_of_and_eq_zero (h : y &&& m = 0) : ~~~m &&& y = y := by
  ext j hj
  have hbit : (y &&& m)[j] = (0#w)[j] := by rw [h]; rfl
  rw [BitVec.getElem_and, BitVec.getElem_zero] at hbit
  rw [BitVec.getElem_and, BitVec.getElem_not]
  cases hy : y[j] <;> cases hm : m[j] <;> simp_all

/-- Off the mask, a register reads as its fixed bits. -/
theorem and_eq_of_fixed (h : x &&& ~~~m = i) (hy : y &&& m = 0) : x &&& y = i &&& y := by
  rw [← h, BitVec.and_assoc, not_and_of_and_eq_zero hy]

/-- A register is its bits under the mask, and its fixed bits. -/
theorem write_self (h : x &&& ~~~m = i) : (x &&& m) ||| i = x := by
  rw [← h]
  ext j hj
  simp only [BitVec.getElem_and, BitVec.getElem_not, BitVec.getElem_or]
  cases m[j] <;> simp

/-- A register written under its mask keeps its fixed bits. -/
theorem write_fixed (v : BitVec w) (hi : i &&& m = 0) : ((v &&& m) ||| i) &&& ~~~m = i := by
  have hi' := not_and_of_and_eq_zero hi
  rw [BitVec.and_comm] at hi'
  conv_rhs => rw [← hi']
  ext j hj
  simp only [BitVec.getElem_and, BitVec.getElem_not, BitVec.getElem_or]
  cases m[j] <;> simp

/-- Without the low bits that hold the fixed bits, a register reads as its mask lets through. -/
theorem and_not_eq_of_fixed (h : x &&& ~~~m = i) (hi : i &&& ~~~l = 0) (hl : m &&& l = 0) :
    x &&& ~~~l = x &&& m := by
  have hm := not_and_of_and_eq_zero hl
  conv_lhs => rw [← write_self h]
  rw [BitVec.and_comm] at hm
  ext j hj
  have hij : (i &&& ~~~l)[j] = (0#w)[j] := by rw [hi]; rfl
  have hmj : (m &&& ~~~l)[j] = m[j] := by rw [hm]
  simp only [BitVec.getElem_and, BitVec.getElem_not, BitVec.getElem_or, BitVec.getElem_zero] at *
  rw [Bool.and_or_distrib_right, hij, Bool.or_false, Bool.and_assoc, hmj]

end Words

namespace Bar

variable {b : Bar} {bits : ℕ}

theorem getLsbD_addrMask (hb : bits < 64) {i : ℕ} (hi : i < 64) :
    (addrMask bits).getLsbD i = decide (bits ≤ i) := by
  unfold addrMask
  rw [BitVec.getLsbD_not, BitVec.getLsbD, toNat_one_shiftLeft_sub_one hb,
    Nat.testBit_two_pow_sub_one, ← decide_not]
  simp [hi]

/-- The bits below the address bits of a register. -/
def low : Bar → BitVec 32
  | io _ => 3
  | _ => 15

theorem info_and_low (b : Bar) : b.info &&& b.low = b.info := by
  cases b with
  | mem32 prefetch bits => cases prefetch <;> simp only [info, low] <;> decide
  | mem64 prefetch bits => cases prefetch <;> simp only [info, low] <;> decide
  | _ => simp only [info, low]; decide

theorem info_low (b : Bar) : b.info &&& ~~~b.low = 0 := by
  rw [← info_and_low, BitVec.and_assoc, BitVec.and_not_self]
  exact BitVec.and_zero

/-- A word of address bits from `bits` on has none below. -/
theorem low_and_addrMask {k : ℕ} (hk : k ≤ bits) (hb : bits < 64) {x : BitVec 32}
    (hx : ∀ i, x.getLsbD i = true → i < k) : x &&& (addrMask bits).setWidth 32 = 0 := by
  refine BitVec.eq_of_getLsbD_eq fun i hi => ?_
  have hzero : (0 : BitVec 32).getLsbD i = false := BitVec.getLsbD_zero
  rw [BitVec.getLsbD_and, BitVec.getLsbD_setWidth, getLsbD_addrMask hb (by omega), hzero]
  cases hxi : x.getLsbD i with
  | false => rfl
  | true =>
    have := hx i hxi
    simp
    omega

/-- A number below `2^k` has no bits from `k` on. -/
theorem lt_of_getLsbD {n k i : ℕ} (hn : n < 2 ^ k) (h : (BitVec.ofNat 32 n).getLsbD i = true) :
    i < k := by
  by_contra hcon
  rw [BitVec.getLsbD_ofNat, Bool.and_eq_true,
    Nat.testBit_lt_two_pow (hn.trans_le (Nat.pow_le_pow_right two_pos (not_lt.mp hcon)))] at h
  exact absurd h.2 Bool.false_ne_true

theorem low_and_mask (hb : b.Sized) : b.low &&& b.mask = 0 := by
  cases b with
  | none => rfl
  | io bits =>
    exact low_and_addrMask hb.1 (hb.2.trans (by norm_num)) fun _ =>
      lt_of_getLsbD (by norm_num : 3 < 2 ^ 2)
  | mem32 prefetch bits =>
    exact low_and_addrMask hb.1 (hb.2.trans (by norm_num)) fun _ =>
      lt_of_getLsbD (by norm_num : 15 < 2 ^ 4)
  | mem64 prefetch bits =>
    exact low_and_addrMask hb.1 hb.2 fun _ => lt_of_getLsbD (by norm_num : 15 < 2 ^ 4)
  | upper => rfl

/-- The fixed bits of a register are not under its mask. -/
theorem info_and_mask (hb : b.Sized) : b.info &&& b.mask = 0 := by
  rw [← info_and_low, BitVec.and_assoc, low_and_mask hb]
  exact BitVec.and_zero

end Bar

namespace BarLayout

variable (l : BarLayout) {n : ℕ}

theorem mask_of_ne_upper (h : l.bar n ≠ .upper) : l.mask n = (l.bar n).mask := by
  cases n with
  | zero => rfl
  | succ n =>
    have hupper : (l.bar n).upperMask = 0 := by
      cases hb : l.bar n with
      | mem64 prefetch bits => exact absurd ((l.upper_succ_iff n).mpr ⟨_, _, hb⟩) h
      | _ => rfl
    change (l.bar (n + 1)).mask ||| (l.bar n).upperMask = _
    rw [hupper]
    exact BitVec.or_zero

theorem mask_succ_of_mem64 {prefetch : Bool} {bits : ℕ} (h : l.bar n = .mem64 prefetch bits) :
    l.mask (n + 1) = ((Bar.addrMask bits) >>> 32).setWidth 32 := by
  change (l.bar (n + 1)).mask ||| (l.bar n).upperMask = _
  rw [(l.upper_succ_iff n).mpr ⟨_, _, h⟩, h]
  exact BitVec.zero_or

theorem info_and_mask (n : ℕ) : (l.bar n).info &&& l.mask n = 0 := by
  by_cases h : l.bar n = .upper
  · rw [h]
    exact BitVec.zero_and
  · rw [l.mask_of_ne_upper h, Bar.info_and_mask (l.sized n)]

/-- A 64-bit BAR ends within the registers. -/
theorem succ_lt_six {prefetch : Bool} {bits : ℕ} (h : l.bar n = .mem64 prefetch bits) :
    n + 1 < 6 := by
  by_contra hcon
  have hnone := l.none_of_le (n + 1) (not_lt.mp hcon)
  rw [(l.upper_succ_iff n).mpr ⟨_, _, h⟩] at hnone
  cases hnone

/-- After a BAR comes the next BAR, two registers on for a 64-bit one. -/
theorem ne_upper_succ (h : ∀ prefetch bits, l.bar n ≠ .mem64 prefetch bits) :
    l.bar (n + 1) ≠ .upper := by
  rw [Ne, l.upper_succ_iff]
  rintro ⟨prefetch, bits, hb⟩
  exact h prefetch bits hb

theorem ne_upper_succ_succ {prefetch : Bool} {bits : ℕ} (h : l.bar n = .mem64 prefetch bits) :
    l.bar (n + 2) ≠ .upper := by
  refine l.ne_upper_succ fun prefetch' bits' hb => ?_
  rw [(l.upper_succ_iff n).mpr ⟨_, _, h⟩] at hb
  cases hb

end BarLayout

/-! ## The source -/

/-- `assert`. -/
def assert (p : Prop) [Decidable p] : Option Unit :=
  if p then some () else none

namespace PciConf

/-- A write of a BAR register. -/
def writeBar (c : PciConf) (n : ℕ) (v : BitVec 32) : PciConf :=
  { c with
    value := Function.update c.value n ((v &&& c.layout.mask n) ||| (c.layout.bar n).info)
    value_info := fun k => by
      rcases eq_or_ne k n with rfl | hk
      · rw [Function.update_self, write_fixed v (c.layout.info_and_mask k)]
      · rw [Function.update_of_ne hk, c.value_info] }

end PciConf

/-- `pci_dev_exists`. -/
def pciDevExists (c : PciConf) : Bool :=
  c.vendorId != 0xffff && c.deviceId != 0xffff

/-- `pci_bar_mask`. -/
def pciBarMask (bar : BitVec 32) : BitVec 32 :=
  if bar &&& 1 ≠ 0 then ~~~3 else ~~~15

/-- `pci_bar_get`. -/
def pciBarGet (c : PciConf) (n : ℕ) : Option (BitVec 32) := do
  assert (n < 6)
  return c.value n

/-- `pci_bar_is_memory`. -/
def pciBarIsMemory (c : PciConf) (n : ℕ) : Option Bool := do
  let bar ← pciBarGet c n
  return bar &&& 1 = 0

/-- `pci_bar_is64`. -/
def pciBarIs64 (c : PciConf) (n : ℕ) : Option Bool := do
  let bar ← pciBarGet c n
  if bar &&& 1 ≠ 0 then return false
  return bar &&& 6 = 4

/-- `pci_bar_size_helper`. -/
def pciBarSizeHelper (c : PciConf) (n : ℕ) : BitVec 32 × PciConf :=
  let bar := c.value n
  let c := c.writeBar n (~~~0)
  let val := c.value n
  (val, c.writeBar n bar)

/-- `pci_bar_size`. -/
def pciBarSize (c : PciConf) (n : ℕ) : Option (BitVec 64 × PciConf) := do
  let (size, c) := pciBarSizeHelper c n
  if size = 0 then return (0, c)
  let bar ← pciBarGet c n
  let size := size &&& pciBarMask bar
  if ← pciBarIs64 c n then
    let (size64, c) := pciBarSizeHelper c (n + 1)
    let size64 := (size64.setWidth 64 <<< 32) ||| size.setWidth 64
    return (~~~size64 + 1, c)
  return ((~~~size + 1).setWidth 64, c)

/-- A window of the host bridge, `struct pci_addr_space`. -/
structure AddrSpace where
  pciStart : BitVec 64
  start : BitVec 64
  size : BitVec 64
  allocated : BitVec 64
  type : BitVec 32

/-- The window holds a PCI address. -/
def AddrSpace.Contains (as : AddrSpace) (a : BitVec 64) : Prop :=
  as.pciStart ≤ a ∧ a < as.pciStart + as.size

instance (as : AddrSpace) (a : BitVec 64) : Decidable (as.Contains a) :=
  inferInstanceAs (Decidable (_ ∧ _))

/-- `pci_host_bridge_get_paddr`. -/
def pciHostBridgeGetPaddr : List AddrSpace → BitVec 64 → BitVec 64
  | [], _ => invalidPhysAddr
  | as :: spaces, a =>
    if as.Contains a then as.start + (a - as.pciStart) else pciHostBridgeGetPaddr spaces a

/-- The addresses of `struct pci_dev`. -/
abbrev PciDev := ℕ → BitVec 64

/-- `pci_bar_get_addr`. -/
def pciBarGetAddr (dev : PciDev) (n : ℕ) : Option (BitVec 64) := do
  assert (n < 6)
  return dev n

/-- `__pci_bar_get_addr`. -/
def pciBarGetAddr' (spaces : List AddrSpace) (c : PciConf) (n : ℕ) : Option (BitVec 64) := do
  let bar ← pciBarGet c n
  let mask := pciBarMask bar
  let addr := (bar &&& mask).setWidth 64
  let addr ←
    if ← pciBarIs64 c n then
      let bar ← pciBarGet c (n + 1)
      pure (addr ||| bar.setWidth 64 <<< 32)
    else pure addr
  let physAddr := pciHostBridgeGetPaddr spaces addr
  assert (physAddr ≠ invalidPhysAddr)
  return physAddr

/-- A turn of the loop of `pci_dev_init`, and the register that follows. -/
def pciDevInit.bar (spaces : List AddrSpace) (n : ℕ) (dev : PciDev) (c : PciConf) :
    Option (PciDev × PciConf × ℕ) := do
  let (size, c) ← pciBarSize c n
  if size ≠ 0 then
    let addr ← pciBarGetAddr' spaces c n
    let dev := Function.update dev n addr
    if ← pciBarIs64 c n then
      assert (n + 1 < 6)
      return (Function.update dev (n + 1) (dev n), c, n + 2)
    return (dev, c, n + 1)
  return (Function.update dev n invalidPhysAddr, c, n + 1)

/-- The loop of `pci_dev_init`. -/
def pciDevInit.bars (spaces : List AddrSpace) :
    ℕ → ℕ → PciDev → PciConf → Option (PciDev × PciConf)
  | 0, _, dev, c => some (dev, c)
  | fuel + 1, n, dev, c =>
    if n < 6 then do
      let (dev, c, n) ← pciDevInit.bar spaces n dev c
      pciDevInit.bars spaces fuel n dev c
    else some (dev, c)

/-- `pci_dev_init`. -/
def pciDevInit (spaces : List AddrSpace) (c : PciConf) : Option (PciDev × PciConf) :=
  pciDevInit.bars spaces 6 0 (fun _ => 0) c

/-- `pci_bar_set_addr`. -/
def pciBarSetAddr (dev : PciDev) (c : PciConf) (n : ℕ) (addr : BitVec 64) :
    Option (PciDev × PciConf) := do
  assert (addr ≠ invalidPhysAddr)
  assert (dev n ≠ invalidPhysAddr)
  assert (n < 6)
  if ← pciBarIs64 c n then assert (n + 1 < 6) else assert (addr >>> 32 = 0)
  let c := c.writeBar n (addr.setWidth 32)
  let dev := Function.update dev n addr
  if ← pciBarIs64 c n then
    let c := c.writeBar (n + 1) ((addr >>> 32).setWidth 32)
    return (Function.update dev (n + 1) (dev n), c)
  return (dev, c)

end AcrnUt
