import Mathlib.Data.BitVec
import Mathlib.Tactic

/-!
# Two ways to configuration space

`pci_config_readb` to `pci_config_writel` are there twice : `lib/pci-host-generic.c` accesses the
window in which the host bridge shows the configuration space of every function (ECAM), and
`lib/x86/asm/pci.h` selects a dword through the port `0xCF8` and accesses it at the ports from
`0xCFC` on. Lane `k` of the dword is at `0xCFC + k`, but the accessors use `0xCFC` for every
register, so they reach the lanes from 0 on wherever in the dword the register is. The two agree
on the registers that start a dword, and on others as far as the bytes do not tell the lanes apart
(`readAgrees_iff`, `writeAgrees_iff`).
-/

set_option linter.unusedSectionVars false

namespace AcrnUt

/-- The bytes of the configuration space of every function. -/
abbrev PciSpaces :=
  BitVec 16 → BitVec 12 → BitVec 8

/-- The value of `v` bits with the bytes `f`, low byte first. -/
def ofBytes (v : ℕ) (f : ℕ → BitVec 8) : BitVec v :=
  BitVec.ofNat v (Nat.ofBits fun i : Fin v => (f (i / 8)).getLsbD (i % 8))

/-- A byte of a value. -/
def byteOf {v : ℕ} (x : BitVec v) (k : ℕ) : BitVec 8 :=
  x.extractLsb' (8 * k) 8

namespace PciSpaces

/-- The value of `v` bits from `reg` on. -/
def load (s : PciSpaces) (dev : BitVec 16) (v : ℕ) (reg : BitVec 12) : BitVec v :=
  ofBytes v fun k => s dev (reg + BitVec.ofNat 12 k)

/-- Store a value from `reg` on. -/
def store {v : ℕ} (s : PciSpaces) (dev : BitVec 16) (reg : BitVec 12) (x : BitVec v) : PciSpaces :=
  fun d r => if d = dev ∧ (r - reg).toNat < v / 8 then byteOf x (r - reg).toNat else s d r

end PciSpaces

/-! ## The ports -/

/-- `PCI_CONF1_ADDRESS`. -/
def pciConf1Address (dev : BitVec 16) (reg : BitVec 8) : BitVec 32 :=
  (0x1#32 <<< 31) ||| (dev.setWidth 32 <<< 8) ||| reg.setWidth 32

/-- The register behind the port `0xCF8`, and the configuration spaces. -/
structure PciConf1 where
  configAddress : BitVec 32
  space : PciSpaces

namespace PciConf1

/-- The function that is selected. -/
def dev (s : PciConf1) : BitVec 16 :=
  s.configAddress.extractLsb' 8 16

/-- The byte of the selected dword at a port. Bits 1 and 0 of the address are ignored. -/
def reg (s : PciConf1) (port : BitVec 16) : BitVec 12 :=
  (s.configAddress.extractLsb' 2 6).setWidth 12 <<< 2 + (port - 0xCFC).setWidth 12

/-- Whether the data ports are those of a function. -/
def enabled (s : PciConf1) : Bool :=
  s.configAddress.getLsbD 31

/-- `outl` to the port `0xCF8`. -/
def outAddress (s : PciConf1) (x : BitVec 32) : PciConf1 :=
  { s with configAddress := x }

/-- `inb`, `inw` or `inl` at a port from `0xCFC` on. -/
def inData (s : PciConf1) (v : ℕ) (port : BitVec 16) : BitVec v :=
  if s.enabled then s.space.load s.dev v (s.reg port) else BitVec.allOnes v

/-- `outb`, `outw` or `outl` at a port from `0xCFC` on. -/
def outData {v : ℕ} (s : PciConf1) (x : BitVec v) (port : BitVec 16) : PciConf1 :=
  if s.enabled then { s with space := s.space.store s.dev (s.reg port) x } else s

/-- A read of `v` bits through the ports. -/
def pciConfigRead (v : ℕ) (dev : BitVec 16) (reg : BitVec 8) (s : PciConf1) :
    BitVec v × PciConf1 :=
  let s := s.outAddress (pciConf1Address dev reg)
  (s.inData v 0xCFC, s)

/-- A write through the ports. -/
def pciConfigWrite {v : ℕ} (dev : BitVec 16) (reg : BitVec 8) (x : BitVec v) (s : PciConf1) :
    PciConf1 :=
  (s.outAddress (pciConf1Address dev reg)).outData x 0xCFC

/-- `pci_config_readb`. -/
def pciConfigReadb := pciConfigRead 8

/-- `pci_config_readw`. -/
def pciConfigReadw := pciConfigRead 16

/-- `pci_config_readl`. -/
def pciConfigReadl := pciConfigRead 32

/-- `pci_config_writeb`. -/
def pciConfigWriteb := @pciConfigWrite 8

/-- `pci_config_writew`. -/
def pciConfigWritew := @pciConfigWrite 16

/-- `pci_config_writel`. -/
def pciConfigWritel := @pciConfigWrite 32

end PciConf1

/-! ## The window -/

/-- The window of the host bridge, and the configuration spaces that it shows. -/
structure PciEcam where
  start : BitVec 64
  space : PciSpaces

namespace PciEcam

variable {w : ℕ}

/-- `pci_get_dev_conf`, with pointers of `w` bits. -/
def pciGetDevConf (w : ℕ) (host : PciEcam) (devfn : BitVec 16) : BitVec w :=
  host.start.setWidth w + devfn.setWidth w <<< 12

/-- The function whose configuration space is at an address. -/
def dev (host : PciEcam) (a : BitVec w) : BitVec 16 :=
  (a - host.start.setWidth w).extractLsb' 12 16

/-- The register at an address. -/
def reg (host : PciEcam) (a : BitVec w) : BitVec 12 :=
  (a - host.start.setWidth w).setWidth 12

/-- `readb`, `readw` or `readl` in the window. -/
def read (host : PciEcam) (v : ℕ) (a : BitVec w) : BitVec v :=
  host.space.load (host.dev a) v (host.reg a)

/-- `writeb`, `writew` or `writel` in the window. -/
def write {v : ℕ} (host : PciEcam) (x : BitVec v) (a : BitVec w) : PciEcam :=
  { host with space := host.space.store (host.dev a) (host.reg a) x }

/-- A read of `v` bits in the window. -/
def pciConfigRead (w v : ℕ) (dev : BitVec 16) (off : BitVec 8) (host : PciEcam) : BitVec v :=
  host.read v (host.pciGetDevConf w dev + off.setWidth w)

/-- A write in the window. -/
def pciConfigWrite (w : ℕ) {v : ℕ} (dev : BitVec 16) (off : BitVec 8) (x : BitVec v)
    (host : PciEcam) : PciEcam :=
  host.write x (host.pciGetDevConf w dev + off.setWidth w)

/-- `pci_config_readb`. -/
def pciConfigReadb (w : ℕ) := pciConfigRead w 8

/-- `pci_config_readw`. -/
def pciConfigReadw (w : ℕ) := pciConfigRead w 16

/-- `pci_config_readl`. -/
def pciConfigReadl (w : ℕ) := pciConfigRead w 32

/-- `pci_config_writeb`. -/
def pciConfigWriteb (w : ℕ) := @pciConfigWrite w 8

/-- `pci_config_writew`. -/
def pciConfigWritew (w : ℕ) := @pciConfigWrite w 16

/-- `pci_config_writel`. -/
def pciConfigWritel (w : ℕ) := @pciConfigWrite w 32

end PciEcam

/-! ## What is reached -/

section Reached

variable {v w : ℕ} {s : PciConf1} {host : PciEcam} (dev : BitVec 16) (reg : BitVec 8)

/-- The first register of the dword. -/
def dwordOf (reg : BitVec 8) : BitVec 12 :=
  BitVec.ofNat 12 (reg.toNat / 4 * 4)

theorem toNat_pciConf1Address :
    (pciConf1Address dev reg).toNat = 2 ^ 31 + (dev.toNat * 2 ^ 8 + reg.toNat) := by
  have hdev : (dev.setWidth 32 <<< 8).toNat = dev.toNat <<< 8 := by
    rw [BitVec.toNat_shiftLeft, BitVec.toNat_setWidth, Nat.shiftLeft_eq, Nat.shiftLeft_eq]
    omega
  have hreg : (reg.setWidth 32).toNat = reg.toNat := by
    rw [BitVec.toNat_setWidth]
    omega
  have hlow : dev.toNat <<< 8 ||| reg.toNat = dev.toNat * 2 ^ 8 + reg.toNat := by
    rw [← Nat.shiftLeft_add_eq_or_of_lt reg.isLt, Nat.shiftLeft_eq]
  have htop : (0x1#32 <<< 31).toNat = 1 <<< 31 := rfl
  rw [pciConf1Address, BitVec.or_assoc, BitVec.toNat_or, BitVec.toNat_or, hdev, hreg, hlow, htop,
    ← Nat.shiftLeft_add_eq_or_of_lt (by omega)]
  rfl

/-- Through the ports, an access reaches the dword of the register from lane 0 on. -/
theorem outAddress_dev : (s.outAddress (pciConf1Address dev reg)).dev = dev := by
  apply BitVec.eq_of_toNat_eq
  rw [PciConf1.dev, PciConf1.outAddress, BitVec.extractLsb'_toNat, toNat_pciConf1Address,
    Nat.shiftRight_eq_div_pow]
  omega

theorem outAddress_reg : (s.outAddress (pciConf1Address dev reg)).reg 0xCFC = dwordOf reg := by
  apply BitVec.eq_of_toNat_eq
  have hport : (((0xCFC : BitVec 16) - 0xCFC).setWidth 12).toNat = 0 := rfl
  rw [PciConf1.reg, PciConf1.outAddress, BitVec.toNat_add, BitVec.toNat_shiftLeft,
    BitVec.toNat_setWidth, BitVec.extractLsb'_toNat, toNat_pciConf1Address, hport,
    Nat.shiftRight_eq_div_pow, Nat.shiftLeft_eq, dwordOf, BitVec.toNat_ofNat]
  omega

theorem outAddress_enabled : (s.outAddress (pciConf1Address dev reg)).enabled = true := by
  rw [PciConf1.enabled, PciConf1.outAddress, BitVec.getLsbD, toNat_pciConf1Address,
    Nat.testBit_eq_decide_div_mod_eq, decide_eq_true_iff]
  omega

theorem pciConf1_read :
    PciConf1.pciConfigRead v dev reg s =
      (s.space.load dev v (dwordOf reg), s.outAddress (pciConf1Address dev reg)) := by
  rw [PciConf1.pciConfigRead, PciConf1.inData, outAddress_enabled, if_pos rfl, outAddress_dev,
    outAddress_reg]
  rfl

theorem pciConf1_write (x : BitVec v) :
    (PciConf1.pciConfigWrite dev reg x s).space = s.space.store dev (dwordOf reg) x := by
  rw [PciConf1.pciConfigWrite, PciConf1.outData, outAddress_enabled, if_pos rfl, outAddress_dev,
    outAddress_reg]
  rfl

/-- In the window, an access reaches the register. -/
theorem toNat_offset (hw : 28 ≤ w) :
    (host.pciGetDevConf w dev + reg.setWidth w - host.start.setWidth w).toNat =
      dev.toNat * 2 ^ 12 + reg.toNat := by
  have hpow : 2 ^ 28 ≤ 2 ^ w := Nat.pow_le_pow_right two_pos hw
  have hsub : host.pciGetDevConf w dev + reg.setWidth w - host.start.setWidth w =
      dev.setWidth w <<< 12 + reg.setWidth w := by
    rw [PciEcam.pciGetDevConf, BitVec.add_assoc, BitVec.add_comm, BitVec.add_sub_cancel]
  rw [hsub, BitVec.toNat_add, BitVec.toNat_shiftLeft, BitVec.toNat_setWidth, BitVec.toNat_setWidth,
    Nat.shiftLeft_eq, Nat.mod_eq_of_lt (a := dev.toNat) (by omega),
    Nat.mod_eq_of_lt (a := reg.toNat) (by omega),
    Nat.mod_eq_of_lt (a := dev.toNat * 2 ^ 12) (by omega), Nat.mod_eq_of_lt (by omega)]

theorem ecam_dev (hw : 28 ≤ w) : host.dev (host.pciGetDevConf w dev + reg.setWidth w) = dev := by
  apply BitVec.eq_of_toNat_eq
  rw [PciEcam.dev, BitVec.extractLsb'_toNat, toNat_offset dev reg hw, Nat.shiftRight_eq_div_pow]
  omega

theorem ecam_reg (hw : 28 ≤ w) :
    host.reg (host.pciGetDevConf w dev + reg.setWidth w) = reg.setWidth 12 := by
  apply BitVec.eq_of_toNat_eq
  rw [PciEcam.reg, BitVec.toNat_setWidth, toNat_offset dev reg hw, BitVec.toNat_setWidth]
  omega

theorem ecam_read (hw : 28 ≤ w) :
    host.pciConfigRead w v dev reg = host.space.load dev v (reg.setWidth 12) := by
  rw [PciEcam.pciConfigRead, PciEcam.read, ecam_dev dev reg hw, ecam_reg dev reg hw]

theorem ecam_write (hw : 28 ≤ w) (x : BitVec v) :
    (host.pciConfigWrite w dev reg x).space = host.space.store dev (reg.setWidth 12) x := by
  rw [PciEcam.pciConfigWrite, PciEcam.write, ecam_dev dev reg hw, ecam_reg dev reg hw]

end Reached

/-! ## Where the two agree -/

/-- A read through the ports gives what a read in the window gives, and changes no configuration
space. -/
def ReadAgrees (w v : ℕ) (start : BitVec 64) (dev : BitVec 16) (reg : BitVec 8) (s : PciConf1) :
    Prop :=
  (PciConf1.pciConfigRead v dev reg s).1 = PciEcam.pciConfigRead w v dev reg ⟨start, s.space⟩ ∧
    (PciConf1.pciConfigRead v dev reg s).2.space = s.space

/-- A write through the ports leaves the configuration spaces as a write in the window does. -/
def WriteAgrees (w : ℕ) {v : ℕ} (start : BitVec 64) (dev : BitVec 16) (reg : BitVec 8)
    (x : BitVec v) (s : PciConf1) : Prop :=
  (PciConf1.pciConfigWrite dev reg x s).space =
    (PciEcam.pciConfigWrite w dev reg x ⟨start, s.space⟩).space

section Agree

variable {v w : ℕ} (s : PciConf1) (start : BitVec 64) (dev : BitVec 16) (reg : BitVec 8)

theorem getLsbD_ofBytes {n i : ℕ} (f : ℕ → BitVec 8) (hi : i < 8 * n) :
    (ofBytes (8 * n) f).getLsbD i = (f (i / 8)).getLsbD (i % 8) := by
  rw [ofBytes, BitVec.getLsbD_ofNat, decide_eq_true hi, Bool.true_and, Nat.testBit_ofBits_lt _ _ hi]

/-- A value is told by its bytes. -/
theorem ofBytes_eq_iff {n : ℕ} {f g : ℕ → BitVec 8} :
    ofBytes (8 * n) f = ofBytes (8 * n) g ↔ ∀ k < n, f k = g k := by
  constructor
  · intro h k hk
    refine BitVec.eq_of_getLsbD_eq fun i hi => ?_
    have hbit := congrArg (BitVec.getLsbD · (8 * k + i)) h
    simp only [getLsbD_ofBytes _ (show 8 * k + i < 8 * n by omega)] at hbit
    rwa [Nat.mul_add_div (by norm_num), Nat.div_eq_of_lt hi, Nat.mul_add_mod, Nat.mod_eq_of_lt hi]
      at hbit
  · intro h
    refine BitVec.eq_of_getLsbD_eq fun i hi => ?_
    rw [getLsbD_ofBytes f hi, getLsbD_ofBytes g hi, h _ (by omega)]

/-- The bytes that a read takes from lane 0 on are those that it is asked for. -/
def SameBytes (n : ℕ) : Prop :=
  ∀ k < n, s.space dev (dwordOf reg + BitVec.ofNat 12 k) =
    s.space dev (reg.setWidth 12 + BitVec.ofNat 12 k)

/-- The bytes that only one of the writes reaches hold already what it stores there, and where both
reach they store the same. -/
structure SameStores (n : ℕ) (x : BitVec (8 * n)) : Prop where
  lanes : ∀ k < n, k < reg.toNat % 4 →
    s.space dev (dwordOf reg + BitVec.ofNat 12 k) = byteOf x k
  register : ∀ k < n, n ≤ reg.toNat % 4 + k →
    s.space dev (reg.setWidth 12 + BitVec.ofNat 12 k) = byteOf x k
  both : ∀ k < n, reg.toNat % 4 ≤ k → byteOf x k = byteOf x (k - reg.toNat % 4)

theorem dwordOf_add : dwordOf reg + BitVec.ofNat 12 (reg.toNat % 4) = reg.setWidth 12 := by
  apply BitVec.eq_of_toNat_eq
  rw [dwordOf, BitVec.toNat_add, BitVec.toNat_ofNat, BitVec.toNat_ofNat, BitVec.toNat_setWidth]
  omega

theorem readAgrees_iff (hw : 28 ≤ w) (n : ℕ) :
    ReadAgrees w (8 * n) start dev reg s ↔ reg.toNat % 4 = 0 ∨ SameBytes s dev reg n := by
  rw [ReadAgrees, pciConf1_read, ecam_read dev reg hw]
  simp only [PciSpaces.load, ofBytes_eq_iff]
  constructor
  · rintro ⟨h, -⟩
    exact Or.inr h
  · rintro (h | h)
    · have hreg := dwordOf_add reg
      rw [h, BitVec.add_zero] at hreg
      rw [hreg]
      exact ⟨fun _ _ => rfl, rfl⟩
    · exact ⟨h, rfl⟩

/-- The offsets of a byte from the dword, and from the register in it. -/
theorem toNat_sub_dwordOf (r : BitVec 12) :
    (r - dwordOf reg).toNat = (2 ^ 12 - reg.toNat / 4 * 4 + r.toNat) % 2 ^ 12 := by
  rw [BitVec.toNat_sub, dwordOf, BitVec.toNat_ofNat, Nat.mod_eq_of_lt (a := reg.toNat / 4 * 4)]
  omega

theorem toNat_sub_reg (r : BitVec 12) :
    (r - reg.setWidth 12).toNat = (2 ^ 12 - reg.toNat + r.toNat) % 2 ^ 12 := by
  rw [BitVec.toNat_sub, BitVec.toNat_setWidth, Nat.mod_eq_of_lt (a := reg.toNat)]
  omega

theorem store_self {n : ℕ} (reg : BitVec 12) (x : BitVec (8 * n)) {k : ℕ} (hk : k < n)
    (hn : n < 2 ^ 12) (space : PciSpaces) :
    space.store dev reg x dev (reg + BitVec.ofNat 12 k) = byteOf x k := by
  have hoff : (reg + BitVec.ofNat 12 k - reg).toNat = k := by
    rw [BitVec.add_comm, BitVec.add_sub_cancel, BitVec.toNat_ofNat, Nat.mod_eq_of_lt (by omega)]
  rw [PciSpaces.store, hoff, if_pos ⟨rfl, by omega⟩]

/-- Stores that leave the same bytes read the same where both or one of them reach. -/
theorem sameStores_of_store {n : ℕ} (hn : reg.toNat % 4 + n ≤ 4) (x : BitVec (8 * n))
    (h : s.space.store dev (dwordOf reg) x = s.space.store dev (reg.setWidth 12) x) :
    SameStores s dev reg n x := by
  have hdiv : 8 * n / 8 = n := by omega
  have hstore (r : BitVec 12) := congrFun (congrFun h dev) r
  refine ⟨fun k hk hj => ?_, fun k hk hj => ?_, fun k hk hj => ?_⟩
  · have heq := hstore (dwordOf reg + BitVec.ofNat 12 k)
    rw [store_self dev _ x hk (by omega), PciSpaces.store, if_neg] at heq
    · exact heq.symm
    · rw [toNat_sub_reg, hdiv, dwordOf, BitVec.toNat_add, BitVec.toNat_ofNat, BitVec.toNat_ofNat]
      omega
  · have heq := hstore (reg.setWidth 12 + BitVec.ofNat 12 k)
    rw [store_self dev (reg.setWidth 12) x hk (by omega), PciSpaces.store, if_neg] at heq
    · exact heq
    · rw [toNat_sub_dwordOf, hdiv, BitVec.toNat_add, BitVec.toNat_ofNat, BitVec.toNat_setWidth]
      omega
  · have heq := hstore (dwordOf reg + BitVec.ofNat 12 k)
    have hreg : dwordOf reg + BitVec.ofNat 12 k =
        reg.setWidth 12 + BitVec.ofNat 12 (k - reg.toNat % 4) := by
      rw [← dwordOf_add, BitVec.add_assoc, ← BitVec.ofNat_add, Nat.add_sub_cancel' hj]
    rw [store_self dev _ x hk (by omega), hreg, store_self dev _ x (by omega) (by omega)] at heq
    exact heq

/-- Each byte is reached by both stores, by one of them, or by none. -/
theorem store_eq_of_sameStores {n : ℕ} (hn : reg.toNat % 4 + n ≤ 4) (x : BitVec (8 * n))
    (h : reg.toNat % 4 = 0 ∨ SameStores s dev reg n x) :
    s.space.store dev (dwordOf reg) x = s.space.store dev (reg.setWidth 12) x := by
  have hdiv : 8 * n / 8 = n := by omega
  funext d r
  have hlane : dwordOf reg + BitVec.ofNat 12 (r - dwordOf reg).toNat = r := by
    rw [BitVec.ofNat_toNat, BitVec.setWidth_eq, BitVec.add_comm, BitVec.sub_add_cancel]
  have hreg : reg.setWidth 12 + BitVec.ofNat 12 (r - reg.setWidth 12).toNat = r := by
    rw [BitVec.ofNat_toNat, BitVec.setWidth_eq, BitVec.add_comm, BitVec.sub_add_cancel]
  have hr := r.isLt
  have hlt := reg.isLt
  have hi := toNat_sub_dwordOf reg r
  have hi' := toNat_sub_reg reg r
  simp only [PciSpaces.store, hdiv]
  generalize (r - dwordOf reg).toNat = i at *
  generalize (r - reg.setWidth 12).toNat = i' at *
  rcases h with h | h
  · rw [show i' = i by omega]
  by_cases hd : d = dev
  · subst hd
    by_cases hin : i < n
    · by_cases hin' : i' < n
      · rw [if_pos ⟨rfl, hin⟩, if_pos ⟨rfl, hin'⟩, h.both i hin (by omega),
          show i - reg.toNat % 4 = i' by omega]
      · rw [if_pos ⟨rfl, hin⟩, if_neg (by omega), ← h.lanes i hin (by omega), hlane]
    · by_cases hin' : i' < n
      · rw [if_neg (by omega), if_pos ⟨rfl, hin'⟩, ← h.register i' hin' (by omega), hreg]
      · rw [if_neg (by omega), if_neg (by omega)]
  · rw [if_neg (by tauto), if_neg (by tauto)]

theorem writeAgrees_iff (hw : 28 ≤ w) {n : ℕ} (hn : reg.toNat % 4 + n ≤ 4) (x : BitVec (8 * n)) :
    WriteAgrees w start dev reg x s ↔ reg.toNat % 4 = 0 ∨ SameStores s dev reg n x := by
  rw [WriteAgrees, pciConf1_write, ecam_write dev reg hw]
  exact ⟨fun h => Or.inr (sameStores_of_store s dev reg hn x h),
    store_eq_of_sameStores s dev reg hn x⟩

/-- Where accesses through the ports and in the window agree, for the accesses that do not cross a
dword. -/
theorem conf1_agrees_iff (hw : 28 ≤ w) {n : ℕ} (hn : reg.toNat % 4 + n ≤ 4) :
    (ReadAgrees w (8 * n) start dev reg s ↔ reg.toNat % 4 = 0 ∨ SameBytes s dev reg n) ∧
      ∀ x : BitVec (8 * n), WriteAgrees w start dev reg x s ↔
        reg.toNat % 4 = 0 ∨ SameStores s dev reg n x :=
  ⟨readAgrees_iff s start dev reg hw n, writeAgrees_iff s start dev reg hw hn⟩

/-- The command register of a function. -/
theorem conf1_agrees_iff_command : ∃ s : PciConf1,
    (ReadAgrees 64 (8 * 2) 0x40000000 0 4 s ↔ (4 : BitVec 8).toNat % 4 = 0 ∨ SameBytes s 0 4 2) ∧
      ∀ x : BitVec (8 * 2), WriteAgrees 64 0x40000000 0 4 x s ↔
        (4 : BitVec 8).toNat % 4 = 0 ∨ SameStores s 0 4 2 x :=
  ⟨⟨0, fun _ _ => 0⟩, conf1_agrees_iff _ 0x40000000 0 4 (by norm_num) (by decide)⟩

/-- The header type, at 14, is read as the cache line size, at 12. -/
theorem header_type_differs :
    (PciConf1.pciConfigReadb 0 14 ⟨0, fun _ r => r.setWidth 8⟩).1 = 12 ∧
      PciEcam.pciConfigReadb 64 0 14 ⟨0x40000000, fun _ r => r.setWidth 8⟩ = 14 ∧
      ¬ReadAgrees 64 8 0x40000000 0 14 ⟨0, fun _ r => r.setWidth 8⟩ := by
  have hports : (PciConf1.pciConfigReadb 0 14 ⟨0, fun _ r => r.setWidth 8⟩).1 = 12 := by decide
  have hecam : PciEcam.pciConfigReadb 64 0 14 ⟨0x40000000, fun _ r => r.setWidth 8⟩ = 14 := by
    decide
  refine ⟨hports, hecam, fun h => ?_⟩
  have heq := hports.symm.trans (h.1.trans hecam)
  exact absurd heq (by decide)

end Agree

end AcrnUt
