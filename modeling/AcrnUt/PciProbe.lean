import AcrnUt.Packing
import AcrnUt.PciBar

/-!
# Probing the host bridge

`pci_dt_probe` reads the windows of the host bridge from the `ranges` cells of the device
tree, into memory of `malloc`. It fills every field of a window but `allocated`, which
keeps what the memory held (`contents`). `pci_probe` goes over the functions of the bus and
draws an address for each BAR from the first window of its type, the next multiple of the
BAR's size above what the window has given out.

`drawn` records the BARs that got an address, with their window; no function reads it.
-/

set_option linter.unusedSectionVars false

namespace AcrnUt

/-! ## Windows -/

/-- `of_flags_to_pci_type`. -/
def ofFlagsToPciType (ofFlags : BitVec 32) : Option (BitVec 32) := do
  let idx := (ofFlags >>> 24) &&& 3
  assert (0 < idx)
  let res : BitVec 32 := if idx = 1 then 1 else if idx = 2 then 0 else 4
  return if ofFlags &&& 0x40000000 ≠ 0 then res ||| 8 else res

/-- Two cells as a 64-bit word. -/
def ofCells (hi lo : BitVec 32) : BitVec 64 :=
  (hi.setWidth 64 <<< 32) ||| lo.setWidth 64

/-- A turn of the loop of `pci_dt_probe`. -/
def pciDtProbe.space (nrRangeCells : ℕ) (data : List (BitVec 32)) (allocated : BitVec 64) :
    Option AddrSpace := do
  let type ← ofFlagsToPciType (data.getD 0 0)
  let pciStart := ofCells (data.getD 1 0) (data.getD 2 0)
  if nrRangeCells = 6 then
    return ⟨pciStart, (data.getD 3 0).setWidth 64, ofCells (data.getD 4 0) (data.getD 5 0),
      allocated, type⟩
  return ⟨pciStart, ofCells (data.getD 3 0) (data.getD 4 0),
    ofCells (data.getD 5 0) (data.getD 6 0), allocated, type⟩

/-- `pci_dt_probe`, from the cells of the `ranges` property on. -/
def pciDtProbe (nacRoot : ℕ) (data : List (BitVec 32)) (contents : ℕ → BitVec 64) :
    Option (List AddrSpace) := do
  assert (nacRoot = 1 ∨ nacRoot = 2)
  let nrRangeCells := 3 + 2 + nacRoot
  let nrAddrSpaces := data.length / nrRangeCells
  assert (nrAddrSpaces ≠ 0)
  (List.range nrAddrSpaces).mapM fun i =>
    pciDtProbe.space nrRangeCells (data.drop (i * nrRangeCells)) (contents i)

/-- `pci_bar_type`. -/
def pciBarType (bar : BitVec 32) : BitVec 32 :=
  if bar &&& 1 ≠ 0 then 1 else bar &&& (6 ||| 8)

namespace AddrSpace

variable (as : AddrSpace) (size : BitVec 64)

/-- The next multiple of a size above what the window has given out. -/
def place : BitVec 64 :=
  align (as.pciStart + as.allocated) size

/-- What a draw takes from the window. -/
def taken : BitVec 64 :=
  size + (as.place size - (as.pciStart + as.allocated))

/-- The window after a draw. -/
def draw : AddrSpace :=
  { as with allocated := as.allocated + as.taken size }

end AddrSpace

/-- `pci_alloc_resource` : the address and the number of its window, if there is one. -/
def pciAllocResource (spaces : List AddrSpace) (c : PciConf) (n : ℕ) :
    Option (Option (ℕ × BitVec 64) × List AddrSpace × PciConf) := do
  let (size, c) ← pciBarSize c n
  if size = 0 then return (none, spaces, c)
  let bar ← pciBarGet c n
  let type := pciBarType bar
  let type := if type &&& 6 ≠ 0 then type &&& ~~~8 else type
  match spaces.findIdx? fun as => as.type = type with
  | none => return (none, spaces, c)
  | some i =>
    let as ← spaces[i]?
    assert (as.allocated + as.taken size ≤ as.size)
    return (some (i, as.place size), spaces.set i (as.draw size), c)

/-! ## The bus -/

/-- A BAR that got an address. -/
structure Draw where
  dev : ℕ
  bar : ℕ
  space : ℕ
  size : BitVec 64
  addr : BitVec 64

/-- The state of `pci_probe` in the loop over the BARs of a function. -/
structure Probe where
  spaces : List AddrSpace
  conf : PciConf
  dev : PciDev
  cmd : BitVec 16
  drawn : List Draw

/-- A turn of the loop of `pci_probe` over the BARs, and the register that follows. -/
def pciProbe.bar (devfn n : ℕ) (s : Probe) : Option (Probe × ℕ) := do
  let (resource, spaces, conf) ← pciAllocResource s.spaces s.conf n
  let s ←
    match resource with
    | none => pure { s with spaces := spaces, conf := conf }
    | some (i, addr) => do
      let (dev, conf') ← pciBarSetAddr s.dev conf n addr
      let cmd := if ← pciBarIsMemory conf' n then s.cmd ||| 2 else s.cmd ||| 1
      pure ⟨spaces, conf', dev, cmd, s.drawn ++ [⟨devfn, n, i, (conf.bar n).size, addr⟩]⟩
  return (s, if ← pciBarIs64 s.conf n then n + 2 else n + 1)

/-- The loop of `pci_probe` over the BARs. -/
def pciProbe.bars (devfn : ℕ) : ℕ → ℕ → Probe → Option Probe
  | 0, _, s => some s
  | fuel + 1, n, s =>
    if n < 6 then do
      let (s, n) ← pciProbe.bar devfn n s
      pciProbe.bars devfn fuel n s
    else some s

/-- The windows and the functions of the bus. A number without a function reads as all
ones. -/
structure PciBus where
  spaces : List AddrSpace
  confs : ℕ → Option PciConf
  drawn : List Draw

/-- A turn of the loop of `pci_probe` over the functions. -/
def pciProbe.dev (bus : PciBus) (devfn : ℕ) : Option PciBus :=
  match bus.confs devfn with
  | none => some bus
  | some c =>
    if pciDevExists c then do
      let (dev, c) ← pciDevInit bus.spaces c
      if c.headerType &&& 0x7f ≠ 0 then
        return { bus with confs := Function.update bus.confs devfn (some c) }
      let s ← pciProbe.bars devfn 6 0 ⟨bus.spaces, c, dev, 0x100 ||| 0x40, bus.drawn⟩
      return ⟨s.spaces, Function.update bus.confs devfn (some { s.conf with command := s.cmd }),
        s.drawn⟩
    else some bus

/-- `pci_probe`, with the windows of `pci_dt_probe`. -/
def pciProbe (nacRoot : ℕ) (data : List (BitVec 32)) (contents : ℕ → BitVec 64)
    (confs : ℕ → Option PciConf) : Option PciBus := do
  let spaces ← pciDtProbe nacRoot data contents
  (List.range 256).foldlM pciProbe.dev ⟨spaces, confs, []⟩

end AcrnUt
