import AcrnUt.PageTable

/-!
# ARM page tables

`lib/arm/mmu.c` with the tables of `lib/arm/asm/pgtable.h` and of
`lib/arm64/asm/pgtable.h`. The 32-bit build walks three levels of 4K tables, the 64-bit
build two levels of 64K tables, with its middle level folded into the first
(`ArmArch`). Addresses and entries are 64-bit words, `ulong` cuts a word to an
`unsigned long` of the build, and memory is a map from the addresses of entries. The
tables are read at the addresses they have in memory, as the source assumes of the pages
of `alloc_page`.

`mmu_set_range_sect` writes sections into the first level, `mmu_set_range_ptes` installs
pages. `hwWalk` is what the hardware makes of the tables. The lookup `virt_to_pte_phys`
goes through `get_pte`, which knows empty entries and others, but no sections.
-/

set_option linter.unusedSectionVars false

namespace AcrnUt

/-! ## The two builds -/

/-- The builds of `lib/arm`. -/
inductive ArmArch
  | arm
  | arm64
  deriving DecidableEq

namespace ArmArch

/-- The bits of an `unsigned long`. -/
def ulongBits : ArmArch → ℕ
  | arm => 32
  | arm64 => 64

/-- `PAGE_SHIFT`. -/
def pageShift : ArmArch → ℕ
  | arm => 12
  | arm64 => 16

/-- `PGDIR_SHIFT`. -/
def pgdirShift : ArmArch → ℕ
  | arm => 30
  | arm64 => 29

/-- `PTRS_PER_PGD` is `2^pgdBits`. -/
def pgdBits : ArmArch → ℕ
  | arm => 2
  | arm64 => 13

/-- `PMD_SHIFT`. -/
def pmdShift : ArmArch → ℕ
  | arm => 21
  | arm64 => 29

/-- `PTRS_PER_PMD` is `2^pmdBits`. -/
def pmdBits : ArmArch → ℕ
  | arm => 9
  | arm64 => 0

/-- `PTRS_PER_PTE` is `2^pteBits`. -/
def pteBits : ArmArch → ℕ
  | arm => 9
  | arm64 => 13

/-- `PHYS_MASK_SHIFT`. -/
def physMaskShift : ArmArch → ℕ
  | arm => 40
  | arm64 => 48

variable (C : ArmArch)

/-- The cast to `unsigned long`. -/
def ulong (x : BitVec 64) : BitVec 64 :=
  (x.setWidth C.ulongBits).setWidth 64

/-- `PAGE_SIZE`. -/
def pageSize : BitVec 64 :=
  1#64 <<< C.pageShift

/-- `PGDIR_SIZE`. -/
def pgdirSize : BitVec 64 :=
  1#64 <<< C.pgdirShift

/-- `PHYS_MASK`. -/
def physMask : BitVec 64 :=
  (1#64 <<< C.physMaskShift) - 1

/-- `PAGE_MASK`, as `unsigned long`. -/
def pageMask : BitVec 64 :=
  C.ulong (~~~(C.pageSize - 1))

/-- `(s32)PAGE_MASK`, as a 64-bit word. -/
def pageMaskS32 : BitVec 64 :=
  ~~~(C.pageSize - 1)

/-- `PGDIR_MASK` : signed in the 32-bit build, so it keeps the upper bits in both. -/
def pgdirMask : BitVec 64 :=
  ~~~(C.pgdirSize - 1)

/-- The index `(addr >> shift) & (2^bits - 1)`. -/
def tableIndex (shift bits : ℕ) (addr : BitVec 64) : BitVec 64 :=
  (addr >>> shift) &&& ((1#64 <<< bits) - 1)

/-- `pgd_index`. -/
def pgdIndex (addr : BitVec 64) : BitVec 64 :=
  tableIndex C.pgdirShift C.pgdBits addr

/-- `pmd_index`. -/
def pmdIndex (addr : BitVec 64) : BitVec 64 :=
  tableIndex C.pmdShift C.pmdBits addr

/-- `pte_index`. -/
def pteIndex (addr : BitVec 64) : BitVec 64 :=
  tableIndex C.pageShift C.pteBits addr

end ArmArch

/-- `PMD_TYPE_TABLE`. -/
def pmdTypeTable : BitVec 64 :=
  3

/-- `PMD_TYPE_SECT`. -/
def pmdTypeSect : BitVec 64 :=
  1

/-- `PTE_TYPE_PAGE`. -/
def pteTypePage : BitVec 64 :=
  3

/-- `PMD_SECT_AF` and `PTE_AF`. -/
def pteAf : BitVec 64 :=
  1#64 <<< 10

/-- `PMD_SECT_S` and `PTE_SHARED`. -/
def pteShared : BitVec 64 :=
  3#64 <<< 8

/-- `pgprot_t` : protection bits, which leave the type of a descriptor alone. -/
structure PgProt where
  val : BitVec 64
  type_clear : val &&& 3 = 0

/-- Memory, and the pages that `alloc_page` hands out, in order. `denied` records that some
`alloc_page` found no page; no function reads it. -/
structure ArmMachine where
  mem : BitVec 64 → BitVec 64
  pages : List (BitVec 64)
  denied : Bool

/-! ## The source -/

namespace ArmMachine

/-- A store of one entry. -/
def store (m : ArmMachine) (a e : BitVec 64) : ArmMachine :=
  { m with mem := Function.update m.mem a e }

/-- `memset(p, 0, PAGE_SIZE)`. -/
def clearPage (C : ArmArch) (m : ArmMachine) (p : BitVec 64) : ArmMachine :=
  { m with mem := fun a => if a &&& C.pageMaskS32 = p then 0 else m.mem a }

/-- `alloc_page`. -/
def allocPage (m : ArmMachine) : BitVec 64 × ArmMachine :=
  match m.pages with
  | [] => (0, { m with denied := true })
  | p :: pages => (p, { m with pages := pages })

end ArmMachine

namespace ArmArch

variable (C : ArmArch)

/-- `pgd_page_vaddr` and `pmd_page_vaddr` : the table that an entry points to. -/
def pageVaddr (entry : BitVec 64) : BitVec 64 :=
  C.ulong (entry &&& C.physMask &&& C.pageMaskS32)

/-- `pgd_offset`. -/
def pgdOffset (pgtable addr : BitVec 64) : BitVec 64 :=
  entryAddr pgtable (C.pgdIndex addr)

/-- What `pmd_alloc` and `pte_alloc` share : make the table of an empty entry, and return
the address of entry `index` of the table the entry points to. -/
def tableAlloc (slot index : BitVec 64) (m : ArmMachine) : BitVec 64 × ArmMachine :=
  if m.mem slot = 0 then
    let (table, m) := m.allocPage
    let m := (m.clearPage C table).store slot (C.ulong table ||| pmdTypeTable)
    (entryAddr (C.pageVaddr (m.mem slot)) index, m)
  else (entryAddr (C.pageVaddr (m.mem slot)) index, m)

/-- `pmd_alloc`, which the 64-bit build folds into the first level. -/
def pmdAlloc (pgd addr : BitVec 64) (m : ArmMachine) : BitVec 64 × ArmMachine :=
  match C with
  | arm => tableAlloc arm pgd (pmdIndex arm addr) m
  | arm64 => (pgd, m)

/-- `pte_alloc`. -/
def pteAlloc (pmd addr : BitVec 64) (m : ArmMachine) : BitVec 64 × ArmMachine :=
  C.tableAlloc pmd (C.pteIndex addr) m

/-- `get_pte`. -/
def getPte (pgtable vaddr : BitVec 64) (m : ArmMachine) : BitVec 64 × ArmMachine :=
  let pgd := C.pgdOffset pgtable vaddr
  let (pmd, m) := C.pmdAlloc pgd vaddr m
  C.pteAlloc pmd vaddr m

/-- `install_pte`. -/
def installPte (pgtable vaddr pte : BitVec 64) (m : ArmMachine) : BitVec 64 × ArmMachine :=
  let (pPte, m) := C.getPte pgtable vaddr m
  (pPte, m.store pPte pte)

/-- `install_page_prot`. -/
def installPageProt (pgtable phys vaddr : BitVec 64) (prot : PgProt) (m : ArmMachine) :
    BitVec 64 × ArmMachine :=
  C.installPte pgtable vaddr (phys ||| (pteTypePage ||| pteAf ||| pteShared) ||| prot.val) m

/-- `virt_to_pte_phys`. -/
def virtToPtePhys (pgtable mem : BitVec 64) (m : ArmMachine) : BitVec 64 × ArmMachine :=
  let (pte, m) := C.getPte pgtable mem m
  ((m.mem pte &&& C.physMask &&& C.ulong (-C.pageSize)) + (mem &&& (C.pageSize - 1)), m)

/-- The addresses that the loops of `mmu_set_range_ptes` and `mmu_set_range_sect` go
through, virtual and physical, `none` if the loop never ends. `vaddr` is a `uintptr_t`. -/
def range (size : BitVec 64) (virtEnd : BitVec 64) :
    ℕ → BitVec 64 → BitVec 64 → Option (List (BitVec 64 × BitVec 64))
  | 0, _, _ => none
  | fuel + 1, vaddr, paddr =>
    if vaddr < virtEnd then
      (range size virtEnd fuel (C.ulong (vaddr + size)) (paddr + size)).map ((vaddr, paddr) :: ·)
    else some []

/-- The loop of `mmu_set_range_ptes`, over the range it goes through. -/
def setRangePtes.range (virtOffset physStart physEnd : BitVec 64) :
    Option (List (BitVec 64 × BitVec 64)) :=
  let paddr := physStart &&& C.pageMask
  let vaddr := virtOffset &&& C.pageMask
  let virtEnd := C.ulong (physEnd - paddr + vaddr)
  C.range C.pageSize virtEnd (2 ^ 64) vaddr paddr

/-- `mmu_set_range_ptes`. -/
def mmuSetRangePtes (pgtable virtOffset physStart physEnd : BitVec 64) (prot : PgProt)
    (m : ArmMachine) : Option ArmMachine :=
  (setRangePtes.range C virtOffset physStart physEnd).map fun l =>
    l.foldl (fun m a => (C.installPageProt pgtable a.2 a.1 prot m).2) m

/-- The loop of `mmu_set_range_sect`, over the range it goes through. -/
def setRangeSect.range (virtOffset physStart physEnd : BitVec 64) :
    Option (List (BitVec 64 × BitVec 64)) :=
  let paddr := physStart &&& C.pgdirMask
  let vaddr := C.ulong (virtOffset &&& C.pgdirMask)
  let virtEnd := C.ulong (physEnd - paddr + vaddr)
  C.range C.pgdirSize virtEnd (2 ^ 64) vaddr paddr

/-- The section that `mmu_set_range_sect` writes. -/
def sectEntry (paddr : BitVec 64) (prot : PgProt) : BitVec 64 :=
  paddr ||| (pmdTypeSect ||| pteAf ||| pteShared) ||| prot.val

/-- `mmu_set_range_sect`. -/
def mmuSetRangeSect (pgtable virtOffset physStart physEnd : BitVec 64) (prot : PgProt)
    (m : ArmMachine) : Option ArmMachine :=
  (setRangeSect.range C virtOffset physStart physEnd).map fun l =>
    l.foldl (fun m a => m.store (C.pgdOffset pgtable a.1) (sectEntry a.2 prot)) m

/-- `__virt_to_phys`, with the page table of the CPU. -/
def virtToPhys (mmuEnabled : Bool) (pgtable addr : BitVec 64) (m : ArmMachine) :
    BitVec 64 × ArmMachine :=
  if mmuEnabled then C.virtToPtePhys pgtable addr m else (addr, m)

/-- `__phys_to_virt`, `none` if its assertion stops it. -/
def physToVirt (mmuEnabled : Bool) (pgtable addr : BitVec 64) (m : ArmMachine) :
    Option (BitVec 64 × ArmMachine) :=
  if mmuEnabled then
    let (phys, m) := C.virtToPhys mmuEnabled pgtable (C.ulong addr) m
    if phys = addr then some (C.ulong addr, m) else none
  else some (C.ulong addr, m)

end ArmArch

/-- A call of `mmu_set_range_sect` or of `mmu_set_range_ptes`. -/
inductive MmuCall
  | sect (virtOffset physStart physEnd : BitVec 64) (prot : PgProt)
  | ptes (virtOffset physStart physEnd : BitVec 64) (prot : PgProt)

namespace MmuCall

variable (C : ArmArch)

/-- The addresses that the call goes through. -/
def range : MmuCall → Option (List (BitVec 64 × BitVec 64))
  | sect virtOffset physStart physEnd _ => ArmArch.setRangeSect.range C virtOffset physStart physEnd
  | ptes virtOffset physStart physEnd _ => ArmArch.setRangePtes.range C virtOffset physStart physEnd

/-- The call. -/
def run (pgtable : BitVec 64) (m : ArmMachine) : MmuCall → Option ArmMachine
  | sect virtOffset physStart physEnd prot =>
    C.mmuSetRangeSect pgtable virtOffset physStart physEnd prot m
  | ptes virtOffset physStart physEnd prot =>
    C.mmuSetRangePtes pgtable virtOffset physStart physEnd prot m

/-- The call maps sections. -/
def IsSect : MmuCall → Prop
  | sect .. => True
  | ptes .. => False

/-- The call goes through addresses of a PGDIR entry. -/
def Covers (c : MmuCall) (i : BitVec 64) : Prop :=
  ∃ l, c.range C = some l ∧ ∃ a ∈ l, C.pgdIndex a.1 = i

end MmuCall

/-- A run of calls. -/
def mmuRun (C : ArmArch) (pgtable : BitVec 64) (calls : List MmuCall) (m : ArmMachine) :
    Option ArmMachine :=
  calls.foldlM (MmuCall.run C pgtable) m

/-- No PGDIR entry is mapped by a section and by pages. -/
def MmuDisjoint (C : ArmArch) (calls : List MmuCall) : Prop :=
  ∀ c ∈ calls, ∀ c' ∈ calls, c.IsSect → ¬c'.IsSect → ∀ i, ¬(c.Covers C i ∧ c'.Covers C i)

namespace ArmArch

variable (C : ArmArch)

/-- `PMD_SECT_UNCACHED | PMD_SECT_USER`. -/
def sectProt : ArmArch → PgProt
  | arm => ⟨1#64 <<< 6, by decide⟩
  | arm64 => ⟨1#64 <<< 2 ||| 1#64 <<< 6, by decide⟩

/-- `PTE_WBWA | PTE_USER`. -/
def pteProt : ArmArch → PgProt
  | arm => ⟨7#64 <<< 2 ||| 1#64 <<< 6, by decide⟩
  | arm64 => ⟨4#64 <<< 2 ||| 1#64 <<< 6, by decide⟩

/-- `PTE_WBWA | PTE_RDONLY | PTE_USER`. -/
def pteProtRdonly : ArmArch → PgProt
  | arm => ⟨7#64 <<< 2 ||| 1#64 <<< 7 ||| 1#64 <<< 6, by decide⟩
  | arm64 => ⟨4#64 <<< 2 ||| 1#64 <<< 7 ||| 1#64 <<< 6, by decide⟩

/-- The calls of `setup_mmu`. -/
def setupMmu.calls (physOffset codeEnd physEnd : BitVec 64) : List MmuCall :=
  let physEnd := if 3#64 <<< 30 < physEnd then 3#64 <<< 30 else physEnd
  MmuCall.sect 0 0 (1#64 <<< 30) C.sectProt ::
    (match C with
    | arm => []
    | arm64 => [.sect (1#64 <<< 38) (1#64 <<< 38) (1#64 <<< 38 ||| 1#64 <<< 29) (sectProt arm64),
        .sect (1#64 <<< 39) (1#64 <<< 39) (1#64 <<< 40) (sectProt arm64)]) ++
    [.ptes physOffset physOffset codeEnd C.pteProtRdonly,
      .ptes codeEnd codeEnd physEnd C.pteProt]

/-- The allocation of a first-level table. -/
def pgdAlloc (m : ArmMachine) : BitVec 64 × ArmMachine :=
  let (pgtable, m) := m.allocPage
  (pgtable, m.clearPage C pgtable)

/-- `setup_mmu`, up to `mmu_enable`. -/
def setupMmu (physOffset codeEnd physEnd : BitVec 64) (m : ArmMachine) :
    Option (BitVec 64 × ArmMachine) :=
  let (idmap, m) := C.pgdAlloc m
  (mmuRun C idmap (setupMmu.calls C physOffset codeEnd physEnd) m).map fun m => (idmap, m)

/-! ## The hardware walk -/

/-- The address that a block or a page of `2^shift` bytes gives. -/
def output (shift : ℕ) (entry va : BitVec 64) : BitVec 64 :=
  (entry &&& C.physMask &&& ~~~((1#64 <<< shift) - 1)) + (va &&& ((1#64 <<< shift) - 1))

/-- The table that an entry points to. -/
def hwTable (entry : BitVec 64) : BitVec 64 :=
  entry &&& C.physMask &&& C.pageMaskS32

/-- The last level : pages. -/
def hwPte (cells : BitVec 64 → BitVec 64) (table va : BitVec 64) : Option (BitVec 64) :=
  let e := cells (entryAddr table (C.pteIndex va))
  if e &&& 3 = 3 then some (C.output C.pageShift e va) else none

/-- The middle level of the 32-bit build : blocks and tables. -/
def hwPmd (cells : BitVec 64 → BitVec 64) (table va : BitVec 64) : Option (BitVec 64) :=
  let e := cells (entryAddr table (C.pmdIndex va))
  if e &&& 1 = 0 then none
  else if e &&& 2 = 0 then some (C.output C.pmdShift e va)
  else C.hwPte cells (C.hwTable e) va

/-- The walk of the hardware : sections and tables at the first level. -/
def hwWalk (cells : BitVec 64 → BitVec 64) (root va : BitVec 64) : Option (BitVec 64) :=
  let e := cells (C.pgdOffset root va)
  if 2 ^ (C.pgdirShift + C.pgdBits) ≤ va.toNat then none
  else if e &&& 1 = 0 then none
  else if e &&& 2 = 0 then some (C.output C.pgdirShift e va)
  else
    match C with
    | arm => hwPmd arm cells (hwTable arm e) va
    | arm64 => hwPte arm64 cells (hwTable arm64 e) va

/-- The address is mapped by a section. -/
def Sect (cells : BitVec 64 → BitVec 64) (root va : BitVec 64) : Prop :=
  cells (C.pgdOffset root va) &&& 3 = pmdTypeSect

/-- The lookup gives what the hardware gives, and changes nothing. -/
def Agrees (m : ArmMachine) (root va : BitVec 64) : Prop :=
  ∀ pa, C.hwWalk m.mem root va = some pa → C.virtToPtePhys root va m = (pa, m)

/-- Where the hardware maps the address to itself, the assertion of `__phys_to_virt` holds. -/
def AssertHolds (m : ArmMachine) (root va : BitVec 64) : Prop :=
  C.hwWalk m.mem root va = some va → C.physToVirt true root va m = some (va, m)

end ArmArch

end AcrnUt
