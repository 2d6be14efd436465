import AcrnUt.PageTable

/-!
# s390x page tables

`lib/s390x/mmu.c` with the tables of `lib/s390x/asm/pgtable.h` : five levels, of which the upper
four have blocks of four pages and the last one half a page (`S390Level`). A table is made when
`get_pte` meets an invalid entry. Memory is a map from the addresses of entries, and the tables are
read at the addresses they have in memory, as the source assumes of the blocks of `alloc_pages`.

`hwTable` and `hwWalk` are what the hardware makes of the tables, with the checks it makes on the
type and the length in an entry.
-/

set_option linter.unusedSectionVars false

namespace AcrnUt

/-! ## The levels -/

/-- A level of the tables : the macros of `pgtable.h` for it. `checked` are the bits that the
hardware looks at before it takes an entry for a table. -/
structure S390Level where
  shift : ℕ
  ptrs : ℕ
  order : ℕ
  origin : BitVec 64
  invalid : BitVec 64
  tableType : BitVec 64
  checked : BitVec 64

namespace S390

/-- The region-first table. -/
def pgd : S390Level :=
  ⟨53, 2048, 2, 0xfffffffffffff000, 0x20, 0xc, 0xef⟩

/-- The region-second tables. -/
def p4d : S390Level :=
  ⟨42, 2048, 2, 0xfffffffffffff000, 0x20, 0x8, 0xef⟩

/-- The region-third tables. -/
def pud : S390Level :=
  ⟨31, 2048, 2, 0xfffffffffffff000, 0x20, 0x4, 0xef⟩

/-- The segment tables, whose entries have no length. -/
def pmd : S390Level :=
  ⟨20, 2048, 2, 0xfffffffffffff800, 0x20, 0, 0x2c⟩

/-- The page tables. -/
def pte : S390Level :=
  ⟨12, 256, 0, 0xfffffffffffff000, 0x400, 0, 0x400⟩

/-- `REGION_TABLE_LENGTH` and `SEGMENT_TABLE_LENGTH`. -/
def tableLength : BitVec 64 :=
  3

/-- `PAGE_MASK`. -/
def pageMask : BitVec 64 :=
  ~~~((1#64 <<< 12) - 1)

end S390

/-- `pgd_index` to `pte_index`. -/
def S390Level.index (L : S390Level) (addr : BitVec 64) : BitVec 64 :=
  (addr >>> L.shift) &&& (BitVec.ofNat 64 L.ptrs - 1)

/-- What a new table is filled with. -/
def S390Level.empty (L : S390Level) : BitVec 64 :=
  L.tableType ||| L.invalid

/-- `pgd_none` to `pte_none`. -/
def S390Level.IsNone (L : S390Level) (entry : BitVec 64) : Prop :=
  entry &&& L.invalid ≠ 0

instance (L : S390Level) (entry : BitVec 64) : Decidable (L.IsNone entry) :=
  inferInstanceAs (Decidable (_ ≠ _))

/-! ## The source -/

/-- Memory, and the blocks that `alloc_pages` hands out for each order. `denied` records that some
`alloc_pages` found no block; no function reads it. -/
structure S390Machine where
  mem : BitVec 64 → BitVec 64
  blocks : ℕ → List (BitVec 64)
  denied : Bool

namespace S390Machine

/-- A store of one entry. -/
def store (m : S390Machine) (a e : BitVec 64) : S390Machine :=
  { m with mem := Function.update m.mem a e }

/-- `alloc_pages`. -/
def allocPages (order : ℕ) (m : S390Machine) : BitVec 64 × S390Machine :=
  match m.blocks order with
  | [] => (0, { m with denied := true })
  | p :: l => (p, { m with blocks := Function.update m.blocks order l })

/-- The entries of a new table. -/
def fill (L : S390Level) (table : BitVec 64) (m : S390Machine) : S390Machine :=
  (List.range L.ptrs).foldl
    (fun m i => m.store (entryAddr table (BitVec.ofNat 64 i)) L.empty) m

end S390Machine

namespace S390

/-- `pgd_alloc_one` to `pte_alloc_one`. -/
def allocOne (L : S390Level) (m : S390Machine) : BitVec 64 × S390Machine :=
  let (table, m) := m.allocPages L.order
  (table, m.fill L table)

/-- `pgd_offset` to `pte_offset`. -/
def offset (L : S390Level) (table addr : BitVec 64) : BitVec 64 :=
  entryAddr table (L.index addr)

/-- What `p4d_alloc` to `pte_alloc` share : make the table of level `L'` that an invalid entry of
level `L` has not, and return the address of its entry for `addr`. -/
def allocNext (L L' : S390Level) (slot addr : BitVec 64) (m : S390Machine) :
    BitVec 64 × S390Machine :=
  let m :=
    if L.IsNone (m.mem slot) then
      let (table, m) := allocOne L' m
      m.store slot (table ||| L.tableType ||| tableLength)
    else m
  (offset L' (m.mem slot &&& L.origin) addr, m)

/-- `p4d_alloc`. -/
def p4dAlloc := allocNext pgd p4d

/-- `pud_alloc`. -/
def pudAlloc := allocNext p4d pud

/-- `pmd_alloc`. -/
def pmdAlloc := allocNext pud pmd

/-- `pte_alloc`. -/
def pteAlloc := allocNext pmd pte

/-- `get_pte`. -/
def getPte (pgtable vaddr : BitVec 64) (m : S390Machine) : BitVec 64 × S390Machine :=
  let pgd := offset pgd pgtable vaddr
  let (p4d, m) := p4dAlloc pgd vaddr m
  let (pud, m) := pudAlloc p4d vaddr m
  let (pmd, m) := pmdAlloc pud vaddr m
  pteAlloc pmd vaddr m

/-- `virt_to_pte_phys`. -/
def virtToPtePhys (pgtable vaddr : BitVec 64) (m : S390Machine) : BitVec 64 × S390Machine :=
  let (pPte, m) := getPte pgtable vaddr m
  ((m.mem pPte &&& pageMask) + (vaddr &&& ~~~pageMask), m)

/-- `ipte` : the instruction finds the entry by the origin of its table, and makes it invalid. -/
def ipte (vaddr pPte : BitVec 64) (m : S390Machine) : S390Machine :=
  let entry := offset pte (pPte &&& pageMask) vaddr
  m.store entry (m.mem entry ||| pte.invalid)

/-- `set_pte`. -/
def setPte (pgtable val vaddr : BitVec 64) (m : S390Machine) : BitVec 64 × S390Machine :=
  let (pPte, m) := getPte pgtable vaddr m
  -- first flush the old entry (if we're replacing anything)
  let m := if ¬pte.IsNone (m.mem pPte) then ipte vaddr pPte m else m
  (pPte, m.store pPte val)

/-- `install_page`. -/
def installPage (pgtable phys vaddr : BitVec 64) (m : S390Machine) : BitVec 64 × S390Machine :=
  setPte pgtable phys vaddr m

/-- The loop of `setup_identity`. -/
def setupIdentity.loop (pgtable startAddr endAddr : BitVec 64) :
    ℕ → BitVec 64 → S390Machine → Option S390Machine
  | 0, _, _ => none
  | fuel + 1, cur, m =>
    if startAddr < endAddr ∧ endAddr ≤ cur then some m
    else if endAddr < startAddr ∧ cur ≤ endAddr then some m
    else setupIdentity.loop pgtable startAddr endAddr fuel (cur + 1#64 <<< 12)
      (installPage pgtable cur cur m).2

/-- `setup_identity`. -/
def setupIdentity (fuel : ℕ) (pgtable startAddr endAddr : BitVec 64) (m : S390Machine) :
    Option S390Machine :=
  let startAddr := startAddr &&& pageMask
  setupIdentity.loop pgtable startAddr endAddr fuel startAddr m

/-- `setup_mmu`. -/
def setupMmu (fuel : ℕ) (physEnd : BitVec 64) (m : S390Machine) :
    Option (BitVec 64 × S390Machine) := do
  let (pageRoot, m) := allocOne pgd m
  let m ← setupIdentity fuel pageRoot 0 physEnd m
  let m ← setupIdentity fuel pageRoot (-(1#64 <<< 27)) 0 m
  some (pageRoot, m)

/-! ## The hardware -/

/-- The level at a depth. -/
def level : ℕ → S390Level
  | 0 => pgd
  | 1 => p4d
  | 2 => pud
  | 3 => pmd
  | _ => pte

end S390

/-- The hardware takes a valid entry for a table if it has the type of its level, and the length of
a whole table. -/
def S390Level.IsTable (L : S390Level) (entry : BitVec 64) : Prop :=
  entry &&& L.checked = (L.tableType ||| S390.tableLength) &&& L.checked

instance (L : S390Level) (entry : BitVec 64) : Decidable (L.IsTable entry) :=
  inferInstanceAs (Decidable (_ = _))

namespace S390

/-- The table that the hardware reaches at a depth. -/
def hwTable (mem : BitVec 64 → BitVec 64) (root vaddr : BitVec 64) : ℕ → Option (BitVec 64)
  | 0 => some root
  | d + 1 => (hwTable mem root vaddr d).bind fun table =>
    let entry := mem (offset (level d) table vaddr)
    if (level d).IsTable entry then some (entry &&& (level d).origin) else none

/-- The frame of an entry of the last level. -/
def frame (entry : BitVec 64) : Option (BitVec 64) :=
  if pte.IsNone entry then none else some (entry &&& pageMask)

/-- The five-level walk of the hardware. -/
def hwWalk (mem : BitVec 64 → BitVec 64) (root vaddr : BitVec 64) : Option (BitVec 64) :=
  (hwTable mem root vaddr 4).bind fun table => frame (mem (offset pte table vaddr))

/-- The walk ends at an entry with an invalid bit. -/
def EndsInvalid (mem : BitVec 64 → BitVec 64) (root vaddr : BitVec 64) : Prop :=
  ∃ d ≤ 4, ∃ table, hwTable mem root vaddr d = some table ∧
    (level d).IsNone (mem (offset (level d) table vaddr))

end S390

end AcrnUt
