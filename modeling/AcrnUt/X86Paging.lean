import Mathlib.Data.BitVec
import Mathlib.Tactic

/-!
# Faults and flags of an x86 translation

The last two entries of a 64-bit translation, the entry of the page directory and, unless it maps
a large page, the one of the page table, with the entries above them allowing everything. An
access faults if an entry is not present or has a reserved bit set, if the rights that both
entries leave deny it, or if the protection key of a user page does (`pageFault`).

An access that does not fault sets the accessed flags on its way, and if it writes, the dirty flag
of the page. One that faults may set the accessed flag of the directory entry, if the entry is one
that the processor uses, and changes nothing else (`Access`). Faults do not depend on these flags
(`pageFault_mark`).
-/

set_option linter.unusedSectionVars false

namespace AcrnUt

namespace X86Paging

/-! ## Entries and modes -/

/-- What of the registers paging depends on. -/
structure Mode where
  wp : Bool
  nxe : Bool
  smep : Bool
  pke : Bool
  pkru : BitVec 32
  maxphyaddr : ℕ

/-- The kinds of accesses. -/
inductive Kind
  | read
  | write
  | fetch
  deriving DecidableEq

/-- An access in user or in supervisor mode. -/
structure PageAccess where
  user : Bool
  kind : Kind

/-- A table entry. -/
abbrev PageEntry := BitVec 64

namespace PageEntry

def present (e : PageEntry) : Bool := e.getLsbD 0

def writable (e : PageEntry) : Bool := e.getLsbD 1

def user (e : PageEntry) : Bool := e.getLsbD 2

def large (e : PageEntry) : Bool := e.getLsbD 7

def nx (e : PageEntry) : Bool := e.getLsbD 63

/-- The protection key. -/
def key (e : PageEntry) : ℕ := (e.extractLsb' 59 4).toNat

end PageEntry

/-- The accessed flag. -/
def accessedBit : PageEntry := .twoPow 64 5

/-- The dirty flag. -/
def dirtyBit : PageEntry := .twoPow 64 6

/-- The entry has a bit set that must be 0 : one of the address that the processor does not have,
the execute-disable bit while it is not enabled, or a low bit of the address of a large page. -/
def Mode.reserved (m : Mode) (large : Bool) (e : PageEntry) : Bool :=
  (List.range 40).any (fun i => decide (m.maxphyaddr ≤ 12 + i) && e.getLsbD (12 + i)) ||
    (!m.nxe && e.nx) || (large && (List.range 8).any fun i => e.getLsbD (13 + i))

/-- The processor uses the entry : it is present and has no reserved bit set. -/
def Mode.usable (m : Mode) (e : PageEntry) : Bool :=
  e.present && !m.reserved e.large e

/-! ## Faults -/

/-- What the entries of a translation allow together. -/
structure Rights where
  writable : Bool
  user : Bool
  executable : Bool

/-- The write protection of read-only pages applies to the access. -/
def Mode.protects (m : Mode) (a : PageAccess) : Bool :=
  a.user || m.wp

/-- The rights deny the access. -/
def Rights.deny (r : Rights) (m : Mode) (a : PageAccess) : Bool :=
  (a.user && !r.user) || (a.kind == .write && !r.writable && m.protects a) ||
    (a.kind == .fetch && !r.executable) ||
    (a.kind == .fetch && !a.user && r.user && m.smep)

/-- The protection key of a user page denies the access, which is not a fetch. -/
def Rights.keyDeny (r : Rights) (m : Mode) (a : PageAccess) (key : ℕ) : Bool :=
  m.pke && r.user && a.kind != .fetch &&
    (m.pkru.getLsbD (2 * key) ||
      (a.kind == .write && m.pkru.getLsbD (2 * key + 1) && m.protects a))

/-- A bit of an error code. -/
def codeBit (b : Bool) (i : ℕ) : BitVec 32 :=
  if b then 1#32 <<< i else 0

/-- The error code of a page fault. -/
def errorCode (m : Mode) (a : PageAccess) (present reserved key : Bool) : BitVec 32 :=
  codeBit present 0 ||| codeBit (a.kind == .write) 1 ||| codeBit a.user 2 |||
    codeBit reserved 3 ||| codeBit (a.kind == .fetch && (m.nxe || m.smep)) 4 ||| codeBit key 5

/-- The fault of an access to a page that is reached, with the rights of its entries. -/
def leafFault (m : Mode) (a : PageAccess) (r : Rights) (key : ℕ) : Option (BitVec 32) :=
  if r.deny m a || r.keyDeny m a key then
    some (errorCode m a true false (r.keyDeny m a key))
  else none

/-- The fault of an access, with its error code. -/
def pageFault (m : Mode) (a : PageAccess) (pde pte : PageEntry) : Option (BitVec 32) :=
  if !pde.present then some (errorCode m a false false false)
  else if m.reserved pde.large pde then some (errorCode m a true true false)
  else if pde.large then leafFault m a ⟨pde.writable, pde.user, !pde.nx⟩ pde.key
  else if !pte.present then some (errorCode m a false false false)
  else if m.reserved false pte then some (errorCode m a true true false)
  else
    leafFault m a ⟨pde.writable && pte.writable, pde.user && pte.user, !pde.nx && !pte.nx⟩ pte.key

/-! ## Flags -/

/-- The flags that an access sets in the entry of its page. -/
def pageBits (a : PageAccess) : PageEntry :=
  accessedBit ||| if a.kind = .write then dirtyBit else 0

/-- An access, with its fault and the entries it leaves. A fault may come after the flag of the
directory entry is set, but no flag is set in an entry that is not used. -/
inductive Access (m : Mode) (a : PageAccess) (pde pte : PageEntry) :
    Option (BitVec 32) → PageEntry → PageEntry → Prop
  | large : pageFault m a pde pte = none → pde.large = true →
      Access m a pde pte none (pde ||| pageBits a) pte
  | small : pageFault m a pde pte = none → pde.large = false →
      Access m a pde pte none (pde ||| accessedBit) (pte ||| pageBits a)
  | fault {e : BitVec 32} : pageFault m a pde pte = some e → Access m a pde pte (some e) pde pte
  | faultAccessed {e : BitVec 32} : pageFault m a pde pte = some e → m.usable pde = true →
      Access m a pde pte (some e) (pde ||| accessedBit) pte

/-- Bits that only say how a page was used. -/
def IsMark (b : PageEntry) : Prop :=
  ∀ i, i ≠ 5 → i ≠ 6 → b.getLsbD i = false

theorem isMark_zero : IsMark 0 :=
  fun _ _ _ => BitVec.getLsbD_zero

theorem isMark_accessedBit : IsMark accessedBit := by
  intro i h₅ _
  simp [accessedBit, BitVec.getLsbD_twoPow, h₅.symm]

theorem isMark_dirtyBit : IsMark dirtyBit := by
  intro i _ h₆
  simp [dirtyBit, BitVec.getLsbD_twoPow, h₆.symm]

theorem IsMark.or {b c : PageEntry} (hb : IsMark b) (hc : IsMark c) : IsMark (b ||| c) := by
  intro i h₅ h₆
  rw [BitVec.getLsbD_or, hb i h₅ h₆, hc i h₅ h₆, Bool.or_false]

theorem isMark_pageBits (a : PageAccess) : IsMark (pageBits a) := by
  unfold pageBits
  split
  · exact isMark_accessedBit.or isMark_dirtyBit
  · exact isMark_accessedBit.or isMark_zero

section Mark

variable {m : Mode} {a : PageAccess} {pde pte b c : PageEntry}

theorem IsMark.getLsbD_or (hb : IsMark b) (e : PageEntry) {i : ℕ} (h₅ : i ≠ 5) (h₆ : i ≠ 6) :
    (e ||| b).getLsbD i = e.getLsbD i := by
  rw [BitVec.getLsbD_or, hb i h₅ h₆, Bool.or_false]

theorem IsMark.key_or (hb : IsMark b) (e : PageEntry) : (e ||| b).key = e.key := by
  have hextract : (e ||| b).extractLsb' 59 4 = e.extractLsb' 59 4 := by
    refine BitVec.eq_of_getLsbD_eq fun i _ => ?_
    rw [BitVec.getLsbD_extractLsb', BitVec.getLsbD_extractLsb',
      hb.getLsbD_or e (by omega) (by omega)]
  rw [PageEntry.key, hextract, PageEntry.key]

theorem IsMark.reserved_or (hb : IsMark b) (large : Bool) (e : PageEntry) :
    m.reserved large (e ||| b) = m.reserved large e := by
  have hbit : ∀ i, (e ||| b).getLsbD (12 + i) = e.getLsbD (12 + i) :=
    fun i => hb.getLsbD_or e (by omega) (by omega)
  have hlow : ∀ i, (e ||| b).getLsbD (13 + i) = e.getLsbD (13 + i) :=
    fun i => hb.getLsbD_or e (by omega) (by omega)
  have hnx : (e ||| b).nx = e.nx := hb.getLsbD_or e (by omega) (by omega)
  simp only [Mode.reserved, hbit, hlow, hnx]

/-- Whether an access faults does not depend on how the page was used before. -/
theorem pageFault_mark (hb : IsMark b) (hc : IsMark c) :
    pageFault m a (pde ||| b) (pte ||| c) = pageFault m a pde pte := by
  have hbit : ∀ {d : PageEntry} (_ : IsMark d) (e : PageEntry), (e ||| d).present = e.present ∧
      (e ||| d).writable = e.writable ∧ (e ||| d).user = e.user ∧ (e ||| d).large = e.large ∧
      (e ||| d).nx = e.nx := fun hd e =>
    ⟨hd.getLsbD_or e (by omega) (by omega), hd.getLsbD_or e (by omega) (by omega),
      hd.getLsbD_or e (by omega) (by omega), hd.getLsbD_or e (by omega) (by omega),
      hd.getLsbD_or e (by omega) (by omega)⟩
  obtain ⟨hp, hw, hu, hl, hn⟩ := hbit hb pde
  obtain ⟨hp', hw', hu', -, hn'⟩ := hbit hc pte
  simp only [pageFault, hp, hw, hu, hl, hn, hp', hw', hu', hn', hb.key_or, hc.key_or,
    hb.reserved_or, hc.reserved_or]

end Mark

end X86Paging

end AcrnUt
