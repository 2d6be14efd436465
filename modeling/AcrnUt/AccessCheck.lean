import AcrnUt.AccessBump
import AcrnUt.X86Paging

/-!
# What the access test expects

`ac_set_expected_status` of `x86/access.c` computes from the flags of a configuration whether the
access must fault, the error code, and the two table entries afterwards. `ac_test_do_access`
compares them with what it sees. With the accessed flag of the directory entry not asked for, an
access that faults may leave it either way, and the comparison ignores it.

The comparison accepts what the architecture allows (`X86Paging.Access`), for every legal
configuration and for entries that were used before. It accepts nothing else, but for a faulting
access after which the accessed flag of the directory entry has been ignored : one that was lost,
or set in an entry that the processor does not use (`AccessTest.checks_iff`).
-/

set_option linter.unusedSectionVars false

namespace AcrnUt

open X86Paging

namespace AccessTest

/-! ## The code -/

/-- `PT_ACCESSED_MASK`. -/
def ptAccessedMask : BitVec 64 := 1#64 <<< 5

/-- `PT_DIRTY_MASK`. -/
def ptDirtyMask : BitVec 64 := 1#64 <<< 6

/-- `PFERR_PRESENT_MASK`. -/
def pferrPresentMask : BitVec 32 := 1#32 <<< 0

/-- `PFERR_WRITE_MASK`. -/
def pferrWriteMask : BitVec 32 := 1#32 <<< 1

/-- `PFERR_USER_MASK`. -/
def pferrUserMask : BitVec 32 := 1#32 <<< 2

/-- `PFERR_RESERVED_MASK`. -/
def pferrReservedMask : BitVec 32 := 1#32 <<< 3

/-- `PFERR_FETCH_MASK`. -/
def pferrFetchMask : BitVec 32 := 1#32 <<< 4

/-- `PFERR_PK_MASK`. -/
def pferrPkMask : BitVec 32 := 1#32 <<< 5

/-- The expectations of `ac_test_t`. -/
structure Expect where
  pte : BitVec 64
  pde : BitVec 64
  ignorePde : BitVec 64
  fault : Bool
  error : BitVec 32

/-- `if (cond) at->expected_fault = 1`. -/
def Expect.faultIf (x : Expect) (cond : Bool) : Expect :=
  if cond then { x with fault := true } else x

/-- `expected_fault` and bits of `expected_error`. -/
def Expect.faultWith (x : Expect) (bits : BitVec 32) : Expect :=
  { x with fault := true, error := x.error ||| bits }

/-- `ac_test_permissions`. -/
def acTestPermissions (x : Expect) (flags : BitVec 32) (writable user executable : Bool) :
    BitVec 64 × Expect :=
  let kwritable := !hasFlag flags .cpuCr0Wp && !hasFlag flags .accessUser
  let x := x.faultIf (hasFlag flags .accessUser && !user)
  let x := x.faultIf (hasFlag flags .accessWrite && !writable && !kwritable)
  let x := x.faultIf (hasFlag flags .accessFetch && !executable)
  let x := x.faultIf (hasFlag flags .accessFetch && user && hasFlag flags .cpuCr4Smep)
  let x :=
    if user && !hasFlag flags .accessFetch && hasFlag flags .pkuPkey &&
        hasFlag flags .cpuCr4Pke then
      if hasFlag flags .pkuAd then x.faultWith pferrPkMask
      else if hasFlag flags .accessWrite && hasFlag flags .pkuWd && !kwritable then
        x.faultWith pferrPkMask
      else x
    else x
  let expected : BitVec 64 :=
    if !x.fault then
      if hasFlag flags .accessWrite then 0 ||| ptAccessedMask ||| ptDirtyMask
      else 0 ||| ptAccessedMask
    else 0
  (expected, x)

/-- An entry of `ac_emulate_access` that is not valid. -/
def notValid (x : Expect) (present : Bool) : Expect :=
  if present then x.faultWith pferrReservedMask
  else { x with fault := true, error := x.error &&& ~~~pferrPresentMask }

/-- `if (cond) at->expected_error |= bits`. -/
def Expect.errorIf (x : Expect) (cond : Bool) (bits : BitVec 32) : Expect :=
  if cond then { x with error := x.error ||| bits } else x

/-- `ac_emulate_access`, up to the first entry. -/
def acEmulateAccess.start (x : Expect) (flags : BitVec 32) : Expect :=
  let x := x.errorIf (hasFlag flags .accessUser) pferrUserMask
  let x := x.errorIf (hasFlag flags .accessWrite) pferrWriteMask
  let x := x.errorIf (hasFlag flags .accessFetch) pferrFetchMask
  if !hasFlag flags .pdeAccessed then { x with ignorePde := ptAccessedMask } else x

/-- `ac_emulate_access`, with the entries. -/
def acEmulateAccess.entries (x : Expect) (flags : BitVec 32) : Expect :=
  let pdeValid := hasFlag flags .pdePresent && !hasFlag flags .pdeBit51 &&
    !hasFlag flags .pdeBit13 && !(hasFlag flags .pdeNx && !hasFlag flags .cpuEferNx)
  if !pdeValid then notValid x (hasFlag flags .pdePresent)
  else
    let writable := hasFlag flags .pdeWritable
    let user := hasFlag flags .pdeUser
    let executable := !hasFlag flags .pdeNx
    if hasFlag flags .pdePse then
      let r := acTestPermissions x flags writable user executable
      { r.2 with pde := r.2.pde ||| r.1 }
    else
      let x := { x with pde := x.pde ||| ptAccessedMask }
      let pteValid := hasFlag flags .ptePresent && !hasFlag flags .pteBit51 &&
        !(hasFlag flags .pteNx && !hasFlag flags .cpuEferNx)
      if !pteValid then notValid x (hasFlag flags .ptePresent)
      else
        let writable := writable && hasFlag flags .pteWritable
        let user := user && hasFlag flags .pteUser
        let executable := executable && !hasFlag flags .pteNx
        let r := acTestPermissions x flags writable user executable
        { r.2 with pte := r.2.pte ||| r.1 }

/-- `ac_emulate_access`, from the label `fault` on. -/
def acEmulateAccess.finish (x : Expect) (flags : BitVec 32) : Expect :=
  let x := if !x.fault then { x with ignorePde := 0 } else x
  if !hasFlag flags .cpuEferNx && !hasFlag flags .cpuCr4Smep then
    { x with error := x.error &&& ~~~pferrFetchMask } else x

/-- `ac_emulate_access`. -/
def acEmulateAccess (x : Expect) (flags : BitVec 32) : Expect :=
  acEmulateAccess.finish (acEmulateAccess.entries (acEmulateAccess.start x flags) flags) flags

/-- A flag as a bit of the word, `AC_..._MASK`. -/
def mask (x : AcFlag) : BitVec 32 := 1#32 <<< x.ctorIdx

/-- `ac_set_expected_status`, for the entries at `ptep` and `pdep`. Without a page table,
`expected_pte` keeps its value and is not used. -/
def acSetExpectedStatus (flags : BitVec 32) (pde pte : BitVec 64) : Expect :=
  let x : Expect := ⟨pte, pde, 0, false, pferrPresentMask⟩
  let x :=
    if flags &&& mask .accessTwice != 0 then
      { acEmulateAccess x (flags &&& ~~~mask .accessWrite &&& ~~~mask .accessFetch &&&
          ~~~mask .accessUser) with
        fault := false, error := pferrPresentMask, ignorePde := 0 }
    else x
  acEmulateAccess x flags

/-- `pt_match`. -/
def ptMatch (pte1 pte2 ignore : BitVec 64) : Bool :=
  (pte1 &&& ~~~ignore) == (pte2 &&& ~~~ignore)

/-- `ac_test_check`, as what it makes of `*success_ret`. -/
def acTestCheck (success cond : Bool) : Bool :=
  if !success then success else if !cond then success else false

/-- What `ac_test_do_access` sees : the error code if the access has faulted, and the entries. -/
structure Seen where
  fault : Option (BitVec 32)
  pde : BitVec 64
  pte : BitVec 64

/-- The checks of `ac_test_do_access`. -/
def acTestChecks (flags : BitVec 32) (x : Expect) (o : Seen) : Bool :=
  let success := true
  let success := acTestCheck success (o.fault.isSome && !x.fault)
  let success := acTestCheck success (!o.fault.isSome && x.fault)
  let success := acTestCheck success (o.fault.any fun e => e != x.error)
  let success := acTestCheck success (!hasFlag flags .pdePse && o.pte != x.pte)
  acTestCheck success (!ptMatch o.pde x.pde x.ignorePde)

/-! ## The configuration as the processor sees it -/

/-- What `ac_test_do_access` writes to `PKRU`, which it leaves alone while `CR4.PKE` is clear. -/
def pkruOf (flags pkru : BitVec 32) : BitVec 32 :=
  if hasFlag flags .cpuCr4Pke then
    0x30 ||| (if hasFlag flags .pkuWd then 8 else 0) ||| (if hasFlag flags .pkuAd then 4 else 0)
  else pkru

/-- The registers of a configuration, on a processor with the given width of physical addresses. -/
def modeOf (flags pkru : BitVec 32) (maxphyaddr : ℕ) : Mode where
  wp := hasFlag flags .cpuCr0Wp
  nxe := hasFlag flags .cpuEferNx
  smep := hasFlag flags .cpuCr4Smep
  pke := hasFlag flags .cpuCr4Pke
  pkru := pkruOf flags pkru
  maxphyaddr := maxphyaddr

/-- The access that the assembly of `ac_test_do_access` makes. -/
def accessOf (flags : BitVec 32) : PageAccess where
  user := hasFlag flags .accessUser
  kind := if hasFlag flags .accessFetch then .fetch
    else if hasFlag flags .accessWrite then .write else .read

/-- The access before it, in a configuration that asks for two. -/
def firstAccess : PageAccess := ⟨false, .read⟩

/-- The entry has the bits of the configuration, and no other reserved one. -/
structure EntryAgrees (maxphyaddr : ℕ) (present writable user nx bit51 : Bool)
    (e : PageEntry) : Prop where
  present : e.present = present
  writable : e.writable = writable
  user : e.user = user
  nx : e.nx = nx
  bit51 : e.getLsbD 51 = bit51
  address : ∀ i, maxphyaddr ≤ i → i < 51 → e.getLsbD i = false

/-- The key of an entry that maps a page. -/
def keyOf (flags : BitVec 32) : ℕ :=
  if hasFlag flags .pkuPkey then 1 else 0

/-- The entries are those of the configuration, but for flags that say how they were used. -/
structure Agrees (flags : BitVec 32) (maxphyaddr : ℕ) (pde pte : PageEntry) : Prop where
  directory : EntryAgrees maxphyaddr (hasFlag flags .pdePresent) (hasFlag flags .pdeWritable)
    (hasFlag flags .pdeUser) (hasFlag flags .pdeNx) (hasFlag flags .pdeBit51) pde
  large : pde.large = hasFlag flags .pdePse
  accessed : hasFlag flags .pdeAccessed = true → pde.getLsbD 5 = true
  largePage : hasFlag flags .pdePse = true → pde.getLsbD 13 = hasFlag flags .pdeBit13 ∧
    (∀ i, 13 < i → i < 21 → pde.getLsbD i = false) ∧ pde.key = keyOf flags
  table : hasFlag flags .pdePse = false → EntryAgrees maxphyaddr (hasFlag flags .ptePresent)
    (hasFlag flags .pteWritable) (hasFlag flags .pteUser) (hasFlag flags .pteNx)
    (hasFlag flags .pteBit51) pte ∧ pte.key = keyOf flags

/-- The architecture allows what is seen, after one access or two. -/
def Allowed (flags pkru : BitVec 32) (maxphyaddr : ℕ) (pde pte : BitVec 64) (o : Seen) : Prop :=
  if hasFlag flags .accessTwice then
    ∃ fault pde₁ pte₁, Access (modeOf flags pkru maxphyaddr) firstAccess pde pte fault pde₁ pte₁ ∧
      Access (modeOf flags pkru maxphyaddr) (accessOf flags) pde₁ pte₁ o.fault o.pde o.pte
  else Access (modeOf flags pkru maxphyaddr) (accessOf flags) pde pte o.fault o.pde o.pte

/-! ## Permissions -/

section Permissions

variable {flags pkru : BitVec 32} {maxphyaddr : ℕ}

theorem Expect.faultIf_eq (x : Expect) (c : Bool) :
    x.faultIf c = { x with fault := x.fault || c } := by
  cases c <;> simp [faultIf]

theorem ite_key (x : Expect) (c ad wd : Bool) :
    (if c then if ad then x.faultWith pferrPkMask else if wd then x.faultWith pferrPkMask else x
      else x) =
      { x with
        fault := x.fault || c && (ad || wd)
        error := x.error ||| if c && (ad || wd) then pferrPkMask else 0 } := by
  cases c <;> cases ad <;> cases wd <;> simp [Expect.faultWith]

/-- A legal configuration asks for one kind of access. -/
theorem kind_eq (hlegal : acTestLegal flags = true) :
    ((accessOf flags).kind == .write) = hasFlag flags .accessWrite ∧
      ((accessOf flags).kind == .fetch) = hasFlag flags .accessFetch := by
  have hone : hasFlag flags .accessFetch = false ∨ hasFlag flags .accessWrite = false := by
    unfold acTestLegal at hlegal
    simp_all
  unfold accessOf
  rcases hone with h | h
  · cases hasFlag flags .accessWrite <;> simp [h]
  · cases hasFlag flags .accessFetch <;> simp [h]

/-- The rights deny the access exactly if the first four tests find a fault. -/
theorem deny_eq (pkru : BitVec 32) (maxphyaddr : ℕ) (hlegal : acTestLegal flags = true)
    (writable user executable : Bool) :
    Rights.deny ⟨writable, user, executable⟩ (modeOf flags pkru maxphyaddr) (accessOf flags) =
      (hasFlag flags .accessUser && !user ||
        hasFlag flags .accessWrite && !writable &&
          !(!hasFlag flags .cpuCr0Wp && !hasFlag flags .accessUser) ||
        hasFlag flags .accessFetch && !executable ||
        hasFlag flags .accessFetch && user && hasFlag flags .cpuCr4Smep) := by
  obtain ⟨hw, hf⟩ := kind_eq hlegal
  have hsmep : hasFlag flags .accessUser = false ∨ hasFlag flags .cpuCr4Smep = false := by
    unfold acTestLegal at hlegal
    simp_all
  simp only [Rights.deny, Mode.protects, hw, hf]
  rcases hsmep with h | h <;> simp [modeOf, accessOf, h, Bool.or_comm, Bool.and_assoc]

/-- The keys that `PKRU` is set up for. -/
theorem pkru_key (pkru : BitVec 32) (hpke : hasFlag flags .cpuCr4Pke = true) :
    (pkruOf flags pkru).getLsbD (2 * keyOf flags) =
        (hasFlag flags .pkuPkey && hasFlag flags .pkuAd) ∧
      (pkruOf flags pkru).getLsbD (2 * keyOf flags + 1) =
        (hasFlag flags .pkuPkey && hasFlag flags .pkuWd) := by
  unfold pkruOf keyOf
  cases hasFlag flags .pkuPkey <;> cases hasFlag flags .pkuAd <;> cases hasFlag flags .pkuWd <;>
    simp [hpke]

/-- The key denies the access exactly if the last test finds a fault. -/
theorem keyDeny_eq (pkru : BitVec 32) (maxphyaddr : ℕ) (hlegal : acTestLegal flags = true)
    (writable user executable : Bool) :
    Rights.keyDeny ⟨writable, user, executable⟩ (modeOf flags pkru maxphyaddr) (accessOf flags)
        (keyOf flags) =
      (user && !hasFlag flags .accessFetch && hasFlag flags .pkuPkey &&
        hasFlag flags .cpuCr4Pke && (hasFlag flags .pkuAd ||
          hasFlag flags .accessWrite && hasFlag flags .pkuWd &&
            !(!hasFlag flags .cpuCr0Wp && !hasFlag flags .accessUser))) := by
  obtain ⟨hw, hf⟩ := kind_eq hlegal
  have hne : ((accessOf flags).kind != .fetch) = !hasFlag flags .accessFetch := congrArg not hf
  simp only [Rights.keyDeny, Mode.protects, hw, hne]
  cases hpke : hasFlag flags .cpuCr4Pke
  · simp [modeOf, hpke]
  · obtain ⟨had, hwd⟩ := pkru_key pkru hpke
    simp only [modeOf, had, hwd, hpke, accessOf]
    cases hasFlag flags .pkuPkey <;> simp [Bool.or_comm]

theorem pageBits_eq (hlegal : acTestLegal flags = true) :
    pageBits (accessOf flags) =
      if hasFlag flags .accessWrite then 0 ||| ptAccessedMask ||| ptDirtyMask
      else 0 ||| ptAccessedMask := by
  have hw : (accessOf flags).kind = .write ↔ hasFlag flags .accessWrite = true := by
    rw [← (kind_eq hlegal).1, beq_iff_eq]
  simp only [pageBits, hw]
  cases hasFlag flags .accessWrite <;> rfl

/-- `ac_test_permissions` finds the faults of a page that is reached. -/
theorem acTestPermissions_eq (hlegal : acTestLegal flags = true) {x : Expect}
    (hx : x.fault = false) (writable user executable : Bool) {r : Rights}
    (hr : r = ⟨writable, user, executable⟩) {m : Mode} (hm : m = modeOf flags pkru maxphyaddr)
    {a : PageAccess} (ha : a = accessOf flags) :
    acTestPermissions x flags writable user executable =
      (if r.deny m a || r.keyDeny m a (keyOf flags) then 0 else pageBits a,
        { x with
          fault := r.deny m a || r.keyDeny m a (keyOf flags)
          error := x.error ||| if r.keyDeny m a (keyOf flags) then pferrPkMask else 0 }) := by
  subst hr hm ha
  have hd := deny_eq pkru maxphyaddr hlegal writable user executable
  have hk := keyDeny_eq pkru maxphyaddr hlegal writable user executable
  unfold acTestPermissions
  simp only [Expect.faultIf_eq, ite_key, hx, Bool.false_or] at hd ⊢
  rw [← hk, ← hd, pageBits_eq hlegal]
  cases Rights.deny ⟨writable, user, executable⟩ (modeOf flags pkru maxphyaddr)
      (accessOf flags) || Rights.keyDeny ⟨writable, user, executable⟩
      (modeOf flags pkru maxphyaddr) (accessOf flags) (keyOf flags) <;> rfl

end Permissions

/-! ## Entries -/

section Entries

variable {flags pkru : BitVec 32} {maxphyaddr : ℕ} {present writable user nx bit51 : Bool}
  {e : PageEntry} {m : Mode}

/-- Of the bits of the address, only bit 51 can be one that the processor does not have. -/
theorem EntryAgrees.any_eq (h : EntryAgrees maxphyaddr present writable user nx bit51 e)
    (hm : maxphyaddr ≤ 51) :
    ((List.range 40).any fun i => decide (maxphyaddr ≤ 12 + i) && e.getLsbD (12 + i)) = bit51 := by
  rw [Bool.eq_iff_iff, List.any_eq_true, ← h.bit51]
  constructor
  · rintro ⟨i, hi, hbit⟩
    obtain ⟨hle, hbit⟩ := Bool.and_eq_true_iff.mp hbit
    rcases lt_or_ge (12 + i) 51 with hlt | hge
    · rw [h.address _ (of_decide_eq_true hle) hlt] at hbit
      exact nomatch hbit
    · rw [List.mem_range] at hi
      obtain rfl : i = 39 := by omega
      exact hbit
  · intro hbit
    exact ⟨39, by simp, by simpa [hm] using hbit⟩

theorem EntryAgrees.reserved_eq (h : EntryAgrees maxphyaddr present writable user nx bit51 e)
    (hm : maxphyaddr ≤ 51) (hM : m.maxphyaddr = maxphyaddr) :
    m.reserved false e = (bit51 || !m.nxe && nx) := by
  subst hM
  rw [Mode.reserved, h.any_eq hm, h.nx, Bool.false_and, Bool.or_false]

/-- In the entry of a large page, bit 13 is another. -/
theorem EntryAgrees.reserved_large (h : EntryAgrees maxphyaddr present writable user nx bit51 e)
    (hm : maxphyaddr ≤ 51) (hM : m.maxphyaddr = maxphyaddr)
    (hlow : ∀ i, 13 < i → i < 21 → e.getLsbD i = false) :
    m.reserved true e = (bit51 || !m.nxe && nx || e.getLsbD 13) := by
  subst hM
  have hany : ((List.range 8).any fun i => e.getLsbD (13 + i)) = e.getLsbD 13 := by
    rw [Bool.eq_iff_iff, List.any_eq_true]
    constructor
    · rintro ⟨i, hi, hbit⟩
      rcases Nat.eq_zero_or_pos i with rfl | hpos
      · exact hbit
      · rw [List.mem_range] at hi
        rw [hlow _ (by omega) (by omega)] at hbit
        exact nomatch hbit
    · exact fun hbit => ⟨0, by simp, hbit⟩
  rw [Mode.reserved, h.any_eq hm, h.nx, hany, Bool.true_and]

end Entries

/-! ## One access -/

section Emulate

variable {flags pkru : BitVec 32} {maxphyaddr : ℕ} {pde pte : PageEntry} {x : Expect}

/-- The bits of the expected error that `ac_emulate_access` sets first. -/
def startError (flags : BitVec 32) : BitVec 32 :=
  (if hasFlag flags .accessUser then pferrUserMask else 0) |||
    (if hasFlag flags .accessWrite then pferrWriteMask else 0) |||
    (if hasFlag flags .accessFetch then pferrFetchMask else 0)

/-- What the accessed flag of the directory entry is ignored for. -/
def startIgnore (flags : BitVec 32) : BitVec 64 :=
  if hasFlag flags .pdeAccessed then 0 else ptAccessedMask

theorem start_eq (hignore : x.ignorePde = 0) :
    acEmulateAccess.start x flags =
      { x with error := x.error ||| startError flags, ignorePde := startIgnore flags } := by
  have herr : ∀ (y : Expect) (c : Bool) (b : BitVec 32), y.errorIf c b =
      { y with error := y.error ||| if c then b else 0 } := by
    intro y c b
    cases c <;> simp [Expect.errorIf]
  unfold acEmulateAccess.start startError startIgnore
  simp only [herr]
  cases hasFlag flags .pdeAccessed <;> simp [BitVec.or_assoc, hignore]

/-- The error code of an entry that is not valid, or of a page that denies the access. -/
theorem finish_error (pkru : BitVec 32) (maxphyaddr : ℕ) (hlegal : acTestLegal flags = true)
    (present reserved key : Bool) (hpresent : present = false → key = false) :
    (let e := pferrPresentMask ||| startError flags
     let e := if present then e ||| if reserved then pferrReservedMask else 0
       else e &&& ~~~pferrPresentMask
     let e := e ||| if key then pferrPkMask else 0
     if !hasFlag flags .cpuEferNx && !hasFlag flags .cpuCr4Smep then e &&& ~~~pferrFetchMask
     else e) =
      errorCode (modeOf flags pkru maxphyaddr) (accessOf flags) present (present && reserved)
        key := by
  obtain ⟨hw, hf⟩ := kind_eq hlegal
  have hu : (accessOf flags).user = hasFlag flags .accessUser := rfl
  simp only [errorCode, startError, hw, hf, hu, modeOf]
  generalize hasFlag flags .accessUser = user
  generalize hasFlag flags .accessWrite = write
  generalize hasFlag flags .accessFetch = fetch
  generalize hasFlag flags .cpuEferNx = nx
  generalize hasFlag flags .cpuCr4Smep = smep
  clear hlegal hw hf hu
  revert user write fetch nx smep present reserved key
  decide

/-- What `ac_emulate_access` expects of an access, for the fault `f` that the processor finds. -/
structure Emulated (flags : BitVec 32) (x y : Expect) (f : Option (BitVec 32)) : Prop where
  fault : y.fault = f.isSome
  error : ∀ e, f = some e → y.error = e
  ignore : y.ignorePde = if f.isSome then startIgnore flags else 0
  pde : ∃ b, y.pde = x.pde ||| b ∧
    if f.isSome then b = 0 ∨ b = ptAccessedMask
    else b = if hasFlag flags .pdePse then pageBits (accessOf flags) else ptAccessedMask
  pte : y.pte = if f.isNone && !hasFlag flags .pdePse then x.pte ||| pageBits (accessOf flags)
    else x.pte

/-- The last part of `ac_emulate_access`, by its fields. -/
theorem finish_eq (x : Expect) : acEmulateAccess.finish x flags =
    { x with
      ignorePde := if x.fault then x.ignorePde else 0
      error := if !hasFlag flags .cpuEferNx && !hasFlag flags .cpuCr4Smep then
        x.error &&& ~~~pferrFetchMask else x.error } := by
  obtain ⟨pte, pde, ignorePde, fault, error⟩ := x
  unfold acEmulateAccess.finish
  cases fault <;> cases !hasFlag flags .cpuEferNx && !hasFlag flags .cpuCr4Smep <;> rfl

/-- An entry that is not valid. -/
theorem emulated_notValid (hlegal : acTestLegal flags = true) {y : Expect} {b : BitVec 64}
    (hy : y = { x with
      error := pferrPresentMask ||| startError flags
      ignorePde := startIgnore flags
      pde := x.pde ||| b })
    (hb : b = 0 ∨ b = ptAccessedMask) (present : Bool) {m : Mode} {a : PageAccess}
    (hm : m = modeOf flags pkru maxphyaddr) (ha : a = accessOf flags) :
    Emulated flags x (acEmulateAccess.finish (notValid y present) flags)
      (some (errorCode m a present present false)) := by
  subst hy hm ha
  have herr := finish_error pkru maxphyaddr hlegal present true false
    fun _ => rfl
  rw [finish_eq]
  refine ⟨?_, fun e he => ?_, ?_, ⟨b, ?_, by simpa using hb⟩, ?_⟩
  · cases present <;> rfl
  · cases he
    rw [Bool.and_true] at herr
    rw [← herr]
    cases present <;> simp [notValid, Expect.faultWith]
  · cases present <;> rfl
  · cases present <;> rfl
  · cases present <;> rfl

/-- The fault of a page that is reached, and its error code. -/
theorem leafFault_eq (m : Mode) (a : PageAccess) (r : Rights) (key : ℕ) :
    (leafFault m a r key).isSome = (r.deny m a || r.keyDeny m a key) ∧
      ∀ e, leafFault m a r key = some e → e = errorCode m a true false (r.keyDeny m a key) := by
  unfold leafFault
  cases r.deny m a || r.keyDeny m a key
  · exact ⟨rfl, fun e he => nomatch he⟩
  · exact ⟨rfl, fun e he => (Option.some.inj he).symm⟩

section Leaf

variable {y : Expect} {writable user executable : Bool} {r : Rights} {m : Mode} {a : PageAccess}

/-- The error code that `ac_emulate_access` ends with if the page denies the access. -/
theorem error_of_leafFault (hlegal : acTestLegal flags = true)
    (hy : y.error = pferrPresentMask ||| startError flags) (hfault : y.fault = false)
    (hr : r = ⟨writable, user, executable⟩) (hm : m = modeOf flags pkru maxphyaddr)
    (ha : a = accessOf flags) {z : Expect}
    (hz : z.error = (acTestPermissions y flags writable user executable).2.error) {e : BitVec 32}
    (he : leafFault m a r (keyOf flags) = some e) :
    (acEmulateAccess.finish z flags).error = e := by
  rw [(leafFault_eq m a r _).2 e he, finish_eq, hz,
    acTestPermissions_eq hlegal hfault writable user executable hr hm ha]
  subst hm ha
  have herr := finish_error pkru maxphyaddr hlegal true false
    (r.keyDeny (modeOf flags pkru maxphyaddr) (accessOf flags) (keyOf flags))
    fun h => absurd h.symm Bool.false_ne_true
  rw [Bool.and_false] at herr
  rw [← herr]
  simp [hy]

/-- A large page that is reached. -/
theorem emulated_large (hlegal : acTestLegal flags = true) (hlarge : hasFlag flags .pdePse = true)
    (hy : y = { x with
      error := pferrPresentMask ||| startError flags
      ignorePde := startIgnore flags })
    (hfault : x.fault = false) (hr : r = ⟨writable, user, executable⟩)
    (hm : m = modeOf flags pkru maxphyaddr) (ha : a = accessOf flags) :
    Emulated flags x
      (acEmulateAccess.finish
        { (acTestPermissions y flags writable user executable).2 with
          pde := (acTestPermissions y flags writable user executable).2.pde |||
            (acTestPermissions y flags writable user executable).1 } flags)
      (leafFault m a r (keyOf flags)) := by
  have hyfault : y.fault = false := by rw [hy]; exact hfault
  have hyerror : y.error = pferrPresentMask ||| startError flags := by rw [hy]
  have hperm := acTestPermissions_eq hlegal hyfault writable user executable hr hm ha
  have hsome := (leafFault_eq m a r (keyOf flags)).1
  refine ⟨?_, fun e he => ?_, ?_, ?_, ?_⟩
  · rw [finish_eq, hperm, hsome]
  · refine error_of_leafFault hlegal hyerror hyfault hr hm ha ?_ he
    rfl
  · rw [finish_eq, hperm, hsome, hy]
  · refine ⟨(acTestPermissions y flags writable user executable).1, ?_, ?_⟩
    · rw [finish_eq, hperm, hy]
    · rw [hperm, hsome, hlarge, ha]
      split <;> simp
  · rw [finish_eq, hperm, hlarge, hy]
    simp

/-- A page of a table that is reached. -/
theorem emulated_small (hlegal : acTestLegal flags = true) (hsmall : hasFlag flags .pdePse = false)
    (hy : y = { x with
      error := pferrPresentMask ||| startError flags
      ignorePde := startIgnore flags
      pde := x.pde ||| ptAccessedMask })
    (hfault : x.fault = false) (hr : r = ⟨writable, user, executable⟩)
    (hm : m = modeOf flags pkru maxphyaddr) (ha : a = accessOf flags) :
    Emulated flags x
      (acEmulateAccess.finish
        { (acTestPermissions y flags writable user executable).2 with
          pte := (acTestPermissions y flags writable user executable).2.pte |||
            (acTestPermissions y flags writable user executable).1 } flags)
      (leafFault m a r (keyOf flags)) := by
  have hyfault : y.fault = false := by rw [hy]; exact hfault
  have hyerror : y.error = pferrPresentMask ||| startError flags := by rw [hy]
  have hperm := acTestPermissions_eq hlegal hyfault writable user executable hr hm ha
  have hsome := (leafFault_eq m a r (keyOf flags)).1
  refine ⟨?_, fun e he => ?_, ?_, ?_, ?_⟩
  · rw [finish_eq, hperm, hsome]
  · refine error_of_leafFault hlegal hyerror hyfault hr hm ha ?_ he
    rfl
  · rw [finish_eq, hperm, hsome, hy]
  · refine ⟨ptAccessedMask, ?_, ?_⟩
    · rw [finish_eq, hperm, hy]
    · rw [hsmall]
      split <;> simp
  · rw [finish_eq, hperm, hsmall, ← Option.not_isSome, hsome, hy, ha]
    cases r.deny m (accessOf flags) || r.keyDeny m (accessOf flags) (keyOf flags) <;> simp

end Leaf

/-- The reserved bits of a directory entry. -/
theorem reserved_pde (pkru : BitVec 32) (hlegal : acTestLegal flags = true)
    (hwidth : maxphyaddr ≤ 51) (h : Agrees flags maxphyaddr pde pte) :
    (modeOf flags pkru maxphyaddr).reserved pde.large pde =
      !(!hasFlag flags .pdeBit51 && !hasFlag flags .pdeBit13 &&
        !(hasFlag flags .pdeNx && !hasFlag flags .cpuEferNx)) := by
  rw [h.large]
  cases hlarge : hasFlag flags .pdePse with
  | true =>
    obtain ⟨h₁₃, hlow, -⟩ := h.largePage hlarge
    rw [h.directory.reserved_large hwidth rfl hlow, h₁₃]
    simp only [modeOf]
    cases hasFlag flags .pdeBit51 <;> cases hasFlag flags .pdeBit13 <;> simp [Bool.and_comm]
  | false =>
    have h₁₃ : hasFlag flags .pdeBit13 = false := by
      unfold acTestLegal at hlegal
      simp_all
    rw [h.directory.reserved_eq hwidth rfl, h₁₃]
    simp only [modeOf]
    cases hasFlag flags .pdeBit51 <;> simp [Bool.and_comm]

/-- The reserved bits of a table entry. -/
theorem reserved_pte (pkru : BitVec 32) (hwidth : maxphyaddr ≤ 51)
    (h : Agrees flags maxphyaddr pde pte) (hsmall : hasFlag flags .pdePse = false) :
    (modeOf flags pkru maxphyaddr).reserved false pte =
      !(!hasFlag flags .pteBit51 && !(hasFlag flags .pteNx && !hasFlag flags .cpuEferNx)) := by
  rw [(h.table hsmall).1.reserved_eq hwidth rfl]
  simp only [modeOf]
  cases hasFlag flags .pteBit51 <;> simp [Bool.and_comm]

/-- `ac_emulate_access` expects the fault that the processor finds, and the flags it sets. -/
theorem emulated (pkru : BitVec 32) (hlegal : acTestLegal flags = true)
    (hwidth : maxphyaddr ≤ 51) (h : Agrees flags maxphyaddr pde pte) (hx : x.fault = false)
    (herror : x.error = pferrPresentMask) (hignore : x.ignorePde = 0) :
    Emulated flags x (acEmulateAccess x flags)
      (pageFault (modeOf flags pkru maxphyaddr) (accessOf flags) pde pte) := by
  have hdir := h.directory
  have hres := reserved_pde pkru hlegal hwidth h
  unfold acEmulateAccess
  rw [start_eq hignore, herror]
  unfold acEmulateAccess.entries pageFault
  simp only [hdir.present, hdir.writable, hdir.user, hdir.nx, h.large, Bool.and_assoc] at hres ⊢
  rw [hres]
  cases hpresent : hasFlag flags .pdePresent with
  | false =>
    simp only [Bool.false_and, Bool.not_false, if_true]
    exact emulated_notValid hlegal (by simp) (Or.inl rfl) false rfl rfl
  | true =>
    simp only [Bool.true_and, Bool.not_true, Bool.false_eq_true, if_false]
    split
    · exact emulated_notValid hlegal (by simp) (Or.inl rfl) true rfl rfl
    cases hlarge : hasFlag flags .pdePse with
    | true =>
      rw [(h.largePage hlarge).2.2]
      exact emulated_large hlegal hlarge rfl hx rfl rfl rfl
    | false =>
      obtain ⟨htab, hkey⟩ := h.table hlarge
      have hres' := reserved_pte pkru hwidth h hlarge
      simp only [htab.present, htab.writable, htab.user, htab.nx, Bool.false_eq_true, if_false]
      rw [hres', hkey]
      cases hpresent' : hasFlag flags .ptePresent with
      | false =>
        simp only [Bool.false_and, Bool.not_false, if_true]
        exact emulated_notValid hlegal rfl (Or.inr rfl) false rfl rfl
      | true =>
        simp only [Bool.true_and, Bool.not_true, Bool.false_eq_true, if_false]
        split
        · exact emulated_notValid hlegal rfl (Or.inr rfl) true rfl rfl
        · exact emulated_small hlegal hlarge rfl hx rfl rfl rfl

end Emulate

/-! ## The access before -/

section First

variable {flags pkru : BitVec 32} {maxphyaddr : ℕ} {pde pte : PageEntry}

theorem ctorIdx_lt (x : AcFlag) : x.ctorIdx < 32 := by
  cases x <;> decide

theorem hasFlag_eq (flags : BitVec 32) (x : AcFlag) :
    hasFlag flags x = flags.getLsbD x.ctorIdx := by
  have hne : (BitVec.twoPow 32 x.ctorIdx != 0) = true := by
    rw [bne_iff_ne]
    intro h
    have hbit := congrArg (fun b : BitVec 32 => b.getLsbD x.ctorIdx) h
    simp [ctorIdx_lt x] at hbit
  rw [hasFlag, ← BitVec.twoPow_eq, BitVec.and_twoPow]
  cases flags.getLsbD x.ctorIdx
  · rfl
  · simpa using hne

theorem getLsbD_mask (x y : AcFlag) :
    (mask x).getLsbD y.ctorIdx = decide (x.ctorIdx = y.ctorIdx) := by
  rw [mask, ← BitVec.twoPow_eq, BitVec.getLsbD_twoPow]
  simp [ctorIdx_lt x]

/-- The flags of the first of two accesses. -/
def firstFlags (flags : BitVec 32) : BitVec 32 :=
  flags &&& ~~~mask .accessWrite &&& ~~~mask .accessFetch &&& ~~~mask .accessUser

/-- The flags that the first access keeps. -/
def kept : AcFlag → Bool
  | .accessWrite => false
  | .accessFetch => false
  | .accessUser => false
  | _ => true

theorem hasFlag_first (flags : BitVec 32) (x : AcFlag) :
    hasFlag (firstFlags flags) x = (hasFlag flags x && kept x) := by
  have hkept : (!decide (AcFlag.accessWrite.ctorIdx = x.ctorIdx) &&
      !decide (AcFlag.accessFetch.ctorIdx = x.ctorIdx) &&
      !decide (AcFlag.accessUser.ctorIdx = x.ctorIdx)) = kept x := by
    cases x <;> rfl
  rw [← hkept]
  simp only [hasFlag_eq, firstFlags, BitVec.getLsbD_and, BitVec.getLsbD_not, getLsbD_mask,
    ctorIdx_lt, decide_true, Bool.true_and, Bool.and_assoc]

theorem legal_first (hlegal : acTestLegal flags = true) :
    acTestLegal (firstFlags flags) = true := by
  unfold acTestLegal at hlegal ⊢
  simp_all [hasFlag_first, kept]

theorem modeOf_first :
    modeOf (firstFlags flags) pkru maxphyaddr = modeOf flags pkru maxphyaddr := by
  unfold modeOf pkruOf
  simp [hasFlag_first, kept]

theorem accessOf_first : accessOf (firstFlags flags) = firstAccess := by
  unfold accessOf firstAccess
  simp [hasFlag_first, kept]

theorem keyOf_first : keyOf (firstFlags flags) = keyOf flags := by
  unfold keyOf
  simp [hasFlag_first, kept]

theorem Agrees.first (h : Agrees flags maxphyaddr pde pte) :
    Agrees (firstFlags flags) maxphyaddr pde pte := by
  obtain ⟨h₁, h₂, h₃, h₄, h₅⟩ := h
  constructor <;> simp_all [hasFlag_first, kept, keyOf_first]

end First

/-! ## The checks -/

theorem ptAccessedMask_eq : ptAccessedMask = accessedBit :=
  rfl

/-- Entries that match but for some bits. -/
theorem ptMatch_iff {u v b : BitVec 64} : ptMatch u v b = true ↔ u ||| b = v ||| b := by
  rw [ptMatch, beq_iff_eq]
  constructor
  · intro h
    have hu : ∀ w : BitVec 64, w ||| b = (w &&& ~~~b) ||| b := by
      intro w
      ext i
      simp only [BitVec.getElem_or, BitVec.getElem_and, BitVec.getElem_not]
      cases b[i] <;> simp
    rw [hu u, h, ← hu v]
  · intro h
    have hu : ∀ w : BitVec 64, w &&& ~~~b = (w ||| b) &&& ~~~b := by
      intro w
      ext i
      simp only [BitVec.getElem_or, BitVec.getElem_and, BitVec.getElem_not]
      cases b[i] <;> simp
    rw [hu u, h, ← hu v]

theorem or_eq_self {e : PageEntry} (h : e.getLsbD 5 = true) : e ||| accessedBit = e := by
  refine BitVec.eq_of_getLsbD_eq fun i _ => ?_
  rw [BitVec.getLsbD_or, accessedBit, BitVec.getLsbD_twoPow]
  rcases eq_or_ne 5 i with rfl | hne
  · simp [h]
  · simp [hne]

theorem acTestCheck_eq (s c : Bool) : acTestCheck s c = (s && !c) := by
  cases s <;> cases c <;> rfl

/-- The checks pass if the fault is the expected one and the entries match. -/
theorem acTestChecks_iff {flags : BitVec 32} {x : Expect} {o : Seen} :
    acTestChecks flags x o = true ↔ o.fault.isSome = x.fault ∧
      (∀ e, o.fault = some e → e = x.error) ∧ (hasFlag flags .pdePse = false → o.pte = x.pte) ∧
      o.pde ||| x.ignorePde = x.pde ||| x.ignorePde := by
  rw [← ptMatch_iff]
  simp only [acTestChecks, acTestCheck_eq, Bool.and_eq_true, Bool.true_and]
  cases hf : o.fault <;> cases hx : x.fault <;> cases hp : hasFlag flags .pdePse <;>
    simp [and_assoc]

section Checks

variable {flags pkru : BitVec 32} {maxphyaddr : ℕ} {pde pte pde₁ pte₁ : PageEntry} {x : Expect}
  {o : Seen}

/-- The architecture allows what is seen after one access, but for the accessed flag of the
directory entry after a fault, if the configuration does not ask for it. -/
def Accepts (flags : BitVec 32) (m : Mode) (a : PageAccess) (pde pte : PageEntry) (o : Seen) :
    Prop :=
  Access m a pde pte o.fault o.pde o.pte ∨
    o.fault.isSome = true ∧ hasFlag flags .pdeAccessed = false ∧
      ∃ p, p ||| accessedBit = o.pde ||| accessedBit ∧ Access m a pde pte o.fault p o.pte

theorem access_none_iff {m : Mode} {a : PageAccess} {p t : PageEntry} :
    Access m a pde pte none p t ↔ pageFault m a pde pte = none ∧
      if pde.large then p = pde ||| pageBits a ∧ t = pte
      else p = pde ||| accessedBit ∧ t = pte ||| pageBits a := by
  constructor
  · intro h
    cases h with
    | large hf hl => simp [hf, hl]
    | small hf hl => simp [hf, hl]
  · rintro ⟨hf, h⟩
    split at h
    · obtain ⟨rfl, rfl⟩ := h
      exact .large hf ‹_›
    · obtain ⟨rfl, rfl⟩ := h
      exact .small hf (Bool.eq_false_iff.mpr ‹_›)

theorem access_some_iff {m : Mode} {a : PageAccess} {p t : PageEntry} {e : BitVec 32} :
    Access m a pde pte (some e) p t ↔ pageFault m a pde pte = some e ∧
      (p = pde ∨ m.usable pde = true ∧ p = pde ||| accessedBit) ∧ t = pte := by
  constructor
  · intro h
    cases h with
    | fault hf => exact ⟨hf, Or.inl rfl, rfl⟩
    | faultAccessed hf hu => exact ⟨hf, Or.inr ⟨hu, rfl⟩, rfl⟩
  · rintro ⟨hf, rfl | ⟨hu, rfl⟩, rfl⟩
    · exact .fault hf
    · exact .faultAccessed hf hu

/-- Before the access, the expectations are those of the entries, up to an accessed flag of the
directory entry that the configuration does not ask for. -/
structure Tracks (flags : BitVec 32) (x : Expect) (pde pte : PageEntry) : Prop where
  fault : x.fault = false
  error : x.error = pferrPresentMask
  ignore : x.ignorePde = 0
  accessed : pde ||| accessedBit = x.pde ||| accessedBit
  asked : hasFlag flags .pdeAccessed = true → pde = x.pde
  kept : hasFlag flags .pdeAccessed = true → pde ||| accessedBit = pde
  pte : pte = x.pte

/-- The entry of the directory that is accepted after a fault. -/
theorem Tracks.pde_iff (hx : Tracks flags x pde pte) {b : BitVec 64}
    (hb : b = 0 ∨ b = accessedBit) (u : Prop) (p : PageEntry) :
    p ||| startIgnore flags = x.pde ||| b ||| startIgnore flags ↔
      (p = pde ∨ u ∧ p = pde ||| accessedBit) ∨ hasFlag flags .pdeAccessed = false ∧
        ∃ q, q ||| accessedBit = p ||| accessedBit ∧
          (q = pde ∨ u ∧ q = pde ||| accessedBit) := by
  cases ha : hasFlag flags .pdeAccessed with
  | true =>
    have hxb : x.pde ||| b = pde := by
      rw [← hx.asked ha]
      rcases hb with rfl | rfl
      · simp
      · exact hx.kept ha
    have hignore : startIgnore flags = 0#64 := if_pos ha
    rw [hignore, BitVec.or_zero, BitVec.or_zero, hxb, hx.kept ha]
    refine ⟨fun h => Or.inl (Or.inl h), ?_⟩
    rintro ((h | ⟨-, h⟩) | ⟨hno, -⟩)
    · exact h
    · exact h
    · exact Bool.noConfusion hno
  | false =>
    have hxb : x.pde ||| b ||| accessedBit = pde ||| accessedBit := by
      rw [hx.accessed]
      rcases hb with rfl | rfl <;> simp [BitVec.or_assoc]
    simp only [startIgnore, ha, Bool.false_eq_true, if_false, ptAccessedMask_eq, hxb, true_and]
    have hset : pde ||| accessedBit ||| accessedBit = pde ||| accessedBit := by
      rw [BitVec.or_assoc, BitVec.or_self]
    constructor
    · exact fun h => Or.inr ⟨pde, h.symm, Or.inl rfl⟩
    · rintro ((rfl | ⟨-, rfl⟩) | ⟨q, hq, rfl | ⟨-, rfl⟩⟩)
      · rfl
      · exact hset
      · exact hq.symm
      · exact hq.symm.trans hset

/-- The checks of an access that does not fault. -/
theorem checks_none {y : Expect} {m : Mode} (hx : Tracks flags x pde pte)
    (hy : Emulated flags x y none) (hf : pageFault m (accessOf flags) pde pte = none)
    (hlarge : pde.large = hasFlag flags .pdePse)
    (hplace : hasFlag flags .pdePse = true → o.pte = pte) :
    acTestChecks flags y o = true ↔ Accepts flags m (accessOf flags) pde pte o := by
  obtain ⟨b, hb, hcase⟩ := hy.pde
  rw [acTestChecks_iff, hy.fault, hy.ignore, hy.pte, hb, Accepts]
  cases ho : o.fault with
  | some e => simp [access_some_iff, hf]
  | none =>
    have hbits : ∀ c, pde ||| (accessedBit ||| c) = x.pde ||| (accessedBit ||| c) := by
      intro c
      rw [← BitVec.or_assoc, ← BitVec.or_assoc, hx.accessed]
    cases hp : hasFlag flags .pdePse with
    | true =>
      have hpage : pde ||| pageBits (accessOf flags) = x.pde ||| pageBits (accessOf flags) :=
        hbits _
      obtain rfl : b = pageBits (accessOf flags) := by simpa [hp] using hcase
      simp [access_none_iff, hf, hlarge, hp, hplace hp, hpage]
    | false =>
      obtain rfl : b = accessedBit := by simpa [hp, ptAccessedMask_eq] using hcase
      simp [access_none_iff, hf, hlarge, hp, ← hx.pte, ← hx.accessed, and_comm]

/-- The checks of an access that faults. -/
theorem checks_some {y : Expect} {m : Mode} {e : BitVec 32} (hx : Tracks flags x pde pte)
    (hy : Emulated flags x y (some e)) (hf : pageFault m (accessOf flags) pde pte = some e)
    (hplace : hasFlag flags .pdePse = true → o.pte = pte) :
    acTestChecks flags y o = true ↔ Accepts flags m (accessOf flags) pde pte o := by
  obtain ⟨b, hb, hcase⟩ := hy.pde
  have hpte : (hasFlag flags .pdePse = false → o.pte = x.pte) ↔ o.pte = pte := by
    rw [← hx.pte]
    cases hp : hasFlag flags .pdePse with
    | true => simp [hplace hp]
    | false => simp
  rw [acTestChecks_iff, hy.fault, hy.ignore, hy.pte, hb, Accepts, hy.error e rfl]
  cases ho : o.fault with
  | none => simp [access_none_iff, hf]
  | some e' =>
    have hpde := hx.pde_iff hcase (m.usable pde = true) o.pde
    simp only [access_some_iff, hf, hpte, Option.isSome_some, if_true, Option.isNone_some,
      Bool.false_and, Bool.false_eq_true, if_false, hpde]
    constructor
    · rintro ⟨-, he, ht, hp | ⟨ha, q, hq, hp⟩⟩
      · exact Or.inl ⟨congrArg some (he e' rfl).symm, hp, ht⟩
      · exact Or.inr ⟨trivial, ha, q, hq, congrArg some (he e' rfl).symm, hp, ht⟩
    · rintro (⟨he, hp, ht⟩ | ⟨-, ha, q, hq, he, hp, ht⟩)
      · exact ⟨trivial, fun _ h => (Option.some.inj (he.trans h)).symm, ht, Or.inl hp⟩
      · exact ⟨trivial, fun _ h => (Option.some.inj (he.trans h)).symm, ht, Or.inr ⟨ha, q, hq, hp⟩⟩

theorem access_marks {m : Mode} {a : PageAccess} {f : Option (BitVec 32)} {p t : PageEntry}
    (h : Access m a pde pte f p t) :
    ∃ b c, IsMark b ∧ IsMark c ∧ p = pde ||| b ∧ t = pte ||| c := by
  cases h with
  | large => exact ⟨_, 0, isMark_pageBits a, isMark_zero, rfl, by simp⟩
  | small => exact ⟨_, _, isMark_accessedBit, isMark_pageBits a, rfl, rfl⟩
  | fault => exact ⟨0, 0, isMark_zero, isMark_zero, by simp, by simp⟩
  | faultAccessed => exact ⟨_, 0, isMark_accessedBit, isMark_zero, rfl, by simp⟩

/-- A translation to a large page does not touch the table. -/
theorem access_large {m : Mode} {a : PageAccess} {f : Option (BitVec 32)} {p t : PageEntry}
    (h : Access m a pde pte f p t) (hl : pde.large = true) : t = pte := by
  cases h with
  | small _ hs => exact absurd (hs.symm.trans hl) (by decide)
  | _ => rfl

/-- There is always something that an access does. -/
theorem exists_access (m : Mode) (a : PageAccess) (pde pte : PageEntry) :
    ∃ f p t, Access m a pde pte f p t := by
  cases hf : pageFault m a pde pte with
  | some e => exact ⟨_, _, _, .fault hf⟩
  | none =>
    cases hl : pde.large with
    | true => exact ⟨_, _, _, .large hf hl⟩
    | false => exact ⟨_, _, _, .small hf hl⟩

theorem Agrees.kept (h : Agrees flags maxphyaddr pde pte)
    (ha : hasFlag flags .pdeAccessed = true) : pde ||| accessedBit = pde :=
  or_eq_self (h.accessed ha)

/-- The checks of the access that the configuration asks for, from entries with further marks. -/
theorem checks_marked (pkru : BitVec 32) (hlegal : acTestLegal flags = true)
    (hwidth : maxphyaddr ≤ 51) (h : Agrees flags maxphyaddr pde pte) {b c : PageEntry}
    (hb : IsMark b) (hc : IsMark c)
    (hx : Tracks flags x (pde ||| b) (pte ||| c))
    (hplace : hasFlag flags .pdePse = true → o.pte = pte ||| c) :
    acTestChecks flags (acEmulateAccess x flags) o = true ↔
      Accepts flags (modeOf flags pkru maxphyaddr) (accessOf flags) (pde ||| b) (pte ||| c) o := by
  have hy := emulated pkru hlegal hwidth h hx.fault hx.error hx.ignore
  have hf : pageFault (modeOf flags pkru maxphyaddr) (accessOf flags) (pde ||| b) (pte ||| c) =
      pageFault (modeOf flags pkru maxphyaddr) (accessOf flags) pde pte := pageFault_mark hb hc
  have hlarge : (pde ||| b : PageEntry).large = hasFlag flags .pdePse :=
    (hb.getLsbD_or pde (by omega) (by omega)).trans h.large
  cases hfault : pageFault (modeOf flags pkru maxphyaddr) (accessOf flags) pde pte with
  | none => exact checks_none hx (hfault ▸ hy) (hf.trans hfault) hlarge hplace
  | some e => exact checks_some hx (hfault ▸ hy) (hf.trans hfault) hplace

theorem pageBits_first : pageBits firstAccess = accessedBit :=
  BitVec.or_zero

/-- The entries that one access leaves, and those expected after it, when nothing is written. -/
theorem tracks_of_marks (h : Agrees flags maxphyaddr pde pte) {b c : BitVec 64}
    (hb : b = 0 ∨ b = accessedBit) (hc : c = 0 ∨ c = accessedBit) {y : Expect} {p t : PageEntry}
    (hp : p = pde ||| b) (hpde : y.pde = pde ||| c) (hpte : t = y.pte) :
    Tracks flags { y with fault := false, error := pferrPresentMask, ignorePde := 0 } p t := by
  subst hp
  have hmark : ∀ {d : BitVec 64}, d = 0 ∨ d = accessedBit →
      (pde ||| d) ||| accessedBit = pde ||| accessedBit := by
    rintro d (rfl | rfl)
    · simp
    · rw [BitVec.or_assoc, BitVec.or_self]
  have hkept : ∀ {d : BitVec 64}, d = 0 ∨ d = accessedBit →
      hasFlag flags .pdeAccessed = true → pde ||| d = pde := by
    rintro d (rfl | rfl) ha
    · simp
    · exact h.kept ha
  refine ⟨rfl, rfl, rfl, ?_, fun ha => ?_, fun ha => ?_, hpte⟩
  · rw [hmark hb, hpde, hmark hc]
  · rw [hkept hb ha, hpde, hkept hc ha]
  · rw [hmark hb, hkept hb ha, h.kept ha]

/-- After the first of two accesses, the expectations are those of the entries that it leaves. -/
theorem tracks_first (hlegal : acTestLegal flags = true) (hwidth : maxphyaddr ≤ 51)
    (h : Agrees flags maxphyaddr pde pte) {f : Option (BitVec 32)} {p t : PageEntry}
    (ha : Access (modeOf flags pkru maxphyaddr) firstAccess pde pte f p t) :
    Tracks flags
      { acEmulateAccess ⟨pte, pde, 0, false, pferrPresentMask⟩ (firstFlags flags) with
        fault := false, error := pferrPresentMask, ignorePde := 0 } p t := by
  have hy := emulated pkru (x := ⟨pte, pde, 0, false, pferrPresentMask⟩)
    (legal_first hlegal) hwidth h.first rfl rfl rfl
  rw [modeOf_first, accessOf_first] at hy
  obtain ⟨c, hpde, hc⟩ := hy.pde
  have hpse : hasFlag (firstFlags flags) .pdePse = hasFlag flags .pdePse := by
    simp [hasFlag_first, kept]
  rw [accessOf_first, pageBits_first, hpse, ptAccessedMask_eq] at hc
  have hpte := hy.pte
  rw [accessOf_first, pageBits_first, hpse] at hpte
  have hc' : c = 0 ∨ c = accessedBit := by
    split at hc
    · exact hc
    · split at hc <;> exact Or.inr hc
  cases f with
  | some e =>
    obtain ⟨hf, hp, rfl⟩ := access_some_iff.mp ha
    rw [hf] at hpte
    have hpte' := hpte.symm
    rcases hp with rfl | ⟨-, rfl⟩
    · exact tracks_of_marks h (Or.inl rfl) hc' BitVec.or_zero.symm hpde (by simpa using hpte')
    · exact tracks_of_marks h (Or.inr rfl) hc' rfl hpde (by simpa using hpte')
  | none =>
    obtain ⟨hf, hpt⟩ := access_none_iff.mp ha
    rw [hf] at hpte
    rw [h.large, pageBits_first] at hpt
    cases hp : hasFlag flags .pdePse with
    | true =>
      obtain ⟨rfl, rfl⟩ := by simpa [hp] using hpt
      exact tracks_of_marks h (Or.inr rfl) hc' rfl hpde (by simpa [hp] using hpte.symm)
    | false =>
      obtain ⟨rfl, rfl⟩ := by simpa [hp] using hpt
      exact tracks_of_marks h (Or.inr rfl) hc' rfl hpde (by simpa [hp] using hpte.symm)

/-- The checks accept what the architecture allows, and besides it only another accessed flag of the
directory entry after a fault, if the configuration does not ask for the flag. -/
theorem checks_iff (pkru : BitVec 32) (hlegal : acTestLegal flags = true)
    (hwidth : maxphyaddr ≤ 51) (h : Agrees flags maxphyaddr pde pte)
    (hplace : hasFlag flags .pdePse = true → o.pte = pte) :
    acTestChecks flags (acSetExpectedStatus flags pde pte) o = true ↔
      Allowed flags pkru maxphyaddr pde pte o ∨
        o.fault.isSome = true ∧ hasFlag flags .pdeAccessed = false ∧
          ∃ p, p ||| accessedBit = o.pde ||| accessedBit ∧
            Allowed flags pkru maxphyaddr pde pte { o with pde := p } := by
  unfold acSetExpectedStatus Allowed
  have htwice : (flags &&& mask .accessTwice != 0) = hasFlag flags .accessTwice := rfl
  rw [htwice]
  cases hasFlag flags .accessTwice with
  | false =>
    have hx : Tracks flags ⟨pte, pde, 0, false, pferrPresentMask⟩ (pde ||| 0) (pte ||| 0) := by
      simpa using ⟨rfl, rfl, rfl, rfl, fun _ => rfl, fun ha => h.kept ha, rfl⟩
    have hone := checks_marked pkru hlegal hwidth h isMark_zero isMark_zero hx
      (by simpa using hplace)
    simpa [Accepts] using hone
  | true =>
    simp only [if_true]
    have hone : ∀ f p t, Access (modeOf flags pkru maxphyaddr) firstAccess pde pte f p t →
        (acTestChecks flags (acEmulateAccess
          { acEmulateAccess ⟨pte, pde, 0, false, pferrPresentMask⟩ (firstFlags flags) with
            fault := false, error := pferrPresentMask, ignorePde := 0 } flags) o = true ↔
          Accepts flags (modeOf flags pkru maxphyaddr) (accessOf flags) p t o) := by
      intro f p t ha
      have hx := tracks_first hlegal hwidth h ha
      have ht : hasFlag flags .pdePse = true → o.pte = t := fun hp =>
        (hplace hp).trans (access_large ha (h.large.trans hp)).symm
      obtain ⟨b, c, hb, hc, rfl, rfl⟩ := access_marks ha
      exact checks_marked pkru hlegal hwidth h hb hc hx ht
    constructor
    · intro hpass
      obtain ⟨f, p, t, ha⟩ := exists_access (modeOf flags pkru maxphyaddr) firstAccess pde pte
      rcases (hone f p t ha).mp hpass with hok | ⟨hf, hacc, q, hq, hok⟩
      · exact Or.inl ⟨f, p, t, ha, hok⟩
      · exact Or.inr ⟨hf, hacc, q, hq, f, p, t, ha, hok⟩
    · rintro (⟨f, p, t, ha, hok⟩ | ⟨hf, hacc, q, hq, f, p, t, ha, hok⟩)
      · exact (hone f p t ha).mpr (Or.inl hok)
      · exact (hone f p t ha).mpr (Or.inr ⟨hf, hacc, q, hq, hok⟩)

end Checks

end AccessTest

end AcrnUt
