import AcrnUt.Page

/-!
# The physical allocator

`lib/alloc_phys.c`. Physical addresses have 64 bits; a word has `w`, and `sizeof(long)` is
`w / 8`. `base` moves up through the memory below `top`, and the first 256 successful
requests are logged in `regions`. `none` stands for a failed assertion.

`PhysAlloc.Run` is the runs of allocation calls since `phys_alloc_init`, with the results
handed out so far. A result is the physical address that `phys_alloc_aligned_safe`
returns, which `early_memalign` casts to a pointer. `PhysAlloc.Inv` is what a call
keeps, `PhysAlloc.Run.spec` what holds along every run.
-/

set_option linter.unusedSectionVars false

namespace AcrnUt

/-! ## The source -/

/-- `PHYS_ALLOC_NR_REGIONS`. -/
def physAllocNrRegions : ℕ :=
  256

/-- `INVALID_PHYS_ADDR`. -/
def invalidPhysAddr : BitVec 64 :=
  ~~~0

/-- `struct phys_alloc_region`. -/
structure PhysAllocRegion where
  base : BitVec 64
  size : BitVec 64
deriving DecidableEq

/-- The variables of the allocator. `warned` belongs to `phys_alloc_aligned_safe`, `alignMin`
to `early_alloc_ops`. -/
structure PhysAlloc where
  base : BitVec 64
  top : BitVec 64
  regions : ℕ → PhysAllocRegion
  nrRegions : ℕ
  warned : Bool
  alignMin : BitVec 64

/-- `phys_alloc_init`. -/
def physAllocInit (baseAddr size : BitVec 64) (s : PhysAlloc) : PhysAlloc :=
  { s with base := baseAddr, top := baseAddr + size, nrRegions := 0 }

/-- `phys_alloc_set_minimum_alignment`. -/
def physAllocSetMinimumAlignment (align : BitVec 64) (s : PhysAlloc) : Option PhysAlloc :=
  if align ≠ 0 ∧ align &&& (align - 1) = 0 then some { s with alignMin := align } else none

/-- The limit of a request : `top`, or 4 GiB for a safe request if `long` has 32 bits. -/
def topSafe (w : ℕ) (safe : Bool) (s : PhysAlloc) : BitVec 64 :=
  if safe ∧ w / 8 = 4 then (if s.top < 1#64 <<< 32 then s.top else 1#64 <<< 32) else s.top

/-- `phys_alloc_aligned_safe`. -/
def physAllocAlignedSafe (w : ℕ) (size align : BitVec 64) (safe : Bool) (s : PhysAlloc) :
    Option (BitVec 64 × PhysAlloc) :=
  let sizeOrig := size
  let topSafe := topSafe w safe s
  if ¬s.base < topSafe then none
  else
    let addr := AcrnUt.align s.base align
    let size := size + (addr - s.base)
    if topSafe - s.base < size then some (invalidPhysAddr, s)
    else
      let s := { s with base := s.base + size }
      if s.nrRegions < physAllocNrRegions then
        some (addr, { s with
          regions := Function.update s.regions s.nrRegions ⟨addr, sizeOrig⟩
          nrRegions := s.nrRegions + 1 })
      else some (addr, { s with warned := true })

/-- The call that `early_memalign` makes. -/
def earlyMemalign.request {w : ℕ} (alignment size : BitVec w) (s : PhysAlloc) :
    Option (BitVec 64 × PhysAlloc) :=
  if alignment ≠ 0 ∧ alignment &&& (alignment - 1) = 0 then
    physAllocAlignedSafe w (size.setWidth 64) (alignment.setWidth 64) true s
  else none

/-- `early_memalign`. -/
def earlyMemalign {w : ℕ} (alignment size : BitVec w) (s : PhysAlloc) :
    Option (BitVec w × PhysAlloc) :=
  (earlyMemalign.request alignment size s).map fun (addr, s) =>
    (if addr = invalidPhysAddr then 0 else addr.setWidth w, s)

/-! ## Runs -/

/-- A call to the allocator. -/
inductive PhysOp (w : ℕ)
  | earlyMemalign (alignment size : BitVec w)
  | alignedSafe (size align : BitVec 64) (safe : Bool)

namespace PhysOp

variable {w : ℕ}

/-- The size, the alignment and the limit that a call asks for. -/
def size : PhysOp w → BitVec 64
  | earlyMemalign _ size => size.setWidth 64
  | alignedSafe size _ _ => size

@[inherit_doc size] def align : PhysOp w → BitVec 64
  | earlyMemalign alignment _ => alignment.setWidth 64
  | alignedSafe _ align _ => align

@[inherit_doc size] def safe : PhysOp w → Bool
  | earlyMemalign _ _ => true
  | alignedSafe _ _ safe => safe

/-- The call, and the physical address it obtains. -/
def exec : PhysOp w → PhysAlloc → Option (BitVec 64 × PhysAlloc)
  | earlyMemalign alignment size, s => AcrnUt.earlyMemalign.request alignment size s
  | alignedSafe size align safe, s => physAllocAlignedSafe w size align safe s

/-- The alignment is a power of two, and the padded size does not wrap. -/
def Legal (op : PhysOp w) (s : PhysAlloc) : Prop :=
  (∃ k < 64, op.align = 1#64 <<< k) ∧
    op.size.toNat + (AcrnUt.align s.base op.align - s.base).toNat < 2 ^ 64

/-- A call that is not stopped is a call of `phys_alloc_aligned_safe`. -/
theorem exec_eq {op : PhysOp w} {s s' : PhysAlloc} {addr : BitVec 64}
    (h : op.exec s = some (addr, s')) :
    physAllocAlignedSafe w op.size op.align op.safe s = some (addr, s') := by
  cases op with
  | earlyMemalign alignment size =>
    rw [exec, AcrnUt.earlyMemalign.request] at h
    split_ifs at h
    exact h
  | alignedSafe size align safe => exact h

end PhysOp

namespace PhysAlloc

variable {w : ℕ}

/-- What a successful call handed out. -/
structure Grant where
  addr : BitVec 64
  size : BitVec 64
  align : BitVec 64
  safe : Bool

/-- The log entry of a grant. -/
def Grant.region (g : Grant) : PhysAllocRegion :=
  ⟨g.addr, g.size⟩

/-- The runs since `phys_alloc_init base₀ size₀`, with the grants in order. -/
inductive Run (w : ℕ) (base₀ size₀ : BitVec 64) : PhysAlloc → List Grant → Prop
  | init (s : PhysAlloc) : Run w base₀ size₀ (physAllocInit base₀ size₀ s) []
  | setMin {s s' : PhysAlloc} {gs : List Grant} {align : BitVec 64} :
    Run w base₀ size₀ s gs → physAllocSetMinimumAlignment align s = some s' →
      Run w base₀ size₀ s' gs
  | refuse {s s' : PhysAlloc} {gs : List Grant} {op : PhysOp w} :
    Run w base₀ size₀ s gs → op.Legal s → op.exec s = some (invalidPhysAddr, s') →
      Run w base₀ size₀ s' gs
  | grant {s s' : PhysAlloc} {gs : List Grant} {op : PhysOp w} {addr : BitVec 64} :
    Run w base₀ size₀ s gs → op.Legal s → op.exec s = some (addr, s') → addr ≠ invalidPhysAddr →
      Run w base₀ size₀ s' (gs ++ [⟨addr, op.size, op.align, op.safe⟩])

/-! ## One call -/

section Call

variable {s s' : PhysAlloc} {addr : BitVec 64} {safe : Bool}

theorem topSafe_le (w : ℕ) (safe : Bool) (s : PhysAlloc) :
    (topSafe w safe s).toNat ≤ s.top.toNat := by
  unfold topSafe
  split_ifs with h hlt
  · exact le_rfl
  · exact BitVec.le_def.mp (BitVec.not_lt.mp hlt)
  · exact le_rfl

theorem topSafe_le_of_safe (h32 : w / 8 = 4) (s : PhysAlloc) :
    (topSafe w true s).toNat ≤ 2 ^ 32 := by
  rw [topSafe, if_pos ⟨rfl, h32⟩]
  split_ifs with hlt
  · exact (BitVec.lt_def.mp hlt).le
  · exact le_rfl

/-- What a call that obtains `addr` does to the state. -/
structure Granted (w : ℕ) (s s' : PhysAlloc) (g : Grant) : Prop where
  aligned : g.addr.toNat % g.align.toNat = 0
  base_le : s.base.toNat ≤ g.addr.toNat
  base_eq : s'.base.toNat = g.addr.toNat + g.size.toNat
  le_top : s'.base.toNat ≤ s.top.toNat
  le_safe : g.safe = true → w / 8 = 4 → s'.base.toNat ≤ 2 ^ 32
  top_eq : s'.top = s.top
  logged : s.nrRegions < physAllocNrRegions → s'.nrRegions = s.nrRegions + 1 ∧
    s'.regions = Function.update s.regions s.nrRegions ⟨g.addr, g.size⟩
  full : physAllocNrRegions ≤ s.nrRegions →
    s'.nrRegions = s.nrRegions ∧ s'.regions = s.regions

/-- A request that fits the free space ends below the limit, without a wrap. -/
theorem fits_spec {base limit size addr : BitVec 64} (hbase : base < limit)
    (hwrap : size.toNat + (addr - base).toNat < 2 ^ 64)
    (hfree : ¬limit - base < size + (addr - base)) :
    base.toNat ≤ addr.toNat ∧ addr.toNat + size.toNat ≤ limit.toNat ∧
      (base + (size + (addr - base))).toNat = addr.toNat + size.toNat := by
  rw [BitVec.lt_def] at hbase
  rw [BitVec.not_lt, BitVec.le_def, BitVec.toNat_add, Nat.mod_eq_of_lt hwrap,
    BitVec.toNat_sub_of_le (BitVec.le_def.mpr hbase.le)] at hfree
  have hpad : addr = base + (addr - base) := by rw [BitVec.add_comm, BitVec.sub_add_cancel]
  have haddr : addr.toNat = base.toNat + (addr - base).toNat := by
    conv_lhs => rw [hpad]
    rw [BitVec.toNat_add, Nat.mod_eq_of_lt]
    omega
  refine ⟨by omega, by omega, ?_⟩
  rw [BitVec.toNat_add, BitVec.toNat_add, Nat.mod_eq_of_lt hwrap, Nat.mod_eq_of_lt]
  · omega
  · omega

/-- No aligned address above a smaller base is the invalid one. -/
theorem align_ne_invalid {base : BitVec 64} {k : ℕ} (hk : k < 64) (hbase : base ≠ invalidPhysAddr) :
    align base (1#64 <<< k) ≠ invalidPhysAddr := by
  intro h
  have hmod := align_mod base hk
  have hinv : invalidPhysAddr.toNat = 2 ^ 64 - 1 := rfl
  rw [h, hinv] at hmod
  cases k with
  | zero =>
    refine hbase (Eq.trans (BitVec.eq_of_toNat_eq ?_) h)
    rw [toNat_align hk (by simpa using base.isLt)]
    simp
  | succ k =>
    have hodd : 2 ∣ 2 ^ 64 - 1 :=
      (Dvd.intro_left (2 ^ k) rfl).trans (Nat.dvd_of_mod_eq_zero hmod)
    exact absurd hodd (by decide)

/-- A call that is not stopped is refused and changes nothing, or is granted. -/
theorem physAllocAlignedSafe_spec {size align : BitVec 64} {k : ℕ} (hk : k < 64)
    (halign : align = 1#64 <<< k)
    (hwrap : size.toNat + (AcrnUt.align s.base align - s.base).toNat < 2 ^ 64)
    (h : physAllocAlignedSafe w size align safe s = some (addr, s')) :
    (addr = invalidPhysAddr ∧ s' = s) ∨
      (addr ≠ invalidPhysAddr ∧ Granted w s s' ⟨addr, size, align, safe⟩) := by
  unfold physAllocAlignedSafe at h
  simp only at h
  split_ifs at h with hbase hfree hlog
  · cases h
    exact Or.inl ⟨rfl, rfl⟩
  all_goals
    obtain ⟨hle, hlimit, hnew⟩ := fits_spec hbase hwrap hfree
    have htop := topSafe_le w safe s
    have hinv : AcrnUt.align s.base align ≠ invalidPhysAddr := by
      rw [halign]
      refine align_ne_invalid hk ?_
      rintro heq
      have hlt := BitVec.lt_def.mp hbase
      rw [heq] at hlt
      exact absurd hlt (not_lt.mpr (Nat.le_of_lt_succ (topSafe w safe s).isLt))
    have haligned : (AcrnUt.align s.base align).toNat % align.toNat = 0 := by
      rw [halign, toNat_one_shiftLeft hk]
      exact align_mod s.base hk
    have hsafe : safe = true → w / 8 = 4 →
        (s.base + (size + (AcrnUt.align s.base align - s.base))).toNat ≤ 2 ^ 32 := by
      rintro rfl h32
      have := topSafe_le_of_safe h32 s
      omega
    have hend : (s.base + (size + (AcrnUt.align s.base align - s.base))).toNat ≤ s.top.toNat := by
      omega
    cases h
    refine Or.inr ⟨hinv, ?_⟩
  · exact ⟨haligned, hle, hnew, hend, hsafe, rfl, fun _ => ⟨rfl, rfl⟩,
      fun hfull => absurd hlog (not_lt.mpr hfull)⟩
  · exact ⟨haligned, hle, hnew, hend, hsafe, rfl, fun hfree => absurd hfree hlog,
      fun _ => ⟨rfl, rfl⟩⟩

end Call

/-! ## Every run -/

/-- What every call keeps. -/
structure Inv (w : ℕ) (base₀ size₀ : BitVec 64) (s : PhysAlloc) (gs : List Grant) : Prop where
  top_eq : s.top.toNat = base₀.toNat + size₀.toNat
  base_ge : base₀.toNat ≤ s.base.toNat
  base_le : s.base.toNat ≤ s.top.toNat
  aligned : ∀ g ∈ gs, g.addr.toNat % g.align.toNat = 0
  addr_ge : ∀ g ∈ gs, base₀.toNat ≤ g.addr.toNat
  end_le : ∀ g ∈ gs, g.addr.toNat + g.size.toNat ≤ s.base.toNat
  safe : ∀ g ∈ gs, g.safe = true → w / 8 = 4 → g.addr.toNat + g.size.toNat ≤ 2 ^ 32
  ordered : gs.Pairwise fun g g' => g.addr.toNat + g.size.toNat ≤ g'.addr.toNat
  nrRegions : s.nrRegions = min physAllocNrRegions gs.length
  regions : (List.range s.nrRegions).map s.regions = (gs.take physAllocNrRegions).map Grant.region

section Inv

variable {base₀ size₀ : BitVec 64} {s s' : PhysAlloc} {gs : List Grant} {g : Grant}

theorem Inv.init (hwrap : base₀.toNat + size₀.toNat < 2 ^ 64) (s : PhysAlloc) :
    Inv w base₀ size₀ (physAllocInit base₀ size₀ s) [] := by
  have htop : (physAllocInit base₀ size₀ s).top.toNat = base₀.toNat + size₀.toNat := by
    rw [physAllocInit, BitVec.toNat_add, Nat.mod_eq_of_lt hwrap]
  exact ⟨htop, le_rfl, by rw [htop]; exact Nat.le_add_right _ _, by simp, by simp, by simp, by simp,
    List.Pairwise.nil, rfl, rfl⟩

/-- A grant adds its region at the end of the log, while there is room. -/
theorem Inv.log (h : Inv w base₀ size₀ s gs) (hg : Granted w s s' g) :
    s'.nrRegions = min physAllocNrRegions (gs ++ [g]).length ∧
      (List.range s'.nrRegions).map s'.regions =
        ((gs ++ [g]).take physAllocNrRegions).map Grant.region := by
  have hnr := h.nrRegions
  rw [List.length_append, List.length_singleton]
  rcases Nat.lt_or_ge s.nrRegions physAllocNrRegions with hlt | hge
  · obtain ⟨hnr', hregions'⟩ := hg.logged hlt
    refine ⟨by omega, ?_⟩
    have hold := h.regions
    rw [List.take_of_length_le (by omega)] at hold
    rw [List.take_of_length_le (by rw [List.length_append, List.length_singleton]; omega),
      List.map_append, ← hold, hnr', hregions', List.range_succ, List.map_append]
    congr 1
    · refine List.map_congr_left fun i hi => Function.update_of_ne ?_ _ _
      exact (List.mem_range.mp hi).ne
    · rw [List.map_singleton, Function.update_self]
      rfl
  · obtain ⟨hnr', hregions'⟩ := hg.full hge
    rw [List.take_append_of_le_length (by omega), hnr', hregions']
    exact ⟨by omega, h.regions⟩

theorem Inv.grant (h : Inv w base₀ size₀ s gs) (hg : Granted w s s' g) :
    Inv w base₀ size₀ s' (gs ++ [g]) := by
  have hbase := hg.base_eq
  have hle := hg.base_le
  have hge := h.base_ge
  obtain ⟨hlen, hregions⟩ := h.log hg
  refine ⟨by rw [hg.top_eq]; exact h.top_eq, by omega, by rw [hg.top_eq]; exact hg.le_top, ?_, ?_,
    ?_, ?_, ?_, hlen, hregions⟩
  · simpa [or_imp, forall_and] using ⟨h.aligned, hg.aligned⟩
  · simpa [or_imp, forall_and] using ⟨h.addr_ge, hge.trans hle⟩
  · intro x hx
    rcases List.mem_append.mp hx with hx | hx
    · have := h.end_le x hx
      omega
    · rw [List.mem_singleton.mp hx, hbase]
  · intro x hx hsafe h32
    rcases List.mem_append.mp hx with hx | hx
    · exact h.safe x hx hsafe h32
    · obtain rfl := List.mem_singleton.mp hx
      exact hbase ▸ hg.le_safe hsafe h32
  · refine List.pairwise_append.mpr ⟨h.ordered, List.pairwise_singleton _ _, fun x hx y hy => ?_⟩
    rw [List.mem_singleton.mp hy]
    exact (h.end_le x hx).trans hle

theorem Run.inv (hwrap : base₀.toNat + size₀.toNat < 2 ^ 64) (h : Run w base₀ size₀ s gs) :
    Inv w base₀ size₀ s gs := by
  induction h with
  | init s => exact .init hwrap s
  | setMin _ hset ih =>
    unfold physAllocSetMinimumAlignment at hset
    split_ifs at hset
    cases hset
    exact ⟨ih.1, ih.2, ih.3, ih.4, ih.5, ih.6, ih.7, ih.8, ih.9, ih.10⟩
  | refuse _ hlegal hexec ih =>
    obtain ⟨⟨k, hk, halign⟩, hpad⟩ := hlegal
    rcases physAllocAlignedSafe_spec hk halign hpad (PhysOp.exec_eq hexec) with
      ⟨-, rfl⟩ | ⟨hne, -⟩
    · exact ih
    · exact absurd rfl hne
  | grant _ hlegal hexec hne ih =>
    obtain ⟨⟨k, hk, halign⟩, hpad⟩ := hlegal
    rcases physAllocAlignedSafe_spec hk halign hpad (PhysOp.exec_eq hexec) with ⟨h, -⟩ | ⟨-, hg⟩
    · exact absurd h hne
    · exact ih.grant hg

/-- Along every run, `base` does not exceed `top`, and no call moves it down; the grants are
aligned, lie in `[base₀, top)` and below 4 GiB if they must, and do not overlap; and the
log is the first 256 of them. -/
theorem Run.spec (hwrap : base₀.toNat + size₀.toNat < 2 ^ 64) (h : Run w base₀ size₀ s gs) :
    s.base.toNat ≤ s.top.toNat ∧
    (∀ (op : PhysOp w) addr s', op.Legal s → op.exec s = some (addr, s') →
      s.base.toNat ≤ s'.base.toNat) ∧
    (∀ g ∈ gs, g.addr.toNat % g.align.toNat = 0 ∧ base₀.toNat ≤ g.addr.toNat ∧
      g.addr.toNat + g.size.toNat ≤ base₀.toNat + size₀.toNat ∧
      (g.safe = true → w = 32 → g.addr.toNat + g.size.toNat ≤ 2 ^ 32)) ∧
    (gs.Pairwise fun g g' => g.addr.toNat + g.size.toNat ≤ g'.addr.toNat) ∧
    (List.range s.nrRegions).map s.regions =
      (gs.take physAllocNrRegions).map Grant.region := by
  have hinv := h.inv hwrap
  refine ⟨hinv.base_le, ?_, fun g hg => ⟨hinv.aligned g hg, hinv.addr_ge g hg, ?_, ?_⟩,
    hinv.ordered, hinv.regions⟩
  · intro op addr s' ⟨⟨k, hk, halign⟩, hpad⟩ hexec
    rcases physAllocAlignedSafe_spec hk halign hpad (PhysOp.exec_eq hexec) with
      ⟨-, rfl⟩ | ⟨-, hg⟩
    · exact le_rfl
    · have h₁ := hg.base_le
      have h₂ := hg.base_eq
      omega
  · have h₁ := hinv.end_le g hg
    have h₂ := hinv.base_le
    have h₃ := hinv.top_eq
    omega
  · rintro hsafe rfl
    exact hinv.safe g hg hsafe rfl

end Inv

/-- An allocator before `phys_alloc_init`. -/
def blank : PhysAlloc :=
  ⟨0, 0, fun _ => ⟨0, 0⟩, 0, false, 32⟩

/-- Around 4 GiB in the 32-bit build : a safe request, one that does not fit below and is
refused, and one that goes on above. -/
theorem Run.spec_fourGiB : ∃ s, Run 32 0xfffff000 0x3000 s
      [⟨0xfffff000, 100, 64, true⟩, ⟨0x100000000, 0x1800, 0x1000, false⟩] ∧
    s.base.toNat ≤ s.top.toNat ∧
    [(⟨0xfffff000, 100, 64, true⟩ : Grant), ⟨0x100000000, 0x1800, 0x1000, false⟩].Pairwise
      (fun g g' => g.addr.toNat + g.size.toNat ≤ g'.addr.toNat) ∧
    (List.range s.nrRegions).map s.regions =
      [(⟨0xfffff000, 100⟩ : PhysAllocRegion), ⟨0x100000000, 0x1800⟩] := by
  let op₁ : PhysOp 32 := .earlyMemalign 64 100
  let op₂ : PhysOp 32 := .alignedSafe 0x2000 0x1000 true
  let op₃ : PhysOp 32 := .alignedSafe 0x1800 0x1000 false
  obtain ⟨s₀, s₁, s₂, hset, hbase, hexec₁, hbase₁, hexec₂, hexec₃⟩ : ∃ s₀ s₁ s₂,
      physAllocSetMinimumAlignment 64 (physAllocInit 0xfffff000 0x3000 blank) = some s₀ ∧
      s₀.base = 0xfffff000 ∧ op₁.exec s₀ = some (0xfffff000, s₁) ∧
      s₁.base = 0xfffff064 ∧ op₂.exec s₁ = some (invalidPhysAddr, s₁) ∧
      op₃.exec s₁ = some (0x100000000, s₂) :=
    ⟨_, _, _, rfl, rfl, rfl, rfl, rfl, rfl⟩
  have h₁ := (Run.setMin (.init blank) hset).grant
    ⟨⟨6, by decide, rfl⟩, by rw [hbase]; decide⟩ hexec₁ (by decide)
  have h₂ := h₁.refuse ⟨⟨12, by decide, rfl⟩, by rw [hbase₁]; decide⟩ hexec₂
  have h₃ := h₂.grant ⟨⟨12, by decide, rfl⟩, by rw [hbase₁]; decide⟩ hexec₃ (by decide)
  have hspec := Run.spec (by decide) h₃
  exact ⟨_, h₃, hspec.1, hspec.2.2.2.1, hspec.2.2.2.2⟩

end PhysAlloc

end AcrnUt
