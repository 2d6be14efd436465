import AcrnUt.Packing
import AcrnUt.PhysAlloc

/-!
# Requests that the physical allocator cannot meet

A request of `lib/alloc_phys.c` fits if its aligned start and its size, as natural numbers, do
not exceed the limit (`PhysAlloc.Fits`). An allocator that refuses cleanly grants the requests
that fit, and returns `INVALID_PHYS_ADDR` for the others, in the state it was called in
(`PhysAlloc.Clean`).

The code asserts that `base` lies below the limit, which a full allocator does not meet : an
exact fit leads there, and so does `phys_alloc_get_unused`. It adds the padding to the size
modulo `2^64`, so a request that wraps is weighed by what is left of it.
`PhysAlloc.clean_iff` says that nothing else goes wrong.

`PhysAlloc.Reachable` is every sequence of calls, of `phys_alloc_get_unused` too.
-/

set_option linter.unusedSectionVars false

namespace AcrnUt

/-! ## The source -/

/-- `phys_alloc_get_unused`. `none` stands for a write past the end of `regions`. -/
def physAllocGetUnused (s : PhysAlloc) : Option ((BitVec 64 × BitVec 64) × PhysAlloc) :=
  let pBase := s.base
  let pTop := s.top
  if s.base = s.top then some ((pBase, pTop), s)
  else if s.nrRegions < physAllocNrRegions then
    some ((pBase, pTop), { s with
      regions := Function.update s.regions s.nrRegions ⟨s.base, s.top - s.base⟩
      nrRegions := s.nrRegions + 1
      base := s.top })
  else none

/-! ## Padding -/

/-- `ALIGN` rounds up, modulo the address space. -/
theorem toNat_align_mod {w : ℕ} (x : BitVec w) {k : ℕ} (hk : k < w) :
    (align x (1#w <<< k)).toNat = alignUp (2 ^ k) x.toNat % 2 ^ w := by
  obtain ⟨c, hc⟩ := Nat.pow_dvd_pow 2 hk.le
  unfold alignUp
  rw [toNat_align_eq x hk, hc, Nat.mod_mul_right_div_self, Nat.mul_comm _ (2 ^ k),
    Nat.mul_comm _ (2 ^ k), Nat.mul_mod_mul_left]

/-- The padding before an aligned start, which may be the end of the address space. -/
theorem toNat_align_sub {w : ℕ} (x : BitVec w) {k : ℕ} (hk : k < w) :
    (align x (1#w <<< k) - x).toNat = alignUp (2 ^ k) x.toNat - x.toNat := by
  have hx := x.isLt
  have hle := le_alignUp (Nat.two_pow_pos k) x.toNat
  have htop : alignUp (2 ^ k) x.toNat ≤ 2 ^ w :=
    alignUp_le (Nat.two_pow_pos k) hx.le (Nat.pow_dvd_pow 2 hk.le)
  have hpad : alignUp (2 ^ k) x.toNat - x.toNat < 2 ^ w := by
    by_contra hge
    have hzero : x.toNat = 0 := by omega
    rw [hzero, alignUp_of_dvd (Nat.two_pow_pos k) (dvd_zero _)] at hge
    omega
  rw [BitVec.toNat_sub, toNat_align_mod x hk, Nat.add_mod_mod]
  have hsum : 2 ^ w - x.toNat + alignUp (2 ^ k) x.toNat =
      alignUp (2 ^ k) x.toNat - x.toNat + 2 ^ w := by
    omega
  rw [hsum, Nat.add_mod_right, Nat.mod_eq_of_lt hpad]

/-- A power of two that a wider word shows is one. -/
theorem powerOfTwo_of_setWidth {w k : ℕ} (hw : w ≤ 64) (hk : k < 64) {a : BitVec w}
    (h : a.setWidth 64 = 1#64 <<< k) : a ≠ 0 ∧ a &&& (a - 1) = 0 := by
  have hnat := congrArg BitVec.toNat h
  rw [BitVec.toNat_setWidth, toNat_one_shiftLeft hk,
    Nat.mod_eq_of_lt (a.isLt.trans_le (Nat.pow_le_pow_right (by norm_num) hw))] at hnat
  have hkw : k < w := (Nat.pow_lt_pow_iff_right (by norm_num)).mp (hnat ▸ a.isLt)
  obtain rfl : a = 1#w <<< k := BitVec.eq_of_toNat_eq (hnat.trans (toNat_one_shiftLeft hkw).symm)
  refine ⟨fun hzero => ?_, (and_sub_one_eq_zero_iff _ k).mpr ?_⟩
  · rw [hzero] at hnat
    exact absurd hnat (Nat.two_pow_pos k).ne
  · rw [hnat, Nat.mod_self]

namespace PhysAlloc

variable {w : ℕ} {s s' : PhysAlloc} {size : BitVec 64} {safe : Bool} {k : Fin 64}

/-! ## Every sequence of calls -/

/-- The states of the allocator, `phys_alloc_get_unused` included. Sizes are any. -/
inductive Reachable (w : ℕ) : PhysAlloc → Prop
  | init (s : PhysAlloc) {base size : BitVec 64} : base.toNat + size.toNat < 2 ^ 64 →
    Reachable w (physAllocInit base size s)
  | setMin {s s' : PhysAlloc} {align : BitVec 64} : Reachable w s →
    physAllocSetMinimumAlignment align s = some s' → Reachable w s'
  | call {s s' : PhysAlloc} {op : PhysOp w} {addr : BitVec 64} : Reachable w s →
    op.exec s = some (addr, s') → Reachable w s'
  | getUnused {s s' : PhysAlloc} {unused : BitVec 64 × BitVec 64} : Reachable w s →
    physAllocGetUnused s = some (unused, s') → Reachable w s'

/-- A call moves `base` up to the limit at most, and leaves `top`. -/
theorem call_base_le {align addr : BitVec 64} (hle : s.base.toNat ≤ s.top.toNat)
    (h : physAllocAlignedSafe w size align safe s = some (addr, s')) :
    s'.base.toNat ≤ s'.top.toNat := by
  unfold physAllocAlignedSafe at h
  simp only at h
  split_ifs at h with hbase hfree hlog
  · cases h
    exact hle
  all_goals
    have hlimit := topSafe_le w safe s
    have hlt := BitVec.lt_def.mp hbase
    rw [BitVec.not_lt, BitVec.le_def, BitVec.toNat_sub_of_le (BitVec.le_def.mpr hlt.le)] at hfree
    cases h
    show (s.base + _).toNat ≤ s.top.toNat
    rw [BitVec.toNat_add, Nat.mod_eq_of_lt]
    all_goals omega

/-- In every reachable state `base` does not exceed `top`. -/
theorem Reachable.base_le_top (h : Reachable w s) : s.base.toNat ≤ s.top.toNat := by
  induction h with
  | init s hwrap =>
    unfold physAllocInit
    rw [BitVec.toNat_add, Nat.mod_eq_of_lt hwrap]
    exact Nat.le_add_right _ _
  | setMin _ hset ih =>
    unfold physAllocSetMinimumAlignment at hset
    split_ifs at hset
    cases hset
    exact ih
  | call _ hexec ih => exact call_base_le ih (PhysOp.exec_eq hexec)
  | getUnused _ hget ih =>
    unfold physAllocGetUnused at hget
    simp only at hget
    split_ifs at hget
    · cases hget
      exact ih
    · cases hget
      exact le_rfl

/-- In the 64-bit build a request is stopped exactly if the allocator is full, whatever it asks
for. -/
theorem Reachable.stops_iff (h : Reachable 64 s) (size align : BitVec 64) (safe : Bool) :
    physAllocAlignedSafe 64 size align safe s = none ↔ s.base = s.top := by
  have hlimit : topSafe 64 safe s = s.top := if_neg (by simp)
  by_cases hbase : s.base < s.top
  · refine iff_of_false (fun hnone => ?_) fun heq => BitVec.lt_irrefl _ (heq ▸ hbase)
    simp only [physAllocAlignedSafe, hlimit, hbase, not_true, if_false] at hnone
    split_ifs at hnone
  · refine iff_of_true (if_pos (hlimit ▸ hbase)) (BitVec.eq_of_toNat_eq ?_)
    exact le_antisymm h.base_le_top (BitVec.le_def.mp (BitVec.not_lt.mp hbase))

/-! ## Clean refusals -/

/-- The aligned start and the size of a request stay below its limit. -/
def Fits (w : ℕ) (s : PhysAlloc) (size align : BitVec 64) (safe : Bool) : Prop :=
  alignUp align.toNat s.base.toNat + size.toNat ≤ (topSafe w safe s).toNat

/-- A request that fits obtains its aligned start, any other leaves the state and obtains
`INVALID_PHYS_ADDR`, through `early_memalign` a null pointer. -/
structure Clean (w : ℕ) (s : PhysAlloc) (size align : BitVec 64) (safe : Bool) : Prop where
  granted : Fits w s size align safe → ∃ addr s',
    physAllocAlignedSafe w size align safe s = some (addr, s') ∧ addr ≠ invalidPhysAddr ∧
      addr.toNat = alignUp align.toNat s.base.toNat
  refused : ¬Fits w s size align safe →
    physAllocAlignedSafe w size align safe s = some (invalidPhysAddr, s)
  early : w ≤ 64 → safe = true → ¬Fits w s size align safe → ∀ alignment' size' : BitVec w,
    alignment'.setWidth 64 = align → size'.setWidth 64 = size →
      earlyMemalign alignment' size' s = some (0, s)

/-- The bytes from `base` to the aligned start. -/
def padding (s : PhysAlloc) (align : BitVec 64) : ℕ :=
  alignUp align.toNat s.base.toNat - s.base.toNat

/-- Below the limit, the aligned address is not the one that marks a refusal. -/
theorem align_ne_invalid_of_lt (hbase : s.base < topSafe w safe s) :
    align s.base (1#64 <<< k.val) ≠ invalidPhysAddr := by
  refine align_ne_invalid k.isLt ?_
  rintro heq
  have htop := BitVec.lt_def.mp hbase
  rw [heq] at htop
  exact absurd htop (not_lt.mpr (Nat.le_of_lt_succ (topSafe w safe s).isLt))

/-- Below the limit, a request is refused if the free bytes are fewer than the padded size
modulo `2^64`. -/
theorem refused_iff (hbase : s.base < topSafe w safe s) :
    physAllocAlignedSafe w size (1#64 <<< k.val) safe s = some (invalidPhysAddr, s) ↔
      (topSafe w safe s).toNat - s.base.toNat <
        (size.toNat + s.padding (1#64 <<< k.val)) % 2 ^ 64 := by
  have hlt : topSafe w safe s - s.base < size + (align s.base (1#64 <<< k.val) - s.base) ↔
      (topSafe w safe s).toNat - s.base.toNat <
        (size.toNat + s.padding (1#64 <<< k.val)) % 2 ^ 64 := by
    rw [BitVec.lt_def, BitVec.toNat_sub_of_le (BitVec.le_def.mpr (BitVec.lt_def.mp hbase).le),
      BitVec.toNat_add, toNat_align_sub _ k.isLt, padding, toNat_one_shiftLeft k.isLt]
  rw [← hlt]
  unfold physAllocAlignedSafe
  simp only [hbase, not_true, if_false]
  split_ifs with hfree hlog
  · exact iff_of_true rfl hfree
  all_goals
    refine iff_of_false (fun h => ?_) hfree
    exact align_ne_invalid_of_lt hbase (Prod.mk.inj (Option.some.inj h)).1

/-- A request that is not refused obtains the aligned address. -/
theorem granted_of_not_refused (hbase : s.base < topSafe w safe s)
    (h : ¬(topSafe w safe s).toNat - s.base.toNat <
      (size.toNat + s.padding (1#64 <<< k.val)) % 2 ^ 64) :
    ∃ s', physAllocAlignedSafe w size (1#64 <<< k.val) safe s =
      some (align s.base (1#64 <<< k.val), s') ∧
        align s.base (1#64 <<< k.val) ≠ invalidPhysAddr := by
  rw [← refused_iff hbase] at h
  have hne : align s.base (1#64 <<< k.val) ≠ invalidPhysAddr := align_ne_invalid_of_lt hbase
  unfold physAllocAlignedSafe at h ⊢
  simp only [hbase, not_true, if_false] at h ⊢
  split_ifs at h ⊢
  · exact absurd rfl h
  · exact ⟨_, rfl, hne⟩
  · exact ⟨_, rfl, hne⟩

theorem fits_iff (hbase : s.base < topSafe w safe s) :
    Fits w s size (1#64 <<< k.val) safe ↔
      size.toNat + s.padding (1#64 <<< k.val) ≤ (topSafe w safe s).toNat - s.base.toNat := by
  have hpos : 0 < (1#64 <<< k.val).toNat := by
    rw [toNat_one_shiftLeft k.isLt]
    exact Nat.two_pow_pos _
  have hle := le_alignUp hpos s.base.toNat
  have hlt := BitVec.lt_def.mp hbase
  unfold Fits padding
  omega

/-- Every request, of any size and power of two, is granted or refused cleanly exactly if the
allocator is not full up to the limit of the request, and the padded size either does not
wrap or still exceeds the free bytes when it has. -/
theorem clean_iff (w : ℕ) (s : PhysAlloc) (size : BitVec 64) (k : Fin 64) (safe : Bool) :
    Clean w s size (1#64 <<< k.val) safe ↔
      s.base < topSafe w safe s ∧
        (size.toNat + s.padding (1#64 <<< k.val) < 2 ^ 64 ∨
          (topSafe w safe s).toNat - s.base.toNat <
            size.toNat + s.padding (1#64 <<< k.val) - 2 ^ 64) := by
  have hlimit := (topSafe w safe s).isLt
  have hpad : s.padding (1#64 <<< k.val) < 2 ^ 64 := by
    have h := (align s.base (1#64 <<< k.val) - s.base).isLt
    rwa [toNat_align_sub _ k.isLt, ← toNat_one_shiftLeft k.isLt] at h
  have hsize := size.isLt
  constructor
  · intro h
    have hbase : s.base < topSafe w safe s := by
      by_contra hge
      have hnone : physAllocAlignedSafe w size (1#64 <<< k.val) safe s = none := if_pos hge
      by_cases hfits : Fits w s size (1#64 <<< k.val) safe
      · obtain ⟨addr, s', hcall, -⟩ := h.granted hfits
        rw [hnone] at hcall
        cases hcall
      · have hcall := h.refused hfits
        rw [hnone] at hcall
        cases hcall
    refine ⟨hbase, ?_⟩
    by_contra hwrap
    rw [not_or, not_lt, not_lt] at hwrap
    have hfits : ¬Fits w s size (1#64 <<< k.val) safe := by
      rw [fits_iff hbase]
      omega
    have hneed := (refused_iff hbase).mp (h.refused hfits)
    rw [Nat.mod_eq_sub_mod hwrap.1, Nat.mod_eq_of_lt (by omega)] at hneed
    omega
  · rintro ⟨hbase, hwrap⟩
    have hneed : (topSafe w safe s).toNat - s.base.toNat <
        (size.toNat + s.padding (1#64 <<< k.val)) % 2 ^ 64 ↔
          ¬Fits w s size (1#64 <<< k.val) safe := by
      rw [fits_iff hbase]
      rcases hwrap with hwrap | hwrap
      · rw [Nat.mod_eq_of_lt hwrap, not_le]
      · rw [Nat.mod_eq_sub_mod (by omega), Nat.mod_eq_of_lt (by omega)]
        omega
    refine ⟨fun hfits => ?_, fun hfits => (refused_iff hbase).mpr (hneed.mpr hfits), ?_⟩
    · obtain ⟨s', hcall, hne⟩ := granted_of_not_refused hbase (fun h => hneed.mp h hfits)
      refine ⟨_, s', hcall, hne, ?_⟩
      unfold Fits at hfits
      rw [toNat_one_shiftLeft k.isLt] at hfits ⊢
      rw [toNat_align_mod _ k.isLt, Nat.mod_eq_of_lt (by omega)]
    · rintro hw rfl hfits alignment' size' halign rfl
      have hrefused := (refused_iff hbase).mpr (hneed.mpr hfits)
      rw [earlyMemalign, earlyMemalign.request, if_pos (powerOfTwo_of_setWidth hw k.isLt halign),
        halign, hrefused]
      rfl

/-- An exact fit and `phys_alloc_get_unused` both fill an allocator, which then stops at its
assertion; and a request of almost `2^64` bytes is granted where there are 4096. -/
theorem not_clean : (∃ s, Reachable 64 s ∧ s.base = s.top ∧ ¬Clean 64 s 1 1 false) ∧
    (∃ s s' unused, Reachable 64 s ∧ physAllocGetUnused s = some (unused, s') ∧
      ¬Clean 64 s' 1 1 false) ∧
    ∃ s, Reachable 64 s ∧ ¬Clean 64 s (BitVec.allOnes 64) 0x1000 false := by
  have hfull : ∀ s : PhysAlloc, Reachable 64 s → s.base = s.top → s.top = 0x2000 →
      ¬Clean 64 s 1 1 false := by
    intro s hs hbase htop h
    have hlimit : topSafe 64 false s = 0x2000 := by
      rw [← htop]
      exact if_neg (by simp)
    have hnone := (hs.stops_iff 1 1 false).mpr hbase
    have hcall := h.refused fun hfits => by
      unfold Fits at hfits
      rw [hlimit, hbase, htop] at hfits
      exact absurd hfits (by decide)
    rw [hnone] at hcall
    cases hcall
  have hinit : Reachable 64 (physAllocInit 0x1000 0x1000 blank) := .init blank (by decide)
  have hinit' : Reachable 64 (physAllocInit 0x1001 0x1000 blank) := .init blank (by decide)
  have hexec : ∃ s, (PhysOp.alignedSafe 0x1000 1 false : PhysOp 64).exec
      (physAllocInit 0x1000 0x1000 blank) = some (0x1000, s) ∧ s.base = s.top ∧ s.top = 0x2000 :=
    ⟨_, rfl, rfl, rfl⟩
  obtain ⟨s, hexec, hbase, htop⟩ := hexec
  refine ⟨⟨s, .call hinit hexec, hbase, hfull s (.call hinit hexec) hbase htop⟩,
    ⟨_, _, _, hinit, rfl, ?_⟩, _, hinit', ?_⟩
  · exact hfull _ (.getUnused hinit rfl) rfl rfl
  · intro h
    have hcall := congrArg (Option.map Prod.fst) (h.refused (by unfold Fits; decide))
    revert hcall
    decide

end PhysAlloc

end AcrnUt
