import AcrnUt.Fdt
import Mathlib.Data.Fin.Basic
import Mathlib.Data.List.GetD
import Mathlib.Logic.Function.Basic

/-!
# The `reg` tuples of the device tree

`dt_get_reg` of `lib/devicetree.c` copies one "address size" tuple of a node's `reg`
property into the arrays `address_cells[4]` and `size_cells[4]` of a `dt_reg`. The
numbers of cells come from the device tree (`dt_get_nr_cells`); their sum and its
product with the index are computed in 32 bits, and the one check is made on the
result. `dt_pbus_translate_node` takes the numbers of cells from the node's parent and
makes 64-bit values of the cells.

A tuple that the property has passes the check, so the check only ever rejects a tuple
that is not there (`not_hasTuple_of_guard`). What it lets through is stored exactly if
the numbers of cells fit the arrays and the product has not wrapped
(`dtPbusTranslateNode_stores_iff`).
-/

set_option linter.unusedSectionVars false

namespace AcrnUt

/-- `struct dt_reg`. -/
@[ext] structure DtReg where
  nrAddressCells : BitVec 32
  nrSizeCells : BitVec 32
  addressCells : Fin 4 → BitVec 32
  sizeCells : Fin 4 → BitVec 32

/-- `struct dt_pbus_reg`. -/
@[ext] structure DtPbusReg where
  addr : BitVec 64
  size : BitVec 64
deriving DecidableEq

/-- `dt_reg_init`. -/
def dtRegInit (nrAddressCells nrSizeCells : BitVec 32) : DtReg :=
  ⟨nrAddressCells, nrSizeCells, fun _ => 0, fun _ => 0⟩

/-- One of the copy loops of `dt_get_reg`, with `todo` rounds to go at `i`. -/
def copyCells (cells : List (BitVec 32)) (regidx : BitVec 32) :
    ℕ → BitVec 32 → (Fin 4 → BitVec 32) → Except DtFail (Fin 4 → BitVec 32)
  | 0, _, dst => .ok dst
  | todo + 1, i, dst => do
    let c ← readCell cells (regidx + i)
    if h : i.toNat < 4 then
      copyCells cells regidx todo (i + 1) (Function.update dst ⟨i.toNat, h⟩ c)
    else .error .outside

/-- `dt_pbus_read_cells`. -/
def dtPbusReadCells (nrCells : BitVec 32) (cells : Fin 4 → BitVec 32) : BitVec 64 :=
  if nrCells = 1 then (cells 0).setWidth 64
  else if nrCells = 2 then ((cells 0).setWidth 64 <<< 32) ||| (cells 1).setWidth 64
  else BitVec.allOnes 64

namespace Fdt

variable (t : Fdt)

/-- `dt_get_nr_cells`. -/
def dtGetNrCells (fdtnode : ℕ) : Except DtFail (BitVec 32 × BitVec 32) := do
  let prop ← t.fdtGetProperty fdtnode "#address-cells"
  let nac ← readCell (be32Cells prop) 0
  let prop ← t.fdtGetProperty fdtnode "#size-cells"
  let nsc ← readCell (be32Cells prop) 0
  return (nac, nsc)

/-- `dt_get_reg`; the index is an `int` that is multiplied as an `unsigned`. -/
def dtGetReg (fdtnode : ℕ) (regidx : BitVec 32) (reg : DtReg) : Except DtFail DtReg := do
  let prop ← t.fdtGetProperty fdtnode "reg"
  let cells := be32Cells prop
  let nrTupleCells := reg.nrAddressCells + reg.nrSizeCells
  let regidx := regidx * nrTupleCells
  if prop.length / 4 < (regidx + nrTupleCells).toNat then .error notFound
  else do
    let addressCells ← copyCells cells regidx reg.nrAddressCells.toNat 0 reg.addressCells
    let regidx := regidx + reg.nrAddressCells
    let sizeCells ← copyCells cells regidx reg.nrSizeCells.toNat 0 reg.sizeCells
    return { reg with addressCells := addressCells, sizeCells := sizeCells }

/-- `dt_pbus_translate_node`. -/
def dtPbusTranslateNode (fdtnode : ℕ) (regidx : BitVec 32) : Except DtFail DtPbusReg := do
  let parent ← t.fdtParentOffset fdtnode
  let (nac, nsc) ← t.dtGetNrCells parent
  let rawReg ← t.dtGetReg fdtnode regidx (dtRegInit nac nsc)
  return ⟨dtPbusReadCells rawReg.nrAddressCells rawReg.addressCells,
    dtPbusReadCells rawReg.nrSizeCells rawReg.sizeCells⟩

end Fdt

/-! ## Copying cells -/

/-- The array after its first `n` entries have been filled from the cells at `base`. -/
def filled (cells : List (BitVec 32)) (base n : ℕ) (dst : Fin 4 → BitVec 32) :
    Fin 4 → BitVec 32 :=
  fun i => if i.val < n then cells.getD (base + i) 0 else dst i

/-- One more entry is filled by an update. -/
theorem filled_succ {cells : List (BitVec 32)} {base : ℕ} {i : Fin 4} {n : ℕ} (hi : i.val = n)
    (hread : base + n < cells.length) (dst : Fin 4 → BitVec 32) :
    Function.update (filled cells base n dst) i cells[base + n]
      = filled cells base (n + 1) dst := by
  funext j
  unfold filled
  rw [Function.update_apply]
  by_cases hj : j = i
  · subst hj
    rw [if_pos rfl, if_pos (by omega), hi, List.getD_eq_getElem _ _ hread]
  · have hne : j.val ≠ n := fun heq => hj (Fin.ext (heq.trans hi.symm))
    rw [if_neg hj]
    exact if_congr (by omega) rfl rfl

/-- What a copy loop does from `i` on, while the index does not wrap. -/
theorem copyCells_eq {cells : List (BitVec 32)} (hlen : cells.length < 2 ^ 31)
    {base : BitVec 32} (dst : Fin 4 → BitVec 32) :
    ∀ (todo i : ℕ), i ≤ 4 → (todo = 0 ∨ base.toNat + i ≤ cells.length) →
      copyCells cells base todo (BitVec.ofNat 32 i) (filled cells base.toNat i dst) =
        if i + todo ≤ 4 ∧ (todo = 0 ∨ base.toNat + i + todo ≤ cells.length) then
          .ok (filled cells base.toNat (i + todo) dst)
        else .error .outside
  | 0, i, hi, _ => by
    rw [if_pos ⟨by omega, Or.inl rfl⟩]
    rfl
  | todo + 1, i, hi, hbase => by
    have hi32 : (BitVec.ofNat 32 i).toNat = i := by
      rw [BitVec.toNat_ofNat]
      omega
    have hsum : (base + BitVec.ofNat 32 i).toNat = base.toNat + i := by
      rw [BitVec.toNat_add, hi32]
      omega
    unfold copyCells readCell
    rw [hsum]
    by_cases hread : base.toNat + i < cells.length
    · rw [List.getElem?_eq_getElem hread]
      by_cases hwrite : i < 4
      · have hnext : BitVec.ofNat 32 i + 1 = BitVec.ofNat 32 (i + 1) := by
          rw [BitVec.ofNat_add]
          rfl
        simp only [bind, Except.bind]
        rw [dif_pos (by omega), filled_succ hi32 hread, hnext,
          copyCells_eq hlen dst todo (i + 1) (by omega) (Or.inr (by omega))]
        rw [show i + 1 + todo = i + (todo + 1) by omega]
        exact if_congr (by omega) rfl rfl
      · simp only [bind, Except.bind]
        rw [dif_neg (by omega), if_neg (by omega)]
    · rw [List.getElem?_eq_none (by omega), if_neg (by omega)]
      rfl

/-- A copy loop stores the cells at `base` if there are so many and the array holds
them, and otherwise leaves the property or the array. -/
theorem copyCells_zero {cells : List (BitVec 32)} (hlen : cells.length < 2 ^ 31)
    (base : BitVec 32) (n : ℕ) (dst : Fin 4 → BitVec 32) :
    copyCells cells base n 0 dst =
      if n ≤ 4 ∧ (n = 0 ∨ base.toNat + n ≤ cells.length) then
        .ok (filled cells base.toNat n dst)
      else .error .outside := by
  have hstart : filled cells base.toNat 0 dst = dst := by
    funext j
    exact if_neg (Nat.not_lt_zero _)
  by_cases hbase : n = 0 ∨ base.toNat + 0 ≤ cells.length
  · have h := copyCells_eq hlen dst n 0 (by omega) hbase
    rw [hstart] at h
    simpa using h
  · -- the first read is outside already
    obtain ⟨k, rfl⟩ : ∃ k, n = k + 1 := ⟨n - 1, by omega⟩
    rw [if_neg (by omega)]
    unfold copyCells readCell
    rw [show base + 0 = base from BitVec.add_zero base, List.getElem?_eq_none (by omega)]
    rfl

/-! ## One tuple -/

/-- The value has so many whole cells that tuple `regidx` of `n` cells lies in it. -/
def HasTuple (data : List (BitVec 8)) (n regidx : ℕ) : Prop :=
  (regidx + 1) * n ≤ data.length / 4

/-- `reg` with exactly the cells of tuple `regidx` stored. -/
def storeTuple (data : List (BitVec 8)) (regidx : ℕ) (reg : DtReg) : DtReg :=
  let n := reg.nrAddressCells.toNat + reg.nrSizeCells.toNat
  { reg with
    addressCells :=
      filled (be32Cells data) (regidx * n) reg.nrAddressCells.toNat reg.addressCells
    sizeCells :=
      filled (be32Cells data) (regidx * n + reg.nrAddressCells.toNat)
        reg.nrSizeCells.toNat reg.sizeCells }

/-- The one check of `dt_get_reg` fires : the first cell behind the tuple, in 32 bits, is
behind the property's cells. -/
def GuardFires (data : List (BitVec 8)) (nac nsc regidx : BitVec 32) : Prop :=
  data.length / 4 < (regidx * (nac + nsc) + (nac + nsc)).toNat

instance (data : List (BitVec 8)) (nac nsc regidx : BitVec 32) :
    Decidable (GuardFires data nac nsc regidx) :=
  inferInstanceAs (Decidable (_ < _))

/-- The tuple is there and fits the arrays. -/
def TupleFits (data : List (BitVec 8)) (nac nsc regidx : BitVec 32) : Prop :=
  nac.toNat ≤ 4 ∧ nsc.toNat ≤ 4 ∧ HasTuple data (nac.toNat + nsc.toNat) regidx.toNat

/-- The sum and the product do not wrap for a tuple that is there. -/
theorem toNat_of_hasTuple {data : List (BitVec 8)} {nac nsc regidx : BitVec 32}
    (hlen : data.length < 2 ^ 31)
    (h : HasTuple data (nac.toNat + nsc.toNat) regidx.toNat) :
    (nac + nsc).toNat = nac.toNat + nsc.toNat ∧
      (regidx * (nac + nsc)).toNat = regidx.toNat * (nac.toNat + nsc.toNat) := by
  unfold HasTuple at h
  rw [Nat.add_mul, Nat.one_mul] at h
  have hn : (nac + nsc).toNat = nac.toNat + nsc.toNat := by
    rw [BitVec.toNat_add]
    exact Nat.mod_eq_of_lt (by omega)
  refine ⟨hn, ?_⟩
  rw [BitVec.toNat_mul, hn]
  exact Nat.mod_eq_of_lt (by omega)

/-- The check only ever rejects a tuple that is not there. -/
theorem not_hasTuple_of_guard {data : List (BitVec 8)} {nac nsc regidx : BitVec 32}
    (hlen : data.length < 2 ^ 31) (h : GuardFires data nac nsc regidx) :
    ¬ HasTuple data (nac.toNat + nsc.toNat) regidx.toNat := by
  intro htuple
  obtain ⟨hn, hk⟩ := toNat_of_hasTuple hlen htuple
  unfold HasTuple at htuple
  rw [Nat.add_mul, Nat.one_mul] at htuple
  unfold GuardFires at h
  rw [BitVec.toNat_add, hk, hn, Nat.mod_eq_of_lt (by omega)] at h
  omega

namespace Fdt

variable {t : Fdt} {node : ℕ} {data : List (BitVec 8)} {regidx : BitVec 32} {reg : DtReg}

/-- `dt_get_reg` behind the check. -/
theorem dtGetReg_eq (hreg : t.fdtGetProperty node "reg" = .ok data) :
    t.dtGetReg node regidx reg =
      if GuardFires data reg.nrAddressCells reg.nrSizeCells regidx then .error notFound
      else do
        let base := regidx * (reg.nrAddressCells + reg.nrSizeCells)
        let addressCells ←
          copyCells (be32Cells data) base reg.nrAddressCells.toNat 0 reg.addressCells
        let sizeCells ←
          copyCells (be32Cells data) (base + reg.nrAddressCells) reg.nrSizeCells.toNat 0
            reg.sizeCells
        return { reg with addressCells := addressCells, sizeCells := sizeCells } := by
  unfold dtGetReg
  rw [hreg]
  rfl

theorem dtGetReg_of_guard (hreg : t.fdtGetProperty node "reg" = .ok data)
    (h : GuardFires data reg.nrAddressCells reg.nrSizeCells regidx) :
    t.dtGetReg node regidx reg = .error notFound := by
  rw [dtGetReg_eq hreg, if_pos h]

/-- What passes the check is stored if both runs of cells lie in the property and both
arrays hold them; nothing else is ever answered. -/
theorem dtGetReg_of_not_guard (hreg : t.fdtGetProperty node "reg" = .ok data)
    (h : ¬ GuardFires data reg.nrAddressCells reg.nrSizeCells regidx) :
    t.dtGetReg node regidx reg =
      let base := regidx * (reg.nrAddressCells + reg.nrSizeCells)
      if (reg.nrAddressCells.toNat ≤ 4 ∧ (reg.nrAddressCells.toNat = 0 ∨
            base.toNat + reg.nrAddressCells.toNat ≤ data.length / 4)) ∧
          reg.nrSizeCells.toNat ≤ 4 ∧ (reg.nrSizeCells.toNat = 0 ∨
            (base + reg.nrAddressCells).toNat + reg.nrSizeCells.toNat ≤ data.length / 4) then
        .ok { reg with
          addressCells := filled (be32Cells data) base.toNat reg.nrAddressCells.toNat
            reg.addressCells
          sizeCells := filled (be32Cells data) (base + reg.nrAddressCells).toNat
            reg.nrSizeCells.toNat reg.sizeCells }
      else .error .outside := by
  have hsized := length_of_fdtGetProperty hreg
  have hlen : (be32Cells data).length < 2 ^ 31 := by
    rw [be32Cells_length]
    omega
  rw [dtGetReg_eq hreg, if_neg h]
  simp only [copyCells_zero hlen, be32Cells_length]
  by_cases haddr : reg.nrAddressCells.toNat ≤ 4 ∧ (reg.nrAddressCells.toNat = 0 ∨
      (regidx * (reg.nrAddressCells + reg.nrSizeCells)).toNat + reg.nrAddressCells.toNat
        ≤ data.length / 4)
  · rw [if_pos haddr]
    simp only [bind, Except.bind]
    split_ifs with hsize hboth hboth
    · rfl
    · exact absurd ⟨haddr, hsize⟩ hboth
    · exact absurd hboth.2 hsize
    · rfl
  · rw [if_neg haddr]
    change Except.error DtFail.outside = _
    rw [if_neg fun hboth => haddr hboth.1]

theorem dtGetReg_of_fits (hreg : t.fdtGetProperty node "reg" = .ok data)
    (h : TupleFits data reg.nrAddressCells reg.nrSizeCells regidx) :
    t.dtGetReg node regidx reg = .ok (storeTuple data regidx.toNat reg) := by
  have hsized := length_of_fdtGetProperty hreg
  obtain ⟨hnac, hnsc, htuple⟩ := h
  obtain ⟨hn, hk⟩ := toNat_of_hasTuple hsized htuple
  have hguard : ¬ GuardFires data reg.nrAddressCells reg.nrSizeCells regidx :=
    fun hg => not_hasTuple_of_guard hsized hg htuple
  unfold HasTuple at htuple
  rw [Nat.add_mul, Nat.one_mul] at htuple
  have hsize : (regidx * (reg.nrAddressCells + reg.nrSizeCells) + reg.nrAddressCells).toNat
      = regidx.toNat * (reg.nrAddressCells.toNat + reg.nrSizeCells.toNat)
        + reg.nrAddressCells.toNat := by
    rw [BitVec.toNat_add, hk]
    exact Nat.mod_eq_of_lt (by omega)
  rw [dtGetReg_of_not_guard hreg hguard]
  simp only [hk, hsize]
  rw [if_pos (by omega)]
  rfl

/-- An answer for a tuple that is there : its cells fit the arrays. -/
theorem fits_of_dtGetReg {reg' : DtReg} (hreg : t.fdtGetProperty node "reg" = .ok data)
    (htuple : HasTuple data (reg.nrAddressCells.toNat + reg.nrSizeCells.toNat) regidx.toNat)
    (h : t.dtGetReg node regidx reg = .ok reg') :
    TupleFits data reg.nrAddressCells reg.nrSizeCells regidx := by
  have hguard : ¬ GuardFires data reg.nrAddressCells reg.nrSizeCells regidx :=
    fun hg => not_hasTuple_of_guard (length_of_fdtGetProperty hreg) hg htuple
  rw [dtGetReg_of_not_guard hreg hguard] at h
  dsimp only at h
  split_ifs at h with hfits
  exact ⟨hfits.1.1, hfits.2.1, htuple⟩

/-- The only code is that of the check. -/
theorem dtGetReg_error {e : DtFail} (hreg : t.fdtGetProperty node "reg" = .ok data)
    (h : t.dtGetReg node regidx reg = .error e) :
    GuardFires data reg.nrAddressCells reg.nrSizeCells regidx ∨ e = .outside := by
  by_cases hguard : GuardFires data reg.nrAddressCells reg.nrSizeCells regidx
  · exact Or.inl hguard
  · rw [dtGetReg_of_not_guard hreg hguard] at h
    dsimp only at h
    split_ifs at h
    exact Or.inr (Except.error.inj h).symm

end Fdt

/-! ## What a call may do -/

/-- A call for tuple `regidx` of `n` cells stores the tuple that is there, or fails with a
negative code, which is `-FDT_ERR_NOTFOUND` if there is none; it accesses nothing outside. -/
def StoresOrFails {α : Type} (data : List (BitVec 8)) (n regidx : ℕ) (stored : α) :
    Except DtFail α → Prop
  | .ok a => HasTuple data n regidx ∧ a = stored
  | .error (.code c) => c < 0 ∧ (¬ HasTuple data n regidx → c = -1)
  | .error .outside => False

/-- The cells of a `dt_reg` as the values of a `dt_pbus_reg`. -/
def DtReg.toPbus (reg : DtReg) : DtPbusReg :=
  ⟨dtPbusReadCells reg.nrAddressCells reg.addressCells,
    dtPbusReadCells reg.nrSizeCells reg.sizeCells⟩

namespace Fdt

variable {t : Fdt} {node parent : ℕ} {data : List (BitVec 8)} {nac nsc regidx : BitVec 32}
  {reg : DtReg}

/-- Whatever is made of the answer of `dt_get_reg`, it is right exactly if the check fires
or the tuple fits. -/
theorem storesOrFails_map_iff {α : Type} (f : DtReg → α)
    (hreg : t.fdtGetProperty node "reg" = .ok data) :
    StoresOrFails data (reg.nrAddressCells.toNat + reg.nrSizeCells.toNat) regidx.toNat
        (f (storeTuple data regidx.toNat reg)) ((t.dtGetReg node regidx reg).map f) ↔
      GuardFires data reg.nrAddressCells reg.nrSizeCells regidx ∨
        TupleFits data reg.nrAddressCells reg.nrSizeCells regidx := by
  constructor
  · intro h
    cases hr : t.dtGetReg node regidx reg with
    | ok reg' =>
      rw [hr] at h
      exact Or.inr (fits_of_dtGetReg hreg h.1 hr)
    | error e =>
      rcases dtGetReg_error hreg hr with hguard | rfl
      · exact Or.inl hguard
      · rw [hr] at h
        exact absurd h id
  · rintro (hguard | hfits)
    · rw [dtGetReg_of_guard hreg hguard]
      exact ⟨by omega, fun _ => rfl⟩
    · rw [dtGetReg_of_fits hreg hfits]
      exact ⟨hfits.2.2, rfl⟩

theorem dtPbusTranslateNode_eq (hparent : t.fdtParentOffset node = .ok parent)
    (hcells : t.dtGetNrCells parent = .ok (nac, nsc)) :
    t.dtPbusTranslateNode node regidx
      = (t.dtGetReg node regidx (dtRegInit nac nsc)).map DtReg.toPbus := by
  unfold dtPbusTranslateNode
  rw [hparent]
  simp only [bind, Except.bind, hcells]
  rfl

/-- With the numbers of cells that stand in the parent, `dt_get_reg` and
`dt_pbus_translate_node` store exactly the cells of the tuple or fail as they should, and
stay within the property and the arrays, exactly if the check fires or the tuple is there
and fits the arrays. -/
theorem dtPbusTranslateNode_stores_iff (hreg : t.fdtGetProperty node "reg" = .ok data)
    (hparent : t.fdtParentOffset node = .ok parent)
    (hcells : t.dtGetNrCells parent = .ok (nac, nsc)) (regidx : BitVec 32) :
    (StoresOrFails data (nac.toNat + nsc.toNat) regidx.toNat
        (storeTuple data regidx.toNat (dtRegInit nac nsc))
        (t.dtGetReg node regidx (dtRegInit nac nsc)) ↔
      GuardFires data nac nsc regidx ∨ TupleFits data nac nsc regidx) ∧
    (StoresOrFails data (nac.toNat + nsc.toNat) regidx.toNat
        (storeTuple data regidx.toNat (dtRegInit nac nsc)).toPbus
        (t.dtPbusTranslateNode node regidx) ↔
      GuardFires data nac nsc regidx ∨ TupleFits data nac nsc regidx) := by
  constructor
  · have h := @storesOrFails_map_iff t node data regidx (dtRegInit nac nsc) _ id hreg
    rwa [Except.map_id] at h
  · rw [dtPbusTranslateNode_eq hparent hcells]
    exact storesOrFails_map_iff DtReg.toPbus hreg

/-- A bus with the given numbers of cells, and a device on it with a `reg` property. -/
def busTree (ac sc : BitVec 8) (reg : List (BitVec 8)) (hsized : reg.length < 2 ^ 31) : Fdt where
  nodes :=
    [⟨0, "", [⟨"#address-cells", [0, 0, 0, ac]⟩, ⟨"#size-cells", [0, 0, 0, sc]⟩]⟩,
      ⟨1, "device", [⟨"reg", reg⟩]⟩]
  descends := by
    intro j hj
    obtain rfl : j = 0 := by
      simp only [List.length_cons, List.length_nil] at hj
      omega
    exact Nat.le_refl 1
  sized := by
    simp only [List.mem_cons, List.not_mem_nil, or_false]
    rintro x (rfl | rfl) p hp
    · simp only [List.mem_cons, List.not_mem_nil, or_false] at hp
      rcases hp with rfl | rfl
      · exact Nat.lt_of_lt_of_le (by decide : 4 < 5) (by decide)
      · exact Nat.lt_of_lt_of_le (by decide : 4 < 5) (by decide)
    · obtain rfl := List.mem_singleton.mp hp
      exact hsized

/-- On a bus with two address cells and one size cell, tuple 1 of five cells is refused. -/
theorem dtPbusTranslateNode_stores_iff_secondTuple :
    (StoresOrFails (List.replicate 20 0) 3 1
        (storeTuple (List.replicate 20 0) 1 (dtRegInit 2 1))
        ((busTree 2 1 (List.replicate 20 0) (by decide)).dtGetReg 1 1 (dtRegInit 2 1)) ↔
      GuardFires (List.replicate 20 0) 2 1 1 ∨ TupleFits (List.replicate 20 0) 2 1 1) ∧
    (StoresOrFails (List.replicate 20 0) 3 1
        (storeTuple (List.replicate 20 0) 1 (dtRegInit 2 1)).toPbus
        ((busTree 2 1 (List.replicate 20 0) (by decide)).dtPbusTranslateNode 1 1) ↔
      GuardFires (List.replicate 20 0) 2 1 1 ∨ TupleFits (List.replicate 20 0) 2 1 1) :=
  @dtPbusTranslateNode_stores_iff (busTree 2 1 (List.replicate 20 0) (by decide)) 1 0 _ _ _
    rfl rfl rfl 1

/-- With five address cells `dt_get_reg` writes behind `address_cells[4]`, and with four
cells a tuple it answers for index `2 ^ 30` of a property that has only tuple 0. -/
theorem dtPbusTranslateNode_beyondArrays :
    ¬ StoresOrFails (List.replicate 20 0) 5 0
        (storeTuple (List.replicate 20 0) 0 (dtRegInit 5 0))
        ((busTree 5 0 (List.replicate 20 0) (by decide)).dtGetReg 1 0 (dtRegInit 5 0)) ∧
      ¬ StoresOrFails (List.replicate 16 0) 4 (2 ^ 30)
        (storeTuple (List.replicate 16 0) (2 ^ 30) (dtRegInit 2 2)).toPbus
        ((busTree 2 2 (List.replicate 16 0) (by decide)).dtPbusTranslateNode 1 0x40000000#32) := by
  constructor
  · have hrun : (busTree 5 0 (List.replicate 20 0) (by decide)).dtGetReg 1 0 (dtRegInit 5 0)
        = .error .outside := rfl
    rw [hrun]
    exact id
  · have hrun : (busTree 2 2 (List.replicate 16 0) (by decide)).dtPbusTranslateNode 1 0x40000000#32
        = .ok ⟨0, 0⟩ := rfl
    rw [hrun]
    rintro ⟨htuple, -⟩
    unfold HasTuple at htuple
    exact absurd htuple (by decide)

end Fdt

end AcrnUt
