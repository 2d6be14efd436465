import AcrnUt.DtReg

/-!
# The memory regions of the device tree

`dt_get_memory_params` of `lib/devicetree.c` looks for the nodes whose `device_type` is
"memory" and stores the tuples of their `reg` properties one behind the other, up to
`nr_regs` of them. The inner loop runs over the tuples of a node and stops at the code
`-FDT_ERR_NOTFOUND`, which also answers for a node without `reg` and for the root, or
when the array is full; the outer one runs over the nodes to the end.

The invariant of both loops is `received` : what has been found so far, cut at
`nr_regs`, stands in front of what the array held. So all the tuples there are end up
in `regs`, in the order of the nodes and of the tuples in a node, or the first
`nr_regs` of them (`dtGetMemoryParams_eq`).
-/

set_option linter.unusedSectionVars false

namespace AcrnUt

/-- The value of `device_type` looked for : "memory" with its terminating zero. -/
def memoryType : List (BitVec 8) := [0x6d, 0x65, 0x6d, 0x6f, 0x72, 0x79, 0x00]

namespace Fdt

variable (t : Fdt)

/-- The inner loop of `dt_get_memory_params`, over the tuples of a node. -/
def nodeRegs (node nrRegs regIdx nr : ℕ) (regs : List DtPbusReg) :
    Except DtFail (ℕ × List DtPbusReg) :=
  if nr < nrRegs then
    match t.dtPbusTranslateNode node (BitVec.ofNat 32 regIdx) with
    | .error e => if e = notFound then .ok (nr, regs) else .error e
    | .ok reg =>
      if nr < regs.length then nodeRegs node nrRegs (regIdx + 1) (nr + 1) (regs.set nr reg)
      else .error .outside
  else .ok (nr, regs)
termination_by nrRegs - nr

/-- The nodes that the search of `dt_get_memory_params` answers, from -1 on. -/
def memorySearch : List ℕ :=
  visited (fun node => t.fdtNodeOffsetByPropValue node "device_type" memoryType)
    t.nodes.length (t.fdtNodeOffsetByPropValue (-1) "device_type" memoryType)

/-- `dt_get_memory_params` : what it returns, and `regs` afterwards. The search ends with
`-FDT_ERR_NOTFOUND`, for which `nr` is returned. -/
def dtGetMemoryParams (regs : List DtPbusReg) (nrRegs : ℕ) :
    Except DtFail (ℕ × List DtPbusReg) :=
  t.memorySearch.foldlM (fun st node => t.nodeRegs node nrRegs 0 st.1 st.2) (0, regs)

end Fdt

/-! ## The regions of a tree -/

/-- The number that a run of cells spells. -/
def cellsValue (cells : List (BitVec 32)) : BitVec 64 :=
  BitVec.ofNat 64 (cells.foldl (fun v c => v * 2 ^ 32 + c.toNat) 0)

/-- The whole tuples of `nac` address and `nsc` size cells. -/
def tuples (cells : List (BitVec 32)) (nac nsc : ℕ) : List DtPbusReg :=
  (List.range (cells.length / (nac + nsc))).map fun k =>
    ⟨cellsValue ((cells.drop (k * (nac + nsc))).take nac),
      cellsValue ((cells.drop (k * (nac + nsc) + nac)).take nsc)⟩

namespace Fdt

variable (t : Fdt)

/-- The nodes with `device_type` "memory", in tree order. -/
def memoryNodes : List ℕ :=
  (List.range t.nodes.length).filter (t.hasProp "device_type" memoryType)

/-- The tuples of a node's `reg`, by the numbers of cells of its parent; a node without
a parent or without `reg` has none. -/
def nodeTuples (node : ℕ) : List DtPbusReg :=
  match t.fdtParentOffset node, t.fdtGetProperty node "reg" with
  | .ok parent, .ok data =>
    match t.dtGetNrCells parent with
    | .ok (nac, nsc) => tuples (be32Cells data) nac.toNat nsc.toNat
    | .error _ => []
  | _, _ => []

/-- The parents of the memory nodes have one or two address and size cells. -/
def SmallMemoryCells : Prop :=
  ∀ node ∈ t.memoryNodes, ∀ parent, t.fdtParentOffset node = .ok parent →
    ∃ nac nsc, t.dtGetNrCells parent = .ok (nac, nsc) ∧
      (nac = 1#32 ∨ nac = 2#32) ∧ (nsc = 1#32 ∨ nsc = 2#32)

/-- The search meets the memory nodes, each once and in tree order. -/
theorem memorySearch_eq : t.memorySearch = t.memoryNodes := by
  unfold memorySearch memoryNodes
  rw [List.range_eq_range']
  exact visited_firstIn (fun s _ _ => rfl) t.nodes.length 0 (by omega)

end Fdt

/-! ## Tuples by the code -/

/-- Two cells put together by a shift. -/
theorem shiftLeft_or_cells (a b : BitVec 32) :
    (a.setWidth 64 <<< 32) ||| b.setWidth 64 = BitVec.ofNat 64 (a.toNat * 2 ^ 32 + b.toNat) := by
  have ha := a.isLt
  have hb := b.isLt
  have hor : a.toNat * 2 ^ 32 ||| b.toNat = a.toNat * 2 ^ 32 + b.toNat := by
    rw [← Nat.shiftLeft_eq]
    exact (Nat.shiftLeft_add_eq_or_of_lt hb a.toNat).symm
  apply BitVec.eq_of_toNat_eq
  rw [BitVec.toNat_or, BitVec.toNat_shiftLeft, BitVec.toNat_setWidth, BitVec.toNat_setWidth,
    BitVec.toNat_ofNat, Nat.shiftLeft_eq, Nat.mod_eq_of_lt (by omega : a.toNat < 2 ^ 64),
    Nat.mod_eq_of_lt (by omega : b.toNat < 2 ^ 64),
    Nat.mod_eq_of_lt (by omega : a.toNat * 2 ^ 32 < 2 ^ 64), hor,
    Nat.mod_eq_of_lt (by omega)]

/-- The value made of one or two cells of an array that was filled. -/
theorem dtPbusReadCells_filled {cells : List (BitVec 32)} {base : ℕ} {nac : BitVec 32}
    (hnac : nac = 1#32 ∨ nac = 2#32) (hbase : base + nac.toNat ≤ cells.length)
    (dst : Fin 4 → BitVec 32) :
    dtPbusReadCells nac (filled cells base nac.toNat dst)
      = cellsValue ((cells.drop base).take nac.toNat) := by
  rcases hnac with rfl | rfl
  · have hlen : base < cells.length := hbase
    have htake : (cells.drop base).take 1 = [cells.getD base 0] := by
      rw [List.drop_eq_getElem_cons hlen, List.take_succ_cons, List.take_zero,
        List.getD_eq_getElem _ _ hlen]
    change (cells.getD base 0).setWidth 64 = cellsValue ((cells.drop base).take 1)
    rw [htake]
    apply BitVec.eq_of_toNat_eq
    simp [cellsValue]
  · have hlen : base + 1 < cells.length := hbase
    have htake : (cells.drop base).take 2 = [cells.getD base 0, cells.getD (base + 1) 0] := by
      rw [List.drop_eq_getElem_cons (by omega), List.take_succ_cons,
        List.drop_eq_getElem_cons hlen, List.take_succ_cons, List.take_zero,
        List.getD_eq_getElem _ _ hlen, List.getD_eq_getElem _ _ (by omega)]
    change ((cells.getD base 0).setWidth 64 <<< 32) ||| (cells.getD (base + 1) 0).setWidth 64
      = cellsValue ((cells.drop base).take 2)
    rw [htake, shiftLeft_or_cells]
    simp [cellsValue]

theorem tuples_length (cells : List (BitVec 32)) (nac nsc : ℕ) :
    (tuples cells nac nsc).length = cells.length / (nac + nsc) := by
  simp [tuples]

/-- Tuple `k` is there exactly if it is one of the whole ones. -/
theorem hasTuple_iff {data : List (BitVec 8)} {n k : ℕ} (hn : 0 < n) :
    HasTuple data n k ↔ k < data.length / 4 / n := by
  unfold HasTuple
  rw [← Nat.succ_le_iff, Nat.le_div_iff_mul_le hn]

namespace Fdt

variable {t : Fdt} {node parent : ℕ} {data : List (BitVec 8)} {nac nsc : BitVec 32}

/-- A whole tuple is what the copy loops store of it. -/
theorem getElem?_tuples (hnac : nac = 1#32 ∨ nac = 2#32) (hnsc : nsc = 1#32 ∨ nsc = 2#32)
    {k : ℕ} (hk : HasTuple data (nac.toNat + nsc.toNat) k) :
    (tuples (be32Cells data) nac.toNat nsc.toNat)[k]?
      = some (storeTuple data k (dtRegInit nac nsc)).toPbus := by
  have hnac' : nac.toNat = 1 ∨ nac.toNat = 2 := hnac.imp (congrArg _) (congrArg _)
  have hindex := (hasTuple_iff (by omega)).mp hk
  have hend : k * (nac.toNat + nsc.toNat) + (nac.toNat + nsc.toNat)
      ≤ (be32Cells data).length := by
    rw [be32Cells_length, ← Nat.succ_mul]
    exact hk
  unfold tuples
  rw [List.getElem?_map, be32Cells_length, List.getElem?_range hindex]
  exact congrArg some (DtPbusReg.ext (dtPbusReadCells_filled hnac (by omega) _).symm
    (dtPbusReadCells_filled hnsc (by omega) _).symm)

/-- Translating tuple after tuple answers the whole tuples, and `-FDT_ERR_NOTFOUND` for
the first index behind them. -/
theorem dtPbusTranslateNode_tuples (hreg : t.fdtGetProperty node "reg" = .ok data)
    (hparent : t.fdtParentOffset node = .ok parent)
    (hcells : t.dtGetNrCells parent = .ok (nac, nsc)) (hnac : nac = 1#32 ∨ nac = 2#32)
    (hnsc : nsc = 1#32 ∨ nsc = 2#32) {k : ℕ}
    (hk : k ≤ (tuples (be32Cells data) nac.toNat nsc.toNat).length) :
    t.dtPbusTranslateNode node (BitVec.ofNat 32 k) =
      match (tuples (be32Cells data) nac.toNat nsc.toNat)[k]? with
      | some reg => .ok reg
      | none => .error notFound := by
  have hsized := length_of_fdtGetProperty hreg
  have hnac' : nac.toNat = 1 ∨ nac.toNat = 2 := hnac.imp (congrArg _) (congrArg _)
  have hnsc' : nsc.toNat = 1 ∨ nsc.toNat = 2 := hnsc.imp (congrArg _) (congrArg _)
  have hn : 0 < nac.toNat + nsc.toNat := by omega
  rw [tuples_length, be32Cells_length] at hk
  have hmul : k * (nac.toNat + nsc.toNat) ≤ data.length / 4 :=
    (Nat.mul_le_mul_right _ hk).trans (Nat.div_mul_le_self _ _)
  have hk32 : (BitVec.ofNat 32 k).toNat = k := by
    rw [BitVec.toNat_ofNat]
    have := Nat.div_le_self (data.length / 4) (nac.toNat + nsc.toNat)
    omega
  rw [dtPbusTranslateNode_eq hparent hcells]
  by_cases htuple : k < data.length / 4 / (nac.toNat + nsc.toNat)
  · have hfits : TupleFits data nac nsc (BitVec.ofNat 32 k) := by
      refine ⟨by omega, by omega, ?_⟩
      rw [hk32, hasTuple_iff hn]
      exact htuple
    rw [@dtGetReg_of_fits t node data _ (dtRegInit nac nsc) hreg hfits,
      getElem?_tuples hnac hnsc ((hasTuple_iff hn).mpr htuple), hk32]
    rfl
  · have hn32 : (nac + nsc).toNat = nac.toNat + nsc.toNat := by
      rw [BitVec.toNat_add]
      omega
    have hguard : GuardFires data nac nsc (BitVec.ofNat 32 k) := by
      have hbehind : data.length / 4 < (k + 1) * (nac.toNat + nsc.toNat) :=
        (Nat.div_lt_iff_lt_mul hn).mp (by omega)
      rw [Nat.succ_mul] at hbehind
      unfold GuardFires
      rw [BitVec.toNat_add, BitVec.toNat_mul, hk32, hn32, Nat.mod_eq_of_lt (by omega : _ < 2 ^ 32),
        Nat.mod_eq_of_lt (by omega)]
      omega
    rw [@dtGetReg_of_guard t node data _ (dtRegInit nac nsc) hreg hguard,
      List.getElem?_eq_none (by rw [tuples_length, be32Cells_length]; omega)]
    rfl

/-- Translating the tuples of a memory node, whatever it has or lacks. -/
theorem translate_memoryNode (hsmall : t.SmallMemoryCells) (hnode : node ∈ t.memoryNodes) {k : ℕ}
    (hk : k ≤ (t.nodeTuples node).length) :
    t.dtPbusTranslateNode node (BitVec.ofNat 32 k) =
      match (t.nodeTuples node)[k]? with
      | some reg => .ok reg
      | none => .error notFound := by
  have hlt : node < t.nodes.length := List.mem_range.mp (List.mem_filter.mp hnode).1
  unfold nodeTuples at hk ⊢
  cases hparent : t.fdtParentOffset node with
  | error e =>
    have he : e = notFound := by
      unfold fdtParentOffset at hparent
      rw [if_pos hlt] at hparent
      split at hparent
      · exact (Except.error.inj hparent).symm
      · exact absurd hparent (by simp)
    unfold dtPbusTranslateNode
    rw [hparent, he]
    rfl
  | ok parent =>
    obtain ⟨nac, nsc, hcells, hnac, hnsc⟩ := hsmall node hnode parent hparent
    cases hreg : t.fdtGetProperty node "reg" with
    | error e =>
      have he : e = notFound := by
        unfold fdtGetProperty at hreg
        rw [List.getElem?_eq_getElem hlt] at hreg
        dsimp only at hreg
        split at hreg
        · exact (Except.error.inj hreg).symm
        · exact absurd hreg (by simp)
      rw [dtPbusTranslateNode_eq hparent hcells]
      unfold dtGetReg
      rw [hreg, he]
      rfl
    | ok data =>
      rw [hparent, hreg] at hk
      dsimp only at hk ⊢
      rw [hcells] at hk ⊢
      exact dtPbusTranslateNode_tuples hreg hparent hcells hnac hnsc hk

end Fdt

/-! ## The loops -/

/-- The counter and the array when `found` has been met : its first `nrRegs` entries stand
in front, and nothing behind them has changed. -/
def received (regs : List DtPbusReg) (nrRegs : ℕ) (found : List DtPbusReg) :
    ℕ × List DtPbusReg :=
  (min found.length nrRegs, found.take nrRegs ++ regs.drop (min found.length nrRegs))

/-- Once the array is full, more to be found changes nothing. -/
theorem received_append_of_full {regs : List DtPbusReg} {nrRegs : ℕ} {found : List DtPbusReg}
    (hfull : nrRegs ≤ found.length) (more : List DtPbusReg) :
    received regs nrRegs (found ++ more) = received regs nrRegs found := by
  unfold received
  rw [List.length_append, Nat.min_eq_right hfull, Nat.min_eq_right (by omega),
    List.take_append_of_le_length hfull]

/-- Storing one more. -/
theorem received_set {regs : List DtPbusReg} {nrRegs : ℕ} {found : List DtPbusReg}
    (hroom : found.length < nrRegs) (hregs : nrRegs ≤ regs.length) (reg : DtPbusReg) :
    received regs nrRegs (found ++ [reg])
      = (found.length + 1, (received regs nrRegs found).2.set found.length reg) := by
  unfold received
  rw [List.length_append, List.length_singleton, Nat.min_eq_left hroom,
    Nat.min_eq_left hroom.le, List.take_of_length_le (by simp; omega),
    List.take_of_length_le hroom.le, List.set_append_right _ _ (Nat.le_refl _), Nat.sub_self,
    List.drop_eq_getElem_cons (show found.length < regs.length by omega), List.set_cons_zero,
    List.append_assoc, List.singleton_append]

namespace Fdt

variable {t : Fdt} {node nrRegs : ℕ} {regs : List DtPbusReg}

/-- A root with one address and one size cell and a memory node with three regions. -/
def memoryTree : Fdt where
  nodes :=
    [⟨0, "", [⟨"#address-cells", [0, 0, 0, 1]⟩, ⟨"#size-cells", [0, 0, 0, 1]⟩]⟩,
      ⟨1, "memory", [⟨"device_type", memoryType⟩, ⟨"reg",
        [0, 0, 0, 1, 0, 0, 0, 2, 0, 0, 0, 3, 0, 0, 0, 4, 0, 0, 0, 5, 0, 0, 0, 6]⟩]⟩]
  descends := by
    intro j hj
    obtain rfl : j = 0 := by
      simp only [List.length_cons, List.length_nil] at hj
      omega
    exact Nat.le_refl 1
  sized := by simp [memoryType]

theorem memoryTree_smallMemoryCells : memoryTree.SmallMemoryCells := by
  intro node hnode parent hparent
  have hnodes : memoryTree.memoryNodes = [1] := rfl
  obtain rfl : node = 1 := by simpa [hnodes] using hnode
  obtain rfl : 0 = parent := Except.ok.inj hparent
  exact ⟨1, 1, rfl, Or.inl rfl, Or.inl rfl⟩

/-- The inner loop stores the tuples of the node that are left, as far as they fit. -/
theorem nodeRegs_received (hsmall : t.SmallMemoryCells) (hnode : node ∈ t.memoryNodes)
    (hregs : nrRegs ≤ regs.length) :
    ∀ (todo k : ℕ) (found : List DtPbusReg), todo = (t.nodeTuples node).length - k →
      k ≤ (t.nodeTuples node).length →
      t.nodeRegs node nrRegs k (received regs nrRegs found).1 (received regs nrRegs found).2
        = .ok (received regs nrRegs (found ++ (t.nodeTuples node).drop k)) := by
  intro todo
  induction todo with
  | zero =>
    intro k found htodo hk
    unfold nodeRegs
    rw [List.drop_eq_nil_of_le (by omega), List.append_nil, translate_memoryNode hsmall hnode hk,
      List.getElem?_eq_none (by omega)]
    dsimp only
    rw [if_pos rfl, ite_self]
  | succ todo ih =>
    intro k found htodo hk
    have hlt : k < (t.nodeTuples node).length := by omega
    unfold nodeRegs
    by_cases hroom : found.length < nrRegs
    · have hnr : (received regs nrRegs found).1 = found.length := Nat.min_eq_left hroom.le
      have hlen : found.length < (received regs nrRegs found).2.length := by
        unfold received
        simp only [List.length_append, List.length_take, List.length_drop]
        omega
      have hset := received_set hroom hregs (t.nodeTuples node)[k]
      have hnext := ih (k + 1) (found ++ [(t.nodeTuples node)[k]]) (by omega) hlt
      rw [hset] at hnext
      rw [hnr, if_pos hroom, translate_memoryNode hsmall hnode hk, List.getElem?_eq_getElem hlt]
      dsimp only
      rw [if_pos hlen, hnext, List.drop_eq_getElem_cons hlt, List.append_assoc,
        List.singleton_append]
    · have hnr : (received regs nrRegs found).1 = nrRegs := Nat.min_eq_right (by omega)
      rw [if_neg (by omega), received_append_of_full (by omega)]

/-- The loop over the nodes, by the invariant. -/
theorem foldlM_nodeRegs (hsmall : t.SmallMemoryCells) (hregs : nrRegs ≤ regs.length) :
    ∀ (nodes : List ℕ) (found : List DtPbusReg), (∀ x ∈ nodes, x ∈ t.memoryNodes) →
      nodes.foldlM (fun st node => t.nodeRegs node nrRegs 0 st.1 st.2) (received regs nrRegs found)
        = .ok (received regs nrRegs (found ++ nodes.flatMap t.nodeTuples))
  | [], found, _ => by
    rw [List.flatMap_nil, List.append_nil]
    rfl
  | node :: nodes, found, hmem => by
    rw [List.foldlM_cons,
      nodeRegs_received hsmall (hmem node List.mem_cons_self) hregs _ 0 found rfl (by omega),
      List.drop_zero, List.flatMap_cons, ← List.append_assoc]
    exact foldlM_nodeRegs hsmall hregs nodes _ fun x hx => hmem x (List.mem_cons_of_mem _ hx)

/-- `dt_get_memory_params` returns how many regions there are, at most `nr_regs`, and has
stored so many of them in the order of the nodes and their tuples, and nothing else. -/
theorem dtGetMemoryParams_eq (hsmall : t.SmallMemoryCells) (hregs : nrRegs ≤ regs.length) :
    t.dtGetMemoryParams regs nrRegs =
      .ok (min (t.memoryNodes.flatMap t.nodeTuples).length nrRegs,
        (t.memoryNodes.flatMap t.nodeTuples).take nrRegs ++
          regs.drop (min (t.memoryNodes.flatMap t.nodeTuples).length nrRegs)) := by
  unfold dtGetMemoryParams
  rw [t.memorySearch_eq]
  have h := foldlM_nodeRegs hsmall hregs t.memoryNodes [] fun _ hx => hx
  rw [List.nil_append] at h
  have hstart : received regs nrRegs [] = (0, regs) := by simp [received]
  rw [hstart] at h
  exact h

/-- One node with three regions of one address and one size cell, and room for two. -/
theorem dtGetMemoryParams_eq_twoOfThree :
    Fdt.dtGetMemoryParams memoryTree [⟨9, 9⟩, ⟨9, 9⟩, ⟨9, 9⟩] 2 =
      .ok (2, [⟨1, 2⟩, ⟨3, 4⟩, ⟨9, 9⟩]) := by
  rw [dtGetMemoryParams_eq memoryTree_smallMemoryCells (by decide)]
  rfl

end Fdt

end AcrnUt
