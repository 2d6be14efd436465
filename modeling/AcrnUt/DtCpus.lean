import AcrnUt.DtMemory

/-!
# The cpu nodes of the device tree

`dt_for_each_cpu_node` of `lib/devicetree.c` runs over the children of `/cpus`. A child
whose `device_type` is not "cpu" is skipped, but a child that has no `device_type` ends
the enumeration with the code of the failed lookup, and so does a cpu whose `reg` has
not all the cells that `#address-cells` and `#size-cells` of `/cpus` ask for.

So whether the callback is run for every cpu depends on what stands in front of it
(`dtForEachCpuNode_iff`) : a `cpu-map` node, which has no `device_type`, hides all the
cpus behind it, and makes the function fail even behind the last of them.
-/

set_option linter.unusedSectionVars false

namespace AcrnUt

/-- The text that `device_type` is compared with. -/
def cpuText : List (BitVec 8) := [0x63, 0x70, 0x75]

/-- The value of a `device_type` that is "cpu", with its terminating zero. -/
def cpuType : List (BitVec 8) := [0x63, 0x70, 0x75, 0x00]

/-- `strcmp(data, "cpu")` is not zero. -/
def differsFromCpu (data : List (BitVec 8)) : Bool := data.takeWhile (· != 0) != cpuText

namespace Fdt

variable (t : Fdt)

/-- The array of the address cells is not empty. -/
local instance neZero_cells : NeZero 4 :=
  ⟨four_ne_zero⟩

/-- The loop of `dt_for_each_cpu_node` over the nodes left : what `func` is called with,
and how the loop ends. -/
def cpuLoop (nac : BitVec 32) :
    DtReg → List ℕ → List (ℕ × BitVec 64) × Except DtFail Unit
  | _, [] => ([], .ok ())
  | rawReg, cpu :: rest =>
    match t.fdtGetProperty cpu "device_type" with
    | .error e => ([], .error e)
    | .ok prop =>
      if prop.length ≠ 4 ∨ differsFromCpu prop = true then cpuLoop nac rawReg rest
      else
        match t.dtGetReg cpu 0 rawReg with
        | .error e => ([], .error e)
        | .ok rawReg =>
          let regval := (rawReg.addressCells 0).setWidth 64
          let regval :=
            if nac = 2 then (regval <<< 32) ||| (rawReg.addressCells 1).setWidth 64
            else regval
          let run := cpuLoop nac rawReg rest
          ((cpu, regval) :: run.1, run.2)

/-- `dt_for_each_cpu_node` : the calls of `func`, and how it ends. -/
def dtForEachCpuNode : List (ℕ × BitVec 64) × Except DtFail Unit :=
  match t.fdtPathOffset ["cpus"] with
  | .error e => ([], .error e)
  | .ok cpus =>
    match t.dtGetNrCells cpus with
    | .error e => ([], .error e)
    | .ok (nac, nsc) => t.cpuLoop nac (dtRegInit nac nsc) (t.dtForEachSubnode cpus)

/-! ## The cpus of a tree -/

/-- The children of `/cpus` whose `device_type` is "cpu", in tree order. -/
def cpuChildren (cpus : ℕ) : List ℕ :=
  (t.children cpus).filter (t.hasProp "device_type" cpuType)

/-- The value of the address cells of a cpu's `reg`. -/
def cpuRegval (nac : BitVec 32) (cpu : ℕ) : BitVec 64 :=
  match t.fdtGetProperty cpu "reg" with
  | .ok data => cellsValue ((be32Cells data).take nac.toNat)
  | .error _ => 0

/-- One of the cell counts of a node. -/
def cellCount (node : ℕ) (name : String) : Except DtFail (BitVec 32) := do
  let prop ← t.fdtGetProperty node name
  readCell (be32Cells prop) 0

/-- The node has a `device_type`. -/
def Typed (node : ℕ) : Prop := ∃ data, t.fdtGetProperty node "device_type" = .ok data

/-- The node has a `reg` with all the cells of a tuple, which fit a `dt_reg`. -/
def RegReadable (nac nsc : BitVec 32) (node : ℕ) : Prop :=
  ∃ data, t.fdtGetProperty node "reg" = .ok data ∧ TupleFits data nac nsc 0

/-- The enumeration as it should be : one call for each cpu, in tree order. -/
def cpuCalls (nac : BitVec 32) (cpus : ℕ) : List (ℕ × BitVec 64) :=
  (t.cpuChildren cpus).map fun cpu => (cpu, t.cpuRegval nac cpu)

variable {t}

/-- The comparison of the loop holds for exactly one value. -/
theorem not_differsFromCpu_iff (data : List (BitVec 8)) :
    ¬ (data.length ≠ 4 ∨ differsFromCpu data = true) ↔ data = cpuType := by
  constructor
  · intro h
    rw [not_or, not_not] at h
    obtain ⟨hlen, hsame⟩ := h
    have htext : data.takeWhile (· != 0) = cpuText := by simpa [differsFromCpu] using hsame
    have happ := List.takeWhile_append_dropWhile (p := (· != 0)) (l := data)
    rw [htext] at happ
    obtain ⟨x, hx⟩ : ∃ x, data.dropWhile (· != 0) = [x] := by
      rw [← List.length_eq_one_iff]
      have hsum := congrArg List.length happ
      rw [List.length_append, hlen] at hsum
      simp only [cpuText, List.length_cons, List.length_nil] at hsum
      omega
    have hzero := List.head?_dropWhile_not (· != 0) data
    rw [hx] at hzero happ
    obtain rfl : x = 0 := by simpa using hzero
    exact happ.symm
  · rintro rfl
    decide

/-- The first tuple is answered exactly if all its cells are there and fit. -/
theorem dtGetReg_zero (node : ℕ) (reg : DtReg) :
    (∃ data, t.fdtGetProperty node "reg" = .ok data ∧
        TupleFits data reg.nrAddressCells reg.nrSizeCells 0 ∧
        t.dtGetReg node 0 reg = .ok (storeTuple data 0 reg)) ∨
      ¬ t.RegReadable reg.nrAddressCells reg.nrSizeCells node ∧
        ∃ e, t.dtGetReg node 0 reg = .error e := by
  cases hreg : t.fdtGetProperty node "reg" with
  | error e =>
    refine Or.inr ⟨fun ⟨data, hdata, _⟩ => ?_, e, ?_⟩
    · rw [hreg] at hdata
      exact absurd hdata (by simp)
    · unfold dtGetReg
      rw [hreg]
      rfl
  | ok data =>
    by_cases hfits : TupleFits data reg.nrAddressCells reg.nrSizeCells 0
    · exact Or.inl ⟨data, rfl, hfits, dtGetReg_of_fits hreg hfits⟩
    · refine Or.inr ⟨fun ⟨data', hdata, hfits'⟩ => ?_, ?_⟩
      · rw [hreg] at hdata
        exact hfits (Except.ok.inj hdata ▸ hfits')
      · by_cases hguard : GuardFires data reg.nrAddressCells reg.nrSizeCells 0
        · exact ⟨_, dtGetReg_of_guard hreg hguard⟩
        · refine ⟨.outside, ?_⟩
          rw [dtGetReg_of_not_guard hreg hguard]
          dsimp only
          rw [if_neg]
          rintro ⟨⟨hnac, haddr⟩, hnsc, hsize⟩
          refine hfits ⟨hnac, hnsc, ?_⟩
          have hbase : 0 * (reg.nrAddressCells + reg.nrSizeCells) = 0#32 := BitVec.zero_mul
          rw [hbase, BitVec.toNat_zero] at haddr
          rw [hbase, BitVec.zero_add] at hsize
          change (0 + 1) * _ ≤ _
          omega

section Loop

variable {nac nsc : BitVec 32} {rawReg : DtReg} {node : ℕ} {nodes : List ℕ}

/-- A node without a `device_type` ends the loop. -/
theorem cpuLoop_untyped (h : ¬ t.Typed node) :
    t.hasProp "device_type" cpuType node = false ∧
      ∃ e, t.cpuLoop nac rawReg (node :: nodes) = ([], .error e) := by
  unfold hasProp cpuLoop
  cases hprop : t.fdtGetProperty node "device_type" with
  | error e => exact ⟨rfl, e, rfl⟩
  | ok data => exact absurd ⟨data, hprop⟩ h

/-- Any other node that is not a cpu is skipped. -/
theorem cpuLoop_skip (h : t.Typed node)
    (hcpu : t.hasProp "device_type" cpuType node = false) :
    t.cpuLoop nac rawReg (node :: nodes) = t.cpuLoop nac rawReg nodes := by
  obtain ⟨data, hprop⟩ := h
  have hdiffers : data.length ≠ 4 ∨ differsFromCpu data = true := by
    by_contra hsame
    rw [not_differsFromCpu_iff] at hsame
    rw [hsame] at hprop
    rw [hasProp_eq_true_iff.mpr hprop] at hcpu
    exact absurd hcpu (by simp)
  rw [cpuLoop, hprop]
  exact if_pos hdiffers

/-- For a cpu the loop asks for tuple 0 of its `reg`. -/
theorem cpuLoop_cpu (hcpu : t.hasProp "device_type" cpuType node = true) :
    t.cpuLoop nac rawReg (node :: nodes) =
      match t.dtGetReg node 0 rawReg with
      | .error e => ([], .error e)
      | .ok rawReg =>
        let regval := (rawReg.addressCells 0).setWidth 64
        let regval :=
          if nac = 2 then (regval <<< 32) ||| (rawReg.addressCells 1).setWidth 64 else regval
        let run := t.cpuLoop nac rawReg nodes
        ((node, regval) :: run.1, run.2) := by
  rw [cpuLoop, hasProp_eq_true_iff.mp hcpu]
  exact if_neg ((not_differsFromCpu_iff _).mpr rfl)

/-- A cpu that is not readable ends the loop. -/
theorem cpuLoop_unreadable (hcpu : t.hasProp "device_type" cpuType node = true)
    (h : ¬ t.RegReadable rawReg.nrAddressCells rawReg.nrSizeCells node) :
    ∃ e, t.cpuLoop nac rawReg (node :: nodes) = ([], .error e) := by
  rcases t.dtGetReg_zero node rawReg with ⟨data, hreg, hfits, -⟩ | ⟨-, e, he⟩
  · exact absurd ⟨data, hreg, hfits⟩ h
  · exact ⟨e, by rw [cpuLoop_cpu hcpu, he]⟩

/-- The value that the loop makes of one or two address cells. -/
theorem regval_eq (hnac : nac = 1#32 ∨ nac = 2#32) (cells : Fin 4 → BitVec 32) :
    (if nac = 2 then ((cells 0).setWidth 64 <<< 32) ||| (cells 1).setWidth 64
      else (cells 0).setWidth 64) = dtPbusReadCells nac cells := by
  rcases hnac with rfl | rfl
  · rfl
  · rfl

/-- For a readable cpu `func` is called with the value of its address cells. -/
theorem cpuLoop_readable (hcpu : t.hasProp "device_type" cpuType node = true)
    (h : t.RegReadable rawReg.nrAddressCells rawReg.nrSizeCells node)
    (hnac : rawReg.nrAddressCells = 1#32 ∨ rawReg.nrAddressCells = 2#32) :
    ∃ rawReg' : DtReg, rawReg'.nrAddressCells = rawReg.nrAddressCells ∧
      rawReg'.nrSizeCells = rawReg.nrSizeCells ∧
      t.cpuLoop rawReg.nrAddressCells rawReg (node :: nodes) =
        ((node, t.cpuRegval rawReg.nrAddressCells node) ::
            (t.cpuLoop rawReg.nrAddressCells rawReg' nodes).1,
          (t.cpuLoop rawReg.nrAddressCells rawReg' nodes).2) := by
  rcases t.dtGetReg_zero node rawReg with ⟨data, hreg, hfits, hrun⟩ | ⟨hno, -⟩
  · refine ⟨storeTuple data 0 rawReg, rfl, rfl, ?_⟩
    have hlen : 0 + rawReg.nrAddressCells.toNat ≤ (be32Cells data).length := by
      have htuple : (0 + 1) * _ ≤ _ := hfits.2.2
      rw [be32Cells_length]
      omega
    have hval := dtPbusReadCells_filled hnac hlen rawReg.addressCells
    rw [List.drop_zero] at hval
    have hregval : t.cpuRegval rawReg.nrAddressCells node
        = cellsValue ((be32Cells data).take rawReg.nrAddressCells.toNat) := by
      unfold cpuRegval
      rw [hreg]
    have hcells : (storeTuple data 0 rawReg).addressCells
        = filled (be32Cells data) 0 rawReg.nrAddressCells.toNat rawReg.addressCells := by
      unfold storeTuple
      simp only [Nat.zero_mul]
    rw [cpuLoop_cpu hcpu, hrun, hregval, ← hval, ← regval_eq hnac, ← hcells]
  · exact absurd h hno

/-- One more cpu in front : it is readable, and nothing stands before it. -/
theorem forall_cpu_cons {readable typed : ℕ → Prop} {cpus : List ℕ}
    (hbefore : ∀ n ∈ nodes, node < n) (hread : readable node) (htyped : typed node) :
    (∀ cpu ∈ node :: cpus, readable cpu ∧ ∀ n ∈ node :: nodes, n < cpu → typed n) ↔
      ∀ cpu ∈ cpus, readable cpu ∧ ∀ n ∈ nodes, n < cpu → typed n := by
  constructor
  · intro h cpu hcpu
    obtain ⟨h₁, h₂⟩ := h cpu (List.mem_cons_of_mem _ hcpu)
    exact ⟨h₁, fun n hn => h₂ n (List.mem_cons_of_mem _ hn)⟩
  · intro h cpu hcpu
    rcases List.mem_cons.mp hcpu with rfl | hcpu
    · refine ⟨hread, fun n hn hlt => ?_⟩
      rcases List.mem_cons.mp hn with rfl | hn
      · exact htyped
      · have := hbefore n hn
        omega
    · refine ⟨(h cpu hcpu).1, fun n hn hlt => ?_⟩
      rcases List.mem_cons.mp hn with rfl | hn
      · exact htyped
      · exact (h cpu hcpu).2 n hn hlt

/-- Without a `device_type` on the first node no cpu may follow. -/
theorem forall_cpu_untyped {readable typed : ℕ → Prop} {cpus : List ℕ}
    (hbefore : ∀ cpu ∈ cpus, node < cpu) (htyped : ¬ typed node) :
    (∀ cpu ∈ cpus, readable cpu ∧ ∀ n ∈ node :: nodes, n < cpu → typed n) ↔ cpus = [] := by
  constructor
  · intro h
    rw [List.eq_nil_iff_forall_not_mem]
    exact fun cpu hcpu => htyped ((h cpu hcpu).2 node List.mem_cons_self (hbefore cpu hcpu))
  · rintro rfl cpu hcpu
    exact absurd hcpu List.not_mem_nil

end Loop

/-- The loop calls `func` as it should for the nodes left exactly if every cpu among them
is readable and has only nodes with a `device_type` before it; and it also ends with
success exactly if none of the nodes lacks what it needs. -/
theorem cpuLoop_iff {nac nsc : BitVec 32} (hnac : nac = 1#32 ∨ nac = 2#32) :
    ∀ (nodes : List ℕ) (rawReg : DtReg), nodes.Pairwise (· < ·) →
      rawReg.nrAddressCells = nac → rawReg.nrSizeCells = nsc →
      let cpus := nodes.filter (t.hasProp "device_type" cpuType)
      let calls := cpus.map fun cpu => (cpu, t.cpuRegval nac cpu)
      ((t.cpuLoop nac rawReg nodes).1 = calls ↔
        ∀ cpu ∈ cpus, t.RegReadable nac nsc cpu ∧ ∀ node ∈ nodes, node < cpu → t.Typed node) ∧
      (t.cpuLoop nac rawReg nodes = (calls, .ok ()) ↔
        (∀ node ∈ nodes, t.Typed node) ∧ ∀ cpu ∈ cpus, t.RegReadable nac nsc cpu)
  | [], rawReg, _, _, _ => by simp [cpuLoop]
  | node :: nodes, rawReg, hsorted, hna, hns => by
    obtain ⟨hbefore, hsorted⟩ := List.pairwise_cons.mp hsorted
    dsimp only
    by_cases htyped : t.Typed node
    · by_cases hcpu : t.hasProp "device_type" cpuType node = true
      · rw [List.filter_cons_of_pos hcpu, List.map_cons]
        by_cases hread : t.RegReadable nac nsc node
        · -- called, and on with the others
          subst hna hns
          obtain ⟨rawReg', hna', hns', hloop⟩ :=
            @cpuLoop_readable t rawReg node nodes hcpu hread hnac
          obtain ⟨ihcalls, ihrun⟩ := cpuLoop_iff hnac nodes rawReg' hsorted hna' hns'
          rw [hloop]
          constructor
          · rw [forall_cpu_cons hbefore hread htyped, ← ihcalls]
            simp
          · simpa [Prod.ext_iff, htyped, hread] using ihrun
        · -- not called, and nothing behind it either
          subst hna hns
          obtain ⟨e, hloop⟩ := @cpuLoop_unreadable t rawReg.nrAddressCells rawReg node nodes
            hcpu hread
          rw [hloop]
          simp [hread]
      · rw [List.filter_cons_of_neg hcpu, cpuLoop_skip htyped (by simpa using hcpu)]
        obtain ⟨ihcalls, ihrun⟩ := cpuLoop_iff hnac nodes rawReg hsorted hna hns
        constructor
        · simp only [ihcalls, List.forall_mem_cons, htyped]
          simp
        · simp only [ihrun, List.forall_mem_cons, htyped]
          simp
    · obtain ⟨hcpu, e, hloop⟩ := @cpuLoop_untyped t nac rawReg node nodes htyped
      rw [List.filter_cons_of_neg (by simp [hcpu]), hloop]
      constructor
      · rw [forall_cpu_untyped (fun cpu hcpu => hbefore cpu (List.mem_filter.mp hcpu).1) htyped,
          eq_comm, List.map_eq_nil_iff]
      · simp [htyped]

theorem dtGetNrCells_eq (node : ℕ) :
    t.dtGetNrCells node = do
      let nac ← t.cellCount node "#address-cells"
      let nsc ← t.cellCount node "#size-cells"
      return (nac, nsc) := by
  unfold dtGetNrCells cellCount
  simp only [bind_assoc]

/-- The loop is reached if both numbers of cells can be read. -/
theorem dtForEachCpuNode_eq {cpus : ℕ} {nac : BitVec 32}
    (hpath : t.fdtPathOffset ["cpus"] = .ok cpus)
    (hac : t.cellCount cpus "#address-cells" = .ok nac) :
    t.dtForEachCpuNode =
      match t.cellCount cpus "#size-cells" with
      | .error e => ([], .error e)
      | .ok nsc => t.cpuLoop nac (dtRegInit nac nsc) (t.children cpus) := by
  have hcells := t.dtGetNrCells_eq cpus
  rw [hac] at hcells
  unfold dtForEachCpuNode
  rw [hpath]
  dsimp only
  rw [hcells, t.dtForEachSubnode_eq]
  cases t.cellCount cpus "#size-cells" with
  | error e => rfl
  | ok nsc => rfl

/-- `func` is called exactly once for each cpu, in tree order and with the value of its
address cells, exactly if every cpu has a whole tuple that fits and no node before it
lacks a `device_type`; and the function also succeeds exactly if no child lacks one,
`#size-cells` is there and every cpu has such a tuple. -/
theorem dtForEachCpuNode_iff {cpus : ℕ} {nac : BitVec 32}
    (hpath : t.fdtPathOffset ["cpus"] = .ok cpus)
    (hac : t.cellCount cpus "#address-cells" = .ok nac) (hnac : nac = 1#32 ∨ nac = 2#32) :
    (t.dtForEachCpuNode.1 = t.cpuCalls nac cpus ↔
      ∀ cpu ∈ t.cpuChildren cpus,
        (∃ nsc, t.cellCount cpus "#size-cells" = .ok nsc ∧ t.RegReadable nac nsc cpu) ∧
          ∀ node ∈ t.children cpus, node < cpu → t.Typed node) ∧
    (t.dtForEachCpuNode = (t.cpuCalls nac cpus, .ok ()) ↔
      (∃ nsc, t.cellCount cpus "#size-cells" = .ok nsc ∧
          ∀ cpu ∈ t.cpuChildren cpus, t.RegReadable nac nsc cpu) ∧
        ∀ node ∈ t.children cpus, t.Typed node) := by
  rw [dtForEachCpuNode_eq hpath hac]
  cases t.cellCount cpus "#size-cells" with
  | error e =>
    -- nothing is called
    constructor
    · simp only [cpuCalls, reduceCtorEq, false_and, exists_false, imp_false, List.nil_eq,
        List.map_eq_nil_iff]
      exact List.eq_nil_iff_forall_not_mem
    · simp only [Prod.mk.injEq, reduceCtorEq, and_false, false_and, exists_false]
  | ok nsc =>
    have hsorted : (t.children cpus).Pairwise (· < ·) := List.pairwise_lt_range.filter _
    obtain ⟨hcalls, hrun⟩ :=
      cpuLoop_iff (t := t) hnac (t.children cpus) (dtRegInit nac nsc) hsorted rfl rfl
    simp only [Except.ok.injEq, exists_eq_left']
    exact ⟨hcalls, hrun.trans and_comm⟩

/-- `/cpus` with one address cell and no size cell : a node with the given properties, and
behind it a cpu with number 3. -/
def cpusTree (props : List DtProp) (hsized : ∀ p ∈ props, p.data.length < 2 ^ 31) : Fdt where
  nodes :=
    [⟨0, "", []⟩,
      ⟨1, "cpus", [⟨"#address-cells", [0, 0, 0, 1]⟩, ⟨"#size-cells", [0, 0, 0, 0]⟩]⟩,
      ⟨2, "first", props⟩,
      ⟨2, "cpu@3", [⟨"device_type", cpuType⟩, ⟨"reg", [0, 0, 0, 3]⟩]⟩]
  descends := by
    intro j hj
    simp only [List.length_cons, List.length_nil] at hj
    rcases (by omega : j = 0 ∨ j = 1 ∨ j = 2) with rfl | rfl | rfl
    · exact Nat.le_refl 1
    · exact Nat.le_refl 2
    · exact Nat.le_succ 2
  sized := by
    simp only [List.mem_cons, List.not_mem_nil, or_false]
    rintro x (rfl | rfl | rfl | rfl) p hp
    · exact absurd hp List.not_mem_nil
    · simp only [List.mem_cons, List.not_mem_nil, or_false] at hp
      rcases hp with rfl | rfl
      · simp
      · simp
    · exact hsized p hp
    · simp only [List.mem_cons, List.not_mem_nil, or_false] at hp
      rcases hp with rfl | rfl
      · simp [cpuType]
      · simp

/-- Behind a cache node with a `device_type` the cpu is found. -/
theorem dtForEachCpuNode_iff_cache :
    (cpusTree [⟨"device_type", [0x63, 0]⟩] (by simp)).dtForEachCpuNode = ([(3, 3)], .ok ()) :=
  (@dtForEachCpuNode_iff (cpusTree [⟨"device_type", [0x63, 0]⟩] (by simp)) 1 1
    rfl rfl (Or.inl rfl)).2.mpr (by
      refine ⟨⟨0, rfl, ?_⟩, ?_⟩
      · intro cpu hcpu
        obtain rfl : cpu = 3 := List.mem_singleton.mp hcpu
        exact ⟨[0, 0, 0, 3], rfl, by decide, by decide, by unfold HasTuple; decide⟩
      · intro node hnode
        have hchildren : (cpusTree [⟨"device_type", [0x63, 0]⟩] (by simp)).children 1 = [2, 3] :=
          rfl
        rw [hchildren] at hnode
        simp only [List.mem_cons, List.not_mem_nil, or_false] at hnode
        rcases hnode with rfl | rfl
        · exact ⟨_, rfl⟩
        · exact ⟨_, rfl⟩)

/-- Behind a `cpu-map`, which has no `device_type`, no cpu is found. -/
theorem dtForEachCpuNode_cpuMap :
    (cpusTree [] (by simp)).dtForEachCpuNode = ([], .error notFound) ∧
      (cpusTree [] (by simp)).cpuCalls 1 1 = [(3, 3)] ∧
      (cpusTree [] (by simp)).dtForEachCpuNode.1 ≠ (cpusTree [] (by simp)).cpuCalls 1 1 := by
  refine ⟨rfl, rfl, ?_⟩
  intro h
  exact absurd (congrArg List.length h) (by decide)

end Fdt

end AcrnUt
