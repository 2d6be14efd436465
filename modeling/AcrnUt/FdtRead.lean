import AcrnUt.FdtNodes

/-!
# Reading a device tree blob

The functions of `lib/libfdt/fdt.c` and `lib/libfdt/fdt_ro.c` that go from node to node, on the
bytes of a blob. Called with the offset of a node of a well-formed blob, each does what the
abstract `Fdt` says of the node : it goes to the first subnode and the next one, so that
`dt_for_each_subnode` visits the children (`Libfdt.Blob.dtForEachSubnode_children`), and to the
parent (`Libfdt.Blob.fdtParentOffset_eq`).
-/

set_option linter.unusedSectionVars false

namespace AcrnUt

namespace Libfdt

/-! ## The code -/

/-- `-FDT_ERR_BADSTATE`. -/
def errBadstate : ℤ := -7

/-- `-FDT_ERR_BADMAGIC`. -/
def errBadmagic : ℤ := -9

/-- `-FDT_ERR_BADVERSION`. -/
def errBadversion : ℤ := -10

/-- `-FDT_ERR_INTERNAL`. -/
def errInternal : ℤ := -13

/-- `fdt_check_header`. -/
def fdtCheckHeader (m : ByteMem) : ℤ :=
  if fdtMagic m = magic then
    if fdtVersion m < 0x10 then errBadversion
    else if 0x11 < fdtLastCompVersion m then errBadversion
    else 0
  else if fdtMagic m = ~~~magic then
    if fdtSizeDtStruct m = 0 then errBadstate else 0
  else errBadmagic

/-- `fdt_first_subnode`. -/
def fdtFirstSubnode (fuel : ℕ) (m : ByteMem) (offset : ℤ) : Option ℤ :=
  match fdtNextNode fuel m offset (some 0) with
  | some (offset, some depth) => some (if offset < 0 ∨ depth ≠ 1 then errNotfound else offset)
  | _ => none

/-- The loop of `fdt_next_subnode`. -/
def nextSubnodeLoop (fuel : ℕ) (m : ByteMem) : ℕ → ℤ → ℤ → Option ℤ
  | 0, _, _ => none
  | n + 1, offset, depth =>
    match fdtNextNode fuel m offset (some depth) with
    | some (offset, some depth) =>
      if offset < 0 ∨ depth < 1 then some errNotfound
      else if 1 < depth then nextSubnodeLoop fuel m n offset depth
      else some offset
    | _ => none

/-- `fdt_next_subnode`. -/
def fdtNextSubnode (fuel : ℕ) (m : ByteMem) (offset : ℤ) : Option ℤ :=
  nextSubnodeLoop fuel m fuel offset 1

/-- The values that `s` takes in the rest of a loop `dt_for_each_subnode(n, s)`. -/
def forEachLoop (fuel : ℕ) (m : ByteMem) : ℕ → ℤ → Option (List ℤ)
  | 0, _ => none
  | n + 1, s =>
    if s = errNotfound then some []
    else
      match fdtNextSubnode fuel m s with
      | none => none
      | some s' => (forEachLoop fuel m n s').map (s :: ·)

/-- `dt_for_each_subnode` of `lib/devicetree.h`. -/
def dtForEachSubnode (fuel : ℕ) (m : ByteMem) (n : ℤ) : Option (List ℤ) :=
  match fdtFirstSubnode fuel m n with
  | none => none
  | some s => forEachLoop fuel m fuel s

/-- The loop of `fdt_supernode_atdepth_offset` : what is returned, and `*nodedepth` if it is
set. -/
def supernodeLoop (fuel : ℕ) (m : ByteMem) (nodeoffset supernodedepth : ℤ) :
    ℕ → ℤ → ℤ → ℤ → Option (ℤ × Option ℤ)
  | 0, _, _, _ => none
  | n + 1, offset, depth, supernodeoffset =>
    if 0 ≤ offset ∧ offset ≤ nodeoffset then
      let supernodeoffset := if depth = supernodedepth then offset else supernodeoffset
      if offset = nodeoffset then
        some (if depth < supernodedepth then errNotfound else supernodeoffset, some depth)
      else
        match fdtNextNode fuel m offset (some depth) with
        | some (offset, some depth) =>
          supernodeLoop fuel m nodeoffset supernodedepth n offset depth supernodeoffset
        | _ => none
    else if offset = errNotfound ∨ 0 ≤ offset then some (errBadoffset, none)
    else if offset = errBadoffset then some (errBadstructure, none)
    else some (offset, none)

/-- `fdt_supernode_atdepth_offset`. -/
def fdtSupernodeAtdepthOffset (fuel : ℕ) (m : ByteMem) (nodeoffset supernodedepth : ℤ) :
    Option (ℤ × Option ℤ) :=
  if fdtCheckHeader m ≠ 0 then some (fdtCheckHeader m, none)
  else if supernodedepth < 0 then some (errNotfound, none)
  else supernodeLoop fuel m nodeoffset supernodedepth fuel 0 0 errInternal

/-- `fdt_node_depth`. -/
def fdtNodeDepth (fuel : ℕ) (m : ByteMem) (nodeoffset : ℤ) : Option ℤ :=
  match fdtSupernodeAtdepthOffset fuel m nodeoffset 0 with
  | some (err, nodedepth) =>
    if err ≠ 0 then some (if err < 0 then err else errInternal) else nodedepth
  | none => none

/-- `fdt_parent_offset`. -/
def fdtParentOffset (fuel : ℕ) (m : ByteMem) (nodeoffset : ℤ) : Option ℤ :=
  match fdtNodeDepth fuel m nodeoffset with
  | some nodedepth =>
    if nodedepth < 0 then some nodedepth
    else (fdtSupernodeAtdepthOffset fuel m nodeoffset (nodedepth - 1)).map Prod.fst
  | none => none

namespace Blob

variable {m : ByteMem} {b : Blob m} {fuel : ℕ}

/-! ## Subnodes -/

/-- The offset of a node that is found, or that there is none. -/
def answer (b : Blob m) : Option ℕ → ℤ
  | some i => b.offset i
  | none => errNotfound

theorem offset_nonneg {i : ℕ} (hi : i < b.nodes.length) : 0 ≤ b.offset i := by
  obtain ⟨o, x, hget⟩ := exists_node hi
  obtain ⟨name, ts, hnode⟩ := b.exists_nodeAt hget
  rw [offset_eq hget]
  exact hnode.nonneg

theorem length_nodesFrom_le (str : BitVec 32 → List (BitVec 8)) (D : ℕ) (o : ℤ)
    (ts : List Token) : (nodesFrom str D o ts).length ≤ ts.length := by
  induction ts generalizing D o with
  | nil => simp [nodesFrom]
  | cons t ts ih =>
    cases t with
    | beginNode name => exact Nat.succ_le_succ (ih _ _)
    | _ => exact (ih _ _).trans (Nat.le_succ _)

theorem length_lt_fuel (he : Enough m fuel) : b.nodes.length < fuel := by
  have hlen := length_nodesFrom_le b.str 0 0 (.beginNode b.name :: b.body)
  have hsizes := length_le_sizes (.beginNode b.name :: b.body)
  have hfuel := he.struct
  rw [b.size] at hfuel
  rw [List.length_cons] at hlen hsizes
  unfold nodes
  omega

/-- No level is jumped over. -/
theorem depth_succ_le {i : ℕ} (hi : i + 1 < b.nodes.length) :
    depthAt b.tree.nodes (i + 1) ≤ depthAt b.tree.nodes i + 1 :=
  b.tree.descends i (by rwa [length_tree])

/-- `fdt_first_subnode`. -/
theorem fdtFirstSubnode_eq {i : ℕ} (hi : i < b.nodes.length) (he : Enough m fuel) :
    Libfdt.fdtFirstSubnode fuel m (b.offset i) = some (b.answer (b.tree.fdtFirstSubnode i)) := by
  unfold Libfdt.fdtFirstSubnode Fdt.fdtFirstSubnode firstChild
  rw [length_tree]
  split_ifs with h
  · have hpos := offset_nonneg h.1
    rw [next_found hi he le_rfl h.1 (by omega)]
    dsimp only
    rw [if_neg (by omega)]
    rfl
  · obtain ⟨o, -, hout⟩ := next_out hi he le_rfl (fun hnext => by
      have hle := depth_succ_le hnext
      omega) (fun _ => by omega)
    rw [hout]
    exact congrArg some (if_pos (Or.inr (by decide)))

section NextSubnode

variable {s j k : ℕ}

/-- The loop of `fdt_next_subnode`, below the node that it has started at. -/
theorem nextSubnodeLoop_eq (he : Enough m fuel) (hsj : s ≤ j) (hj : j < b.nodes.length)
    (hbelow : ∀ k, s < k → k ≤ j → depthAt b.tree.nodes s < depthAt b.tree.nodes k)
    (hk : b.nodes.length - j ≤ k) :
    nextSubnodeLoop fuel m k (b.offset j)
        (1 + depthAt b.tree.nodes j - depthAt b.tree.nodes s) =
      some (b.answer (nextSibling (depthAt b.tree.nodes) b.nodes.length s)) := by
  induction k generalizing j with
  | zero => omega
  | succ k ih =>
    have hle : depthAt b.tree.nodes s ≤ depthAt b.tree.nodes j := depth_le_of_below hsj hbelow
    have hdepth : (0 : ℤ) ≤ 1 + depthAt b.tree.nodes j - depthAt b.tree.nodes s := by omega
    -- Before the node `j + 1`, none is met that is no deeper than `s`.
    have hskip : ∀ i, s + 1 ≤ i → i < j + 1 →
        decide (depthAt b.tree.nodes i ≤ depthAt b.tree.nodes s) = false :=
      fun i h₁ h₂ => decide_eq_false (not_le.mpr (hbelow i h₁ (by omega)))
    have hfirst : ∀ hnext : j + 1 < b.nodes.length,
        depthAt b.tree.nodes (j + 1) ≤ depthAt b.tree.nodes s →
          firstIn (fun m => decide (depthAt b.tree.nodes m ≤ depthAt b.tree.nodes s)) (s + 1)
            b.nodes.length = some (j + 1) := fun hnext hd =>
      firstIn_eq_some_iff.mpr ⟨by omega, hnext, decide_eq_true hd, hskip⟩
    unfold nextSubnodeLoop
    by_cases hnext : j + 1 < b.nodes.length
    · rcases lt_trichotomy (depthAt b.tree.nodes (j + 1)) (depthAt b.tree.nodes s) with hd | hd | hd
      · -- The loop comes out of the parent.
        obtain ⟨o, -, hout⟩ := next_out hj he hdepth (fun _ => by omega) fun h => by omega
        rw [hout, nextSibling, hfirst hnext hd.le, Option.filter_some,
          if_neg (by simpa using hd.ne)]
        exact if_pos (Or.inr (by decide))
      · rw [next_found hj he hdepth hnext (by omega), nextSibling, hfirst hnext hd.le,
          Option.filter_some, if_pos (by simpa using hd)]
        have hpos := offset_nonneg hnext
        dsimp only
        rw [if_neg (by omega), if_neg (by omega)]
        rfl
      · rw [next_found hj he hdepth hnext (by omega)]
        have hpos := offset_nonneg hnext
        dsimp only
        rw [if_neg (by omega), if_pos (by omega), show 1 + (depthAt b.tree.nodes j : ℤ) -
          depthAt b.tree.nodes s + depthAt b.tree.nodes (j + 1) - depthAt b.tree.nodes j =
            1 + depthAt b.tree.nodes (j + 1) - depthAt b.tree.nodes s by ring]
        exact ih (by omega) hnext (below_succ hbelow hd) (by omega)
    · have hfin : firstIn (fun m => decide (depthAt b.tree.nodes m ≤ depthAt b.tree.nodes s))
          (s + 1) b.nodes.length = none :=
        firstIn_eq_none_iff.mpr fun i h₁ h₂ => hskip i h₁ (by omega)
      rw [nextSibling, hfin]
      by_cases hd : depthAt b.tree.nodes s = 0
      · rw [next_last hj he hdepth (by omega) (by omega)]
        exact if_pos (Or.inl (by decide))
      · obtain ⟨o, -, hout⟩ := next_out hj he hdepth (fun h => absurd h hnext) fun _ => by omega
        rw [hout]
        exact if_pos (Or.inr (by decide))

/-- `fdt_next_subnode`. -/
theorem fdtNextSubnode_eq (hs : s < b.nodes.length) (he : Enough m fuel) :
    Libfdt.fdtNextSubnode fuel m (b.offset s) = some (b.answer (b.tree.fdtNextSubnode s)) := by
  have hloop := nextSubnodeLoop_eq he le_rfl hs (fun k h₁ h₂ => absurd h₁ (not_lt.mpr h₂))
    ((Nat.sub_le _ _).trans (length_lt_fuel he).le)
  rwa [add_sub_cancel_right, ← length_tree] at hloop

/-- The loop over subnodes, from a node on. -/
theorem forEachLoop_eq (he : Enough m fuel) {o : Option ℕ} (ho : ∀ i ∈ o, i < b.nodes.length)
    (hk : ∀ i ∈ o, b.nodes.length - i < k) (hk' : 0 < k) :
    forEachLoop fuel m k (b.answer o) =
      some ((visited b.tree.fdtNextSubnode k o).map b.offset) := by
  induction k generalizing o with
  | zero => omega
  | succ k ih =>
    cases o with
    | none => rfl
    | some i =>
      have hi := ho i rfl
      have hpos := offset_nonneg hi
      have hnext : ∀ j ∈ b.tree.fdtNextSubnode i, i < j ∧ j < b.nodes.length := by
        intro j hj
        rw [Fdt.fdtNextSubnode, nextSibling, Option.mem_def, Option.filter_eq_some_iff,
          length_tree, firstIn_eq_some_iff] at hj
        exact ⟨hj.1.1, hj.1.2.1⟩
      unfold forEachLoop
      rw [show b.answer (some i) = b.offset i from rfl, if_neg (by unfold errNotfound; omega),
        fdtNextSubnode_eq hi he]
      have hlt := hk i rfl
      have hk'' : ∀ j ∈ b.tree.fdtNextSubnode i, b.nodes.length - j < k := by
        intro j hj
        have := hnext j hj
        omega
      dsimp only
      rw [ih (fun j hj => (hnext j hj).2) hk'' (by omega)]
      rfl

end NextSubnode

/-- `dt_for_each_subnode` visits the children, each once and in the order of the blob. -/
theorem dtForEachSubnode_children {i : ℕ} (hi : i < b.nodes.length) (he : Enough m fuel) :
    Libfdt.dtForEachSubnode fuel m (b.offset i) = some ((b.tree.children i).map b.offset) := by
  have hfuel := length_lt_fuel (b := b) he
  have hchild : ∀ j ∈ b.tree.fdtFirstSubnode i, j < b.nodes.length := by
    intro j hj
    rw [Fdt.fdtFirstSubnode, firstChild, length_tree] at hj
    split_ifs at hj with h
    · obtain rfl := Option.some.inj hj
      exact h.1
    · exact absurd hj (by simp)
  have hvisited : visited b.tree.fdtNextSubnode fuel (b.tree.fdtFirstSubnode i) =
      b.tree.children i := by
    have hfirst := firstChild_eq (n := i) b.tree.descends
    have hnext : ∀ s, s < b.tree.nodes.length →
        (parentIn (depthAt b.tree.nodes) s == some i) = true → b.tree.fdtNextSubnode s =
          firstIn (fun m => parentIn (depthAt b.tree.nodes) m == some i) (s + 1)
            b.tree.nodes.length :=
      fun s hs hp => nextSibling_eq b.tree.descends hs (beq_iff_eq.mp hp)
    rw [Fdt.fdtFirstSubnode, hfirst, visited_firstIn hnext fuel 0 (by rw [length_tree]; omega),
      Fdt.children, List.range_eq_range']
    rfl
  have hloop := forEachLoop_eq (k := fuel) he hchild (fun j hj => by omega) (by omega)
  rw [Libfdt.dtForEachSubnode, fdtFirstSubnode_eq hi he]
  rwa [hvisited] at hloop

/-- The subnodes of the root of a blob. -/
theorem dtForEachSubnode_sample :
    Libfdt.dtForEachSubnode 64 sample (sampleBlob.offset 0) =
      some ((sampleBlob.tree.children 0).map sampleBlob.offset) :=
  dtForEachSubnode_children (by decide) ⟨by decide, by decide⟩

/-! ## The parent -/

/-- What a call returns for an abstract result. -/
def result (b : Blob m) : Except DtFail ℕ → ℤ
  | .ok i => b.offset i
  | .error (.code c) => c
  | .error .outside => errInternal

theorem depth_pos_of_shaped {str : BitVec 32 → List (BitVec 8)} {D : ℕ} {ts : List Token}
    (hshape : Shaped D ts) {o : ℤ} : ∀ y ∈ nodesFrom str D o ts, 0 < y.2.depth := by
  induction hshape generalizing o with
  | fin => simp [nodesFrom]
  | begin _ ih =>
    intro y hy
    rcases List.mem_cons.mp hy with rfl | hy
    · exact Nat.succ_pos _
    · exact ih y hy
  | close _ ih => exact ih
  | prop _ ih => exact ih
  | nop _ ih => exact ih

/-- Only the root is not inside another node. -/
theorem depth_pos {i : ℕ} (h₀ : 0 < i) (hi : i < b.nodes.length) :
    0 < depthAt b.tree.nodes i := by
  obtain ⟨o, x, hget⟩ := exists_node hi
  obtain ⟨i, rfl⟩ := Nat.exists_eq_add_one_of_ne_zero h₀.ne'
  rw [depthAt_tree hget]
  rw [nodes_eq, List.getElem?_cons_succ] at hget
  exact depth_pos_of_shaped b.shaped _ (List.mem_of_getElem? hget)

theorem nodes_pos : 0 < b.nodes.length :=
  Nat.succ_pos _

theorem offset_root : b.offset 0 = 0 :=
  rfl

/-- Before a node, every level above its own is met. -/
theorem exists_depth {i s : ℕ} (hi : i < b.nodes.length) (hs : s < depthAt b.tree.nodes i) :
    ∃ k, k < i ∧ depthAt b.tree.nodes k = s := by
  induction i with
  | zero => exact absurd hs (Nat.not_lt_zero s)
  | succ i ih =>
    have hle := depth_succ_le hi
    rcases (Nat.lt_succ_iff.mp (hs.trans_le hle)).eq_or_lt with rfl | hlt
    · exact ⟨i, Nat.lt_succ_self i, rfl⟩
    · obtain ⟨k, hk, hd⟩ := ih (by omega) hlt
      exact ⟨k, by omega, hd⟩

theorem fdtCheckHeader_eq (b : Blob m) : fdtCheckHeader m = 0 := by
  rw [fdtCheckHeader, if_pos b.magic, if_neg (by rw [b.version]; decide),
    if_neg (not_lt.mpr b.lastComp)]

/-- The last node up to `i` on the level `s`. -/
def superAnswer (b : Blob m) (s i : ℕ) : ℤ :=
  (lastBelow (fun k => depthAt b.tree.nodes k == s) i).elim errInternal b.offset

/-- The loop of `fdt_supernode_atdepth_offset`, up to the node that is asked for. -/
theorem supernodeLoop_eq (he : Enough m fuel) {i j k s : ℕ} (hji : j ≤ i) (hi : i < b.nodes.length)
    (hk : i - j < k) :
    supernodeLoop fuel m (b.offset i) s k (b.offset j) (depthAt b.tree.nodes j)
        (b.superAnswer s j) =
      some (if depthAt b.tree.nodes i < s then errNotfound else b.superAnswer s (i + 1),
        some (depthAt b.tree.nodes i : ℤ)) := by
  induction k generalizing j with
  | zero => omega
  | succ k ih =>
    have hstep : (if (depthAt b.tree.nodes j : ℤ) = s then b.offset j else b.superAnswer s j) =
        b.superAnswer s (j + 1) := by
      unfold superAnswer
      rw [lastBelow]
      split_ifs with h₁ h₂ h₂
      · rfl
      · exact absurd (by simpa using h₁) h₂
      · exact absurd (by exact_mod_cast (beq_iff_eq.mp h₂)) h₁
      · rfl
    unfold supernodeLoop
    rcases hji.eq_or_lt with rfl | hlt
    · rw [if_pos ⟨offset_nonneg hi, le_rfl⟩]
      dsimp only
      rw [hstep, if_pos rfl]
      simp only [Nat.cast_lt]
    · have hoff := offset_lt hlt hi
      rw [if_pos ⟨offset_nonneg (hlt.trans hi), hoff.le⟩]
      dsimp only
      have hpos : 0 < depthAt b.tree.nodes (j + 1) := depth_pos (by omega) (by omega)
      rw [hstep, if_neg hoff.ne, next_found (hlt.trans hi) he (Int.natCast_nonneg _) (by omega)
        (by omega), add_sub_cancel_left]
      exact ih hlt (by omega)

/-- `fdt_supernode_atdepth_offset`. -/
theorem fdtSupernodeAtdepthOffset_eq {i : ℕ} (hi : i < b.nodes.length) (he : Enough m fuel)
    (s : ℕ) : fdtSupernodeAtdepthOffset fuel m (b.offset i) s =
      some (if depthAt b.tree.nodes i < s then errNotfound else b.superAnswer s (i + 1),
        some (depthAt b.tree.nodes i : ℤ)) := by
  have hfuel := length_lt_fuel (b := b) he
  rw [fdtSupernodeAtdepthOffset, if_neg (not_not.mpr b.fdtCheckHeader_eq), if_neg (by omega)]
  exact supernodeLoop_eq he (Nat.zero_le i) hi (by omega)

/-- `fdt_node_depth`. -/
theorem fdtNodeDepth_eq {i : ℕ} (hi : i < b.nodes.length) (he : Enough m fuel) :
    fdtNodeDepth fuel m (b.offset i) = some (depthAt b.tree.nodes i : ℤ) := by
  have hroot : lastBelow (fun k => depthAt b.tree.nodes k == 0) (i + 1) = some 0 := by
    refine lastBelow_eq_some_iff.mpr ⟨Nat.succ_pos i, rfl, fun j h₀ hj => ?_⟩
    have hpos : 0 < depthAt b.tree.nodes j := depth_pos h₀ (by omega)
    exact beq_false_of_ne hpos.ne'
  have hzero : b.superAnswer 0 (i + 1) = 0 := by
    rw [superAnswer, hroot]
    rfl
  have hsuper := fdtSupernodeAtdepthOffset_eq hi he 0
  rw [if_neg (Nat.not_lt_zero _), hzero] at hsuper
  unfold fdtNodeDepth
  rw [show (0 : ℤ) = ((0 : ℕ) : ℤ) from rfl, hsuper]
  rfl

/-- `fdt_parent_offset`. -/
theorem fdtParentOffset_eq {i : ℕ} (hi : i < b.nodes.length) (he : Enough m fuel) :
    Libfdt.fdtParentOffset fuel m (b.offset i) = some (b.result (b.tree.fdtParentOffset i)) := by
  unfold Libfdt.fdtParentOffset
  rw [fdtNodeDepth_eq hi he, Fdt.fdtParentOffset, length_tree, if_pos hi, parentIn]
  dsimp only
  rw [if_neg (not_lt.mpr (Int.natCast_nonneg _))]
  rcases hd : depthAt b.tree.nodes i with _ | s
  · -- The root.
    have hnone : lastBelow (fun k => depthAt b.tree.nodes k + 1 == 0) i = none :=
      lastBelow_eq_none_iff.mpr fun j _ => beq_false_of_ne (Nat.succ_ne_zero _)
    rw [hnone, fdtSupernodeAtdepthOffset, if_neg (not_not.mpr b.fdtCheckHeader_eq),
      if_pos (by decide)]
    rfl
  · rw [show (((s + 1 : ℕ) : ℤ) - 1) = (s : ℤ) by push_cast; ring,
      fdtSupernodeAtdepthOffset_eq hi he s, if_neg (by omega), superAnswer, lastBelow,
      if_neg (by simp [hd])]
    have hsame : (fun k => depthAt b.tree.nodes k + 1 == s + 1) =
        fun k => depthAt b.tree.nodes k == s := by
      funext k
      simp
    obtain ⟨k, hk, hdk⟩ := exists_depth hi (show s < depthAt b.tree.nodes i by omega)
    rw [hsame]
    cases hlast : lastBelow (fun k => depthAt b.tree.nodes k == s) i with
    | some k => rfl
    | none => exact absurd hdk (by simpa using lastBelow_eq_none_iff.mp hlast k hk)

/-- The parent of the subnode of a blob. -/
theorem fdtParentOffset_sample :
    Libfdt.fdtParentOffset 64 sample (sampleBlob.offset 1) =
      some (sampleBlob.result (sampleBlob.tree.fdtParentOffset 1)) :=
  fdtParentOffset_eq (by decide) ⟨by decide, by decide⟩

end Blob

end Libfdt

end AcrnUt
