import AcrnUt.FdtStruct
import AcrnUt.Fdt

/-!
# The nodes of a device tree blob

The nodes of a structure block, in the order in which they begin, with their offsets, are the
abstract tree of `Fdt` (`Libfdt.Blob.tree`). `fdt_next_node` goes from the offset of a node to
that of the next one and counts the levels, or comes out of the node it has started at, or to the
end of the tree (`Libfdt.Blob.fdtNextNode_eq`).
-/

set_option linter.unusedSectionVars false

namespace AcrnUt

namespace Libfdt

/-! ## Blobs -/

/-- The characters of a string. -/
def chars (l : List (BitVec 8)) : String :=
  String.ofList (l.map fun b => Char.ofNat b.toNat)

/-- The properties at the beginning of the tokens that follow the beginning of a node. -/
def leadProps (str : BitVec 32 → List (BitVec 8)) : List Token → List DtProp
  | .prop nameoff data :: ts => ⟨chars (str nameoff), data⟩ :: leadProps str ts
  | .nop :: ts => leadProps str ts
  | _ => []

/-- The nodes that begin in the tokens from the offset `o` on, where `d` nodes are open. -/
def nodesFrom (str : BitVec 32 → List (BitVec 8)) : ℕ → ℤ → List Token → List (ℤ × DtNode)
  | _, _, [] => []
  | d, o, .beginNode name :: ts =>
    (o, ⟨d, chars name, leadProps str ts⟩) ::
      nodesFrom str (d + 1) (o + (Token.beginNode name).size) ts
  | d, o, .endNode :: ts => nodesFrom str (d - 1) (o + Token.endNode.size) ts
  | d, o, t :: ts => nodesFrom str d (o + t.size) ts

/-- The properties at the beginning of the tokens from the offset `o` on, with their offsets. -/
def propsFrom (str : BitVec 32 → List (BitVec 8)) : ℤ → List Token → List (ℤ × DtProp)
  | o, .prop nameoff data :: ts =>
    (o, ⟨chars (str nameoff), data⟩) :: propsFrom str (o + (Token.prop nameoff data).size) ts
  | o, .nop :: ts => propsFrom str (o + Token.nop.size) ts
  | _, _ => []

/-- The properties of each node that begins in the tokens from the offset `o` on. -/
def nodeProps (str : BitVec 32 → List (BitVec 8)) : ℤ → List Token → List (List (ℤ × DtProp))
  | _, [] => []
  | o, .beginNode name :: ts =>
    propsFrom str (o + (Token.beginNode name).size) ts ::
      nodeProps str (o + (Token.beginNode name).size) ts
  | o, t :: ts => nodeProps str (o + t.size) ts

/-- A blob whose structure block consists of tokens, in the shape of a tree. -/
structure Blob (m : ByteMem) where
  name : List (BitVec 8)
  body : List Token
  str : BitVec 32 → List (BitVec 8)
  magic : fdtMagic m = Libfdt.magic
  version : fdtVersion m = 17
  lastComp : fdtLastCompVersion m ≤ 17
  small : fdtSizeDtStruct m < 2 ^ 31
  size : fdtSizeDtStruct m = sizes (.beginNode name :: body)
  tokens : StructAt m 0 (.beginNode name :: body)
  shaped : Shaped 1 body
  strings : ∀ nameoff data, .prop nameoff data ∈ body → 0 ∉ str nameoff ∧
    (str nameoff).length < fdtSizeDtStrings m ∧
    m.Holds (fdtOffDtStrings m + toInt nameoff.toNat) (str nameoff ++ [0])

/-- Enough fuel for every loop over the blob. -/
structure Enough (m : ByteMem) (fuel : ℕ) : Prop where
  struct : fdtSizeDtStruct m ≤ fuel
  strings : fdtSizeDtStrings m ≤ fuel

/-! ## Stepping from node to node -/

theorem sizes_cons (t : Token) (ts : List Token) : sizes (t :: ts) = t.size + sizes ts := by
  simp [sizes]

/-- The answer of `fdt_next_node` while `D` nodes are open and `nodes` are still to come : the
next node, an offset behind the node it has started at, or the end. -/
inductive NextNode (nodes : List (ℤ × DtNode)) (D : ℕ) (depth : ℤ) : ℤ × Option ℤ → Prop
  | found {o : ℤ} {x : DtNode} : nodes.head? = some (o, x) → D ≤ depth + x.depth →
      NextNode nodes D depth (o, some (depth + x.depth + 1 - D))
  | out {o : ℤ} : 0 ≤ o → (∀ y ∈ nodes.head?, depth + y.2.depth < D) →
      (nodes = [] → depth < D) → NextNode nodes D depth (o, some (-1))
  | last : nodes = [] → D ≤ depth → NextNode nodes D depth (errNotfound, some (depth - D))

section Loop

variable {m : ByteMem} {str : BitVec 32 → List (BitVec 8)} {fuel D : ℕ} {ts : List Token} {o : ℤ}

/-- The next node that begins is at most as deep as the nodes that are open. -/
theorem depth_head_le (hshape : Shaped D ts) :
    ∀ y ∈ (nodesFrom str D o ts).head?, y.2.depth ≤ D := by
  induction hshape generalizing o with
  | fin => simp [nodesFrom]
  | begin => simp [nodesFrom]
  | close _ ih => exact fun y hy => (ih y hy).trans (Nat.le_succ _)
  | prop _ ih => exact ih
  | nop _ ih => exact ih

/-- Where the tokens from `o` on end inside the block, the first is stepped over. -/
theorem step_cons {t : Token} (hat : StructAt m o (t :: ts)) (ho : 0 ≤ o) (halign : o % 4 = 0)
    (hsize : o + sizes (t :: ts) ≤ fdtSizeDtStruct m) (hsmall : fdtSizeDtStruct m < 2 ^ 31)
    (hfuel : fdtSizeDtStruct m ≤ fuel) :
    fdtNextTag fuel m o = some (t.tag, o + t.size) ∧ StructAt m (o + t.size) ts ∧ 0 ≤ o + t.size ∧
      (o + t.size) % 4 = 0 ∧ o + t.size + sizes ts ≤ fdtSizeDtStruct m := by
  rw [sizes_cons] at hsize
  push_cast at hsize
  have hmod := t.size_mod
  exact ⟨fdtNextTag_eq hat.1 ho halign (by omega) hsmall hfuel, hat.2, by omega, by omega,
    by omega⟩

/-! The turns of the loop of `fdt_next_node`. -/

section Turn

variable {n : ℤ} {k : ℕ} {depth : Option ℤ}

theorem loop_begin (h : fdtNextTag fuel m o = some (beginNode, n)) :
    nextNodeLoop fuel m (k + 1) o depth = some (o, depth.map (· + 1)) := by
  unfold nextNodeLoop
  rw [h]
  rfl

theorem loop_end (h : fdtNextTag fuel m o = some (endNode, n)) (d : ℤ) :
    nextNodeLoop fuel m (k + 1) o (some d) =
      if d - 1 < 0 then some (n, some (d - 1)) else nextNodeLoop fuel m k n (some (d - 1)) := by
  rw [nextNodeLoop, h]
  rfl

theorem loop_end_none (h : fdtNextTag fuel m o = some (endNode, n)) :
    nextNodeLoop fuel m (k + 1) o none = nextNodeLoop fuel m k n none := by
  rw [nextNodeLoop, h]
  rfl

theorem loop_fin (h : fdtNextTag fuel m o = some (fin, n)) (hn : 0 ≤ n) :
    nextNodeLoop fuel m (k + 1) o depth = some (errNotfound, depth) := by
  unfold nextNodeLoop
  rw [h]
  exact if_pos (Or.inl hn)

theorem loop_skip {tag : BitVec 32} (htag : tag = prop ∨ tag = nop)
    (h : fdtNextTag fuel m o = some (tag, n)) :
    nextNodeLoop fuel m (k + 1) o depth = nextNodeLoop fuel m k n depth := by
  rw [nextNodeLoop.eq_def]
  dsimp only
  rw [h]
  rcases htag with rfl | rfl <;> rfl

end Turn

/-- The loop of `fdt_next_node`, from a place between tokens on. -/
theorem nextNodeLoop_eq (hshape : Shaped D ts) (hat : StructAt m o ts) (ho : 0 ≤ o)
    (halign : o % 4 = 0) (hsize : o + sizes ts ≤ fdtSizeDtStruct m)
    (hsmall : fdtSizeDtStruct m < 2 ^ 31) (hfuel : fdtSizeDtStruct m ≤ fuel) {k : ℕ}
    (hk : ts.length ≤ k) {depth : ℤ} (hdepth : 0 ≤ depth) :
    ∃ r, nextNodeLoop fuel m k o (some depth) = some r ∧
      NextNode (nodesFrom str D o ts) D depth r := by
  induction hshape generalizing o k depth with
  | fin =>
    obtain ⟨k, rfl⟩ := Nat.exists_eq_add_one_of_ne_zero (Nat.ne_of_gt hk)
    obtain ⟨htag, -, hn, -⟩ := step_cons hat ho halign hsize hsmall hfuel
    refine ⟨_, loop_fin htag hn, ?_⟩
    have hlast : NextNode (nodesFrom str 0 o [.fin]) 0 depth _ := .last rfl hdepth
    simpa using hlast
  | @begin d name ts hs ih =>
    obtain ⟨k, rfl⟩ := Nat.exists_eq_add_one_of_ne_zero (Nat.ne_of_gt (Nat.zero_lt_of_lt hk))
    obtain ⟨htag, -⟩ := step_cons hat ho halign hsize hsmall hfuel
    refine ⟨_, loop_begin htag, ?_⟩
    have hfound : NextNode (nodesFrom str (d + 1) o (.beginNode name :: ts)) (d + 1) depth _ :=
      .found rfl (by simpa)
    rwa [show depth + ((d + 1 : ℕ) : ℤ) + 1 - ((d + 1 : ℕ) : ℤ) = depth + 1 by ring] at hfound
  | @close d ts hs ih =>
    obtain ⟨k, rfl⟩ := Nat.exists_eq_add_one_of_ne_zero (Nat.ne_of_gt (Nat.zero_lt_of_lt hk))
    obtain ⟨htag, hat', hn, hmod, hsize'⟩ := step_cons hat ho halign hsize hsmall hfuel
    rw [loop_end htag]
    split
    · obtain rfl : depth = 0 := by omega
      refine ⟨_, rfl, .out hn (fun y hy => ?_) fun _ => by push_cast; omega⟩
      have hle := depth_head_le hs y hy
      push_cast
      omega
    · obtain ⟨r, hr, hnext⟩ := ih hat' hn hmod hsize' (by simpa using hk)
        (show 0 ≤ depth - 1 by omega)
      refine ⟨r, hr, ?_⟩
      cases hnext with
      | @found a x hhead hle =>
        have hfound : NextNode (nodesFrom str (d + 1) o (.endNode :: ts)) (d + 1) depth _ :=
          .found hhead (by push_cast; omega)
        convert hfound using 3
        push_cast
        omega
      | out ha hhead hnil =>
        exact .out ha (fun y hy => by have := hhead y hy; push_cast; omega)
          fun h => by have := hnil h; push_cast; omega
      | last hnil hle =>
        have hlast : NextNode (nodesFrom str (d + 1) o (.endNode :: ts)) (d + 1) depth _ :=
          .last hnil (by push_cast; omega)
        convert hlast using 3
        push_cast
        omega
  | prop hs ih =>
    obtain ⟨k, rfl⟩ := Nat.exists_eq_add_one_of_ne_zero (Nat.ne_of_gt (Nat.zero_lt_of_lt hk))
    obtain ⟨htag, hat', hn, hmod, hsize'⟩ := step_cons hat ho halign hsize hsmall hfuel
    rw [loop_skip (Or.inl rfl) htag]
    exact ih hat' hn hmod hsize' (by simpa using hk) hdepth
  | nop hs ih =>
    obtain ⟨k, rfl⟩ := Nat.exists_eq_add_one_of_ne_zero (Nat.ne_of_gt (Nat.zero_lt_of_lt hk))
    obtain ⟨htag, hat', hn, hmod, hsize'⟩ := step_cons hat ho halign hsize hsmall hfuel
    rw [loop_skip (Or.inr rfl) htag]
    exact ih hat' hn hmod hsize' (by simpa using hk) hdepth

/-- Without a depth, the loop stops at the next node or at the end. -/
theorem nextNodeLoop_none (hshape : Shaped D ts) (hat : StructAt m o ts) (ho : 0 ≤ o)
    (halign : o % 4 = 0) (hsize : o + sizes ts ≤ fdtSizeDtStruct m)
    (hsmall : fdtSizeDtStruct m < 2 ^ 31) (hfuel : fdtSizeDtStruct m ≤ fuel) {k : ℕ}
    (hk : ts.length ≤ k) :
    nextNodeLoop fuel m k o none =
      some (((nodesFrom str D o ts).head?.map Prod.fst).getD errNotfound, none) := by
  induction hshape generalizing o k with
  | fin =>
    obtain ⟨k, rfl⟩ := Nat.exists_eq_add_one_of_ne_zero (Nat.ne_of_gt hk)
    obtain ⟨htag, -, hn, -⟩ := step_cons hat ho halign hsize hsmall hfuel
    exact loop_fin htag hn
  | begin hs ih =>
    obtain ⟨k, rfl⟩ := Nat.exists_eq_add_one_of_ne_zero (Nat.ne_of_gt (Nat.zero_lt_of_lt hk))
    exact loop_begin (step_cons hat ho halign hsize hsmall hfuel).1
  | close hs ih =>
    obtain ⟨k, rfl⟩ := Nat.exists_eq_add_one_of_ne_zero (Nat.ne_of_gt (Nat.zero_lt_of_lt hk))
    obtain ⟨htag, hat', hn, hmod, hsize'⟩ := step_cons hat ho halign hsize hsmall hfuel
    rw [loop_end_none htag]
    exact ih hat' hn hmod hsize' (by simpa using hk)
  | prop hs ih =>
    obtain ⟨k, rfl⟩ := Nat.exists_eq_add_one_of_ne_zero (Nat.ne_of_gt (Nat.zero_lt_of_lt hk))
    obtain ⟨htag, hat', hn, hmod, hsize'⟩ := step_cons hat ho halign hsize hsmall hfuel
    rw [loop_skip (Or.inl rfl) htag]
    exact ih hat' hn hmod hsize' (by simpa using hk)
  | nop hs ih =>
    obtain ⟨k, rfl⟩ := Nat.exists_eq_add_one_of_ne_zero (Nat.ne_of_gt (Nat.zero_lt_of_lt hk))
    obtain ⟨htag, hat', hn, hmod, hsize'⟩ := step_cons hat ho halign hsize hsmall hfuel
    rw [loop_skip (Or.inr rfl) htag]
    exact ih hat' hn hmod hsize' (by simpa using hk)

end Loop

/-! ## The nodes of a blob -/

theorem length_le_sizes (ts : List Token) : 4 * ts.length ≤ sizes ts := by
  induction ts with
  | nil => simp
  | cons t ts ih =>
    have hfour := t.four_le_bytes.trans t.bytes_le_size
    rw [sizes_cons, List.length_cons]
    omega

theorem size_le_sizes {t : Token} {ts : List Token} (h : t ∈ ts) : t.size ≤ sizes ts :=
  List.single_le_sum (by simp) _ (List.mem_map_of_mem h)

theorem map_propsFrom (str : BitVec 32 → List (BitVec 8)) (o : ℤ) (ts : List Token) :
    (propsFrom str o ts).map Prod.snd = leadProps str ts := by
  induction ts generalizing o with
  | nil => rfl
  | cons t ts ih =>
    cases t with
    | prop nameoff data => exact congrArg (⟨chars (str nameoff), data⟩ :: ·) (ih _)
    | nop => exact ih _
    | _ => rfl

theorem prop_of_mem_leadProps {str : BitVec 32 → List (BitVec 8)} {ts : List Token} {p : DtProp}
    (h : p ∈ leadProps str ts) :
    ∃ nameoff data, .prop nameoff data ∈ ts ∧ p = ⟨chars (str nameoff), data⟩ := by
  induction ts with
  | nil => simp [leadProps] at h
  | cons t ts ih =>
    cases t with
    | prop nameoff data =>
      rcases List.mem_cons.mp h with rfl | h
      · exact ⟨nameoff, data, by simp, rfl⟩
      · obtain ⟨nameoff', data', hmem, hp⟩ := ih h
        exact ⟨nameoff', data', List.mem_cons_of_mem _ hmem, hp⟩
    | nop =>
      obtain ⟨nameoff', data', hmem, hp⟩ := ih h
      exact ⟨nameoff', data', List.mem_cons_of_mem _ hmem, hp⟩
    | _ => simp [leadProps] at h

namespace Blob

variable {m : ByteMem} (b : Blob m) {fuel : ℕ} {o : ℤ} {x : DtNode} {rest : List (ℤ × DtNode)}
  {name : List (BitVec 8)} {ts : List Token}

/-- The nodes with their offsets. -/
def nodes : List (ℤ × DtNode) :=
  nodesFrom b.str 0 0 (.beginNode b.name :: b.body)

/-- The offset of the node with a number. -/
def offset (i : ℕ) : ℤ :=
  (b.nodes[i]?.map Prod.fst).getD 0

/-- The properties of the node with a number, with their offsets. -/
def props (i : ℕ) : List (ℤ × DtProp) :=
  ((nodeProps b.str 0 (.beginNode b.name :: b.body))[i]?).getD []

/-- The tokens of the node `x` at `o` and of what comes behind it. -/
structure NodeAt (o : ℤ) (x : DtNode) (rest : List (ℤ × DtNode)) (name : List (BitVec 8))
    (ts : List Token) : Prop where
  tokens : StructAt m o (.beginNode name :: ts)
  shaped : Shaped (x.depth + 1) ts
  name_eq : x.name = chars name
  props : x.props = leadProps b.str ts
  rest : rest = nodesFrom b.str (x.depth + 1) (o + (Token.beginNode name).size) ts
  nonneg : 0 ≤ o
  aligned : o % 4 = 0
  inside : o + sizes (.beginNode name :: ts) ≤ fdtSizeDtStruct m
  body : ∀ t ∈ ts, t ∈ b.body

/-- Each node that begins behind a place between tokens has its own tokens. -/
theorem nodeAt_of_nodesFrom {D : ℕ} {ts : List Token} (hshape : Shaped D ts) {o a : ℤ}
    {pre : List (ℤ × DtNode)} (hat : StructAt m o ts) (ho : 0 ≤ o) (halign : o % 4 = 0)
    (hsize : o + sizes ts ≤ fdtSizeDtStruct m) (hbody : ∀ t ∈ ts, t ∈ b.body)
    (h : nodesFrom b.str D o ts = pre ++ (a, x) :: rest) :
    ∃ name ts', b.NodeAt a x rest name ts' ∧ (nodeProps b.str o ts)[pre.length]? =
      some (propsFrom b.str (a + (Token.beginNode name).size) ts') := by
  have hstep : ∀ {o : ℤ} {t : Token} {ts : List Token}, 0 ≤ o → o % 4 = 0 →
      o + sizes (t :: ts) ≤ fdtSizeDtStruct m → 0 ≤ o + t.size ∧ (o + t.size) % 4 = 0 ∧
        o + t.size + sizes ts ≤ fdtSizeDtStruct m := by
    intro o t ts ho halign hsize
    have hmod := t.size_mod
    rw [sizes_cons] at hsize
    push_cast at hsize
    omega
  have htail : ∀ {t : Token} {ts : List Token}, (∀ t' ∈ t :: ts, t' ∈ b.body) →
      ∀ t' ∈ ts, t' ∈ b.body := fun h t' ht' => h t' (List.mem_cons_of_mem _ ht')
  induction hshape generalizing o pre with
  | fin => simp [nodesFrom] at h
  | @begin d name ts hs ih =>
    obtain ⟨hn, hmod, hsize'⟩ := hstep ho halign hsize
    cases pre with
    | nil =>
      rw [nodesFrom, List.nil_append, List.cons.injEq, Prod.mk.injEq] at h
      obtain ⟨⟨rfl, rfl⟩, rfl⟩ := h
      exact ⟨name, ts, ⟨hat, hs, rfl, rfl, rfl, ho, halign, hsize, htail hbody⟩, rfl⟩
    | cons y pre =>
      rw [nodesFrom, List.cons_append, List.cons.injEq] at h
      exact ih hat.2 hn hmod hsize' (htail hbody) h.2
  | close hs ih =>
    obtain ⟨hn, hmod, hsize'⟩ := hstep ho halign hsize
    exact ih hat.2 hn hmod hsize' (htail hbody) h
  | prop hs ih =>
    obtain ⟨hn, hmod, hsize'⟩ := hstep ho halign hsize
    exact ih hat.2 hn hmod hsize' (htail hbody) h
  | nop hs ih =>
    obtain ⟨hn, hmod, hsize'⟩ := hstep ho halign hsize
    exact ih hat.2 hn hmod hsize' (htail hbody) h

theorem nodes_eq : b.nodes = (0, ⟨0, chars b.name, leadProps b.str b.body⟩) ::
    nodesFrom b.str 1 (0 + (Token.beginNode b.name).size) b.body :=
  rfl

/-- Each node has its own tokens, and its properties stand in them. -/
theorem exists_nodeAt_props {i : ℕ} (h : b.nodes[i]? = some (o, x)) :
    ∃ name ts, b.NodeAt o x (b.nodes.drop (i + 1)) name ts ∧
      b.props i = propsFrom b.str (o + (Token.beginNode name).size) ts := by
  have hsize : 0 + (sizes (.beginNode b.name :: b.body) : ℤ) ≤ fdtSizeDtStruct m := by
    rw [b.size, zero_add]
  cases i with
  | zero =>
    rw [nodes_eq, List.getElem?_cons_zero, Option.some.injEq, Prod.mk.injEq] at h
    obtain ⟨rfl, rfl⟩ := h
    exact ⟨b.name, b.body, ⟨b.tokens, b.shaped, rfl, rfl, rfl, le_rfl, rfl, hsize, fun _ h => h⟩,
      rfl⟩
  | succ i =>
    rw [nodes_eq, List.getElem?_cons_succ] at h
    have hmod := (Token.beginNode b.name).size_mod
    rw [sizes_cons] at hsize
    push_cast at hsize
    have hsplit : nodesFrom b.str 1 (0 + (Token.beginNode b.name).size) b.body =
        (nodesFrom b.str 1 (0 + (Token.beginNode b.name).size) b.body).take i ++
          (o, x) :: b.nodes.drop (i + 1 + 1) := by
      obtain ⟨hi, hget⟩ := List.getElem?_eq_some_iff.mp h
      rw [nodes_eq, List.drop_succ_cons, ← hget, List.getElem_cons_drop, List.take_append_drop]
    obtain ⟨name, ts, hnode, hprops⟩ := b.nodeAt_of_nodesFrom b.shaped b.tokens.2 (by omega)
      (by omega) (by omega) (fun _ h => h) hsplit
    refine ⟨name, ts, hnode, ?_⟩
    rw [List.length_take_of_le (List.getElem?_eq_some_iff.mp h).1.le] at hprops
    unfold props
    rw [nodeProps, List.getElem?_cons_succ, hprops]
    rfl

/-- Each node has its own tokens. -/
theorem exists_nodeAt {i : ℕ} (h : b.nodes[i]? = some (o, x)) :
    ∃ name ts, b.NodeAt o x (b.nodes.drop (i + 1)) name ts := by
  obtain ⟨name, ts, hnode, -⟩ := b.exists_nodeAt_props h
  exact ⟨name, ts, hnode⟩

/-! ### The abstract tree -/

/-- Offsets grow from node to node. -/
theorem pairwise_nodesFrom (str : BitVec 32 → List (BitVec 8)) (D : ℕ) (o : ℤ) (ts : List Token) :
    (nodesFrom str D o ts).Pairwise (fun y z => y.1 < z.1) ∧
      ∀ y ∈ nodesFrom str D o ts, o ≤ y.1 := by
  induction ts generalizing D o with
  | nil => simp [nodesFrom]
  | cons t ts ih =>
    have hgrow : o < o + t.size := by
      have hfour := t.four_le_bytes.trans t.bytes_le_size
      omega
    have htail : ∀ D', (nodesFrom str D' (o + t.size) ts).Pairwise (fun y z => y.1 < z.1) ∧
        ∀ y ∈ nodesFrom str D' (o + t.size) ts, o < y.1 := fun D' =>
      ⟨(ih D' (o + t.size)).1, fun y hy => hgrow.trans_le ((ih D' (o + t.size)).2 y hy)⟩
    cases t with
    | beginNode name =>
      obtain ⟨hpair, hlt⟩ := htail (D + 1)
      refine ⟨List.pairwise_cons.mpr ⟨fun y hy => hlt y hy, hpair⟩, fun y hy => ?_⟩
      rcases List.mem_cons.mp hy with rfl | hy
      · exact le_rfl
      · exact (hlt y hy).le
    | _ => exact ⟨(htail _).1, fun y hy => ((htail _).2 y hy).le⟩

variable {b}

theorem depthAt_nodes {i : ℕ} (h : b.nodes[i]? = some (o, x)) :
    depthAt (b.nodes.map Prod.snd) i = x.depth := by
  simp [depthAt, h]

/-- The value of a property fits into the block. -/
theorem NodeAt.length_lt (h : b.NodeAt o x rest name ts) {p : DtProp} (hp : p ∈ x.props) :
    p.data.length < 2 ^ 31 := by
  rw [h.props] at hp
  obtain ⟨nameoff, data, hmem, rfl⟩ := prop_of_mem_leadProps hp
  have hle := (Token.prop nameoff data).bytes_le_size.trans (size_le_sizes hmem)
  have hin := h.inside
  have hpos := h.nonneg
  have hsmall := b.small
  rw [sizes_cons] at hin
  rw [Token.bytes] at hle
  show data.length < 2 ^ 31
  omega

/-- The next node is at most one level below. -/
theorem NodeAt.head_depth (h : b.NodeAt o x rest name ts) :
    ∀ y ∈ rest.head?, y.2.depth ≤ x.depth + 1 :=
  h.rest ▸ depth_head_le h.shaped

variable (b)

/-- The abstract tree. -/
def tree : Fdt where
  nodes := b.nodes.map Prod.snd
  descends := by
    intro j hj
    rw [List.length_map] at hj
    have hget : b.nodes[j]? = some b.nodes[j] := List.getElem?_eq_getElem _
    have hnext : b.nodes[j + 1]? = some b.nodes[j + 1] := List.getElem?_eq_getElem hj
    obtain ⟨name, ts, hnode⟩ := b.exists_nodeAt hget
    rw [depthAt_nodes hget, depthAt_nodes hnext]
    exact hnode.head_depth _ (by rw [List.head?_drop, hnext]; rfl)
  sized := by
    intro x hx p hp
    obtain ⟨y, hy, rfl⟩ := List.mem_map.mp hx
    obtain ⟨i, hi⟩ := List.mem_iff_getElem?.mp hy
    obtain ⟨name, ts, hnode⟩ := b.exists_nodeAt hi
    exact hnode.length_lt hp

theorem length_tree : b.tree.nodes.length = b.nodes.length :=
  List.length_map _

variable {b}

theorem getElem?_tree {i : ℕ} (h : b.nodes[i]? = some (o, x)) : b.tree.nodes[i]? = some x := by
  simp [tree, h]

theorem offset_eq {i : ℕ} (h : b.nodes[i]? = some (o, x)) : b.offset i = o := by
  simp [offset, h]

theorem depthAt_tree {i : ℕ} (h : b.nodes[i]? = some (o, x)) :
    depthAt b.tree.nodes i = x.depth :=
  depthAt_nodes h

/-- Below the length, there is a node. -/
theorem exists_node {i : ℕ} (hi : i < b.nodes.length) :
    ∃ o x, b.nodes[i]? = some (o, x) :=
  ⟨_, _, List.getElem?_eq_getElem hi⟩

theorem offset_lt {i j : ℕ} (hij : i < j) (hj : j < b.nodes.length) : b.offset i < b.offset j := by
  have hpair := (pairwise_nodesFrom b.str 0 0 (.beginNode b.name :: b.body)).1
  have hlt := List.pairwise_iff_getElem.mp hpair i j (hij.trans hj) hj hij
  rw [offset_eq (List.getElem?_eq_getElem (hij.trans hj)), offset_eq (List.getElem?_eq_getElem hj)]
  exact hlt

/-! ### The next node -/

/-- The start of a node is checked, and its tokens follow. -/
theorem NodeAt.step (h : b.NodeAt o x rest name ts) (he : Enough m fuel) :
    fdtCheckNodeOffset fuel m o = some (o + (Token.beginNode name).size) ∧
      StructAt m (o + (Token.beginNode name).size) ts ∧
      0 ≤ o + ((Token.beginNode name).size : ℤ) ∧
      (o + ((Token.beginNode name).size : ℤ)) % 4 = 0 ∧
      o + (Token.beginNode name).size + sizes ts ≤ fdtSizeDtStruct m := by
  obtain ⟨htag, hrest⟩ := step_cons h.tokens h.nonneg h.aligned h.inside b.small he.struct
  refine ⟨?_, hrest⟩
  have hok : ¬ (o < 0 ∨ o % 4 ≠ 0) := by
    have hpos := h.nonneg
    have hmod := h.aligned
    omega
  rw [fdtCheckNodeOffset, if_neg hok, htag]
  rfl

theorem NodeAt.length_le (h : b.NodeAt o x rest name ts) (he : Enough m fuel) :
    ts.length ≤ fuel := by
  have hin := h.inside
  have hpos := h.nonneg
  have hlen := length_le_sizes ts
  have hfuel := he.struct
  rw [sizes_cons] at hin
  omega

/-- `fdt_next_node` from a node. -/
theorem NodeAt.fdtNextNode_eq (h : b.NodeAt o x rest name ts) (he : Enough m fuel) {depth : ℤ}
    (hdepth : 0 ≤ depth) :
    ∃ r, fdtNextNode fuel m o (some depth) = some r ∧ NextNode rest (x.depth + 1) depth r := by
  obtain ⟨hcheck, hat, hn, hmod, hsize⟩ := h.step he
  rw [fdtNextNode, if_pos h.nonneg, hcheck]
  dsimp only
  rw [if_neg (by omega), h.rest]
  exact nextNodeLoop_eq h.shaped hat hn hmod hsize b.small he.struct (h.length_le he) hdepth

/-- `fdt_next_node` from a node, without a depth. -/
theorem NodeAt.fdtNextNode_none (h : b.NodeAt o x rest name ts) (he : Enough m fuel) :
    fdtNextNode fuel m o none = some ((rest.head?.map Prod.fst).getD errNotfound, none) := by
  obtain ⟨hcheck, hat, hn, hmod, hsize⟩ := h.step he
  rw [fdtNextNode, if_pos h.nonneg, hcheck]
  dsimp only
  rw [if_neg (by omega), h.rest]
  exact nextNodeLoop_none h.shaped hat hn hmod hsize b.small he.struct (h.length_le he)

section Next

variable {i : ℕ} (hi : i < b.nodes.length) (he : Enough m fuel) {depth : ℤ} (hdepth : 0 ≤ depth)

include hi he hdepth

theorem exists_nextNode : ∃ r, fdtNextNode fuel m (b.offset i) (some depth) = some r ∧
    NextNode (b.nodes.drop (i + 1)) (depthAt b.tree.nodes i + 1) depth r := by
  obtain ⟨o, x, hget⟩ := exists_node hi
  obtain ⟨name, ts, hnode⟩ := b.exists_nodeAt hget
  rw [offset_eq hget, depthAt_tree hget]
  exact hnode.fdtNextNode_eq he hdepth

/-- `fdt_next_node` goes to the next node, and counts the levels. -/
theorem next_found (hnext : i + 1 < b.nodes.length)
    (h : depthAt b.tree.nodes i + 1 ≤ depth + depthAt b.tree.nodes (i + 1)) :
    fdtNextNode fuel m (b.offset i) (some depth) = some (b.offset (i + 1),
      some (depth + depthAt b.tree.nodes (i + 1) - depthAt b.tree.nodes i)) := by
  obtain ⟨r, hr, hcase⟩ := exists_nextNode hi he hdepth
  obtain ⟨o, x, hget⟩ := exists_node hnext
  have hhead : (b.nodes.drop (i + 1)).head? = some (o, x) := by rw [List.head?_drop, hget]
  rw [depthAt_tree hget] at h ⊢
  rw [hr, offset_eq hget]
  cases hcase with
  | found hhead' hle =>
    obtain ⟨rfl, rfl⟩ := Prod.mk.inj (Option.some.inj (hhead.symm.trans hhead'))
    congr 3
    push_cast
    ring
  | out _ hlt =>
    have := hlt (o, x) hhead
    push_cast at this
    omega
  | last hnil =>
    rw [hnil] at hhead
    simp at hhead

/-- It comes out of the node that it has started at. -/
theorem next_out
    (h : i + 1 < b.nodes.length → depth + depthAt b.tree.nodes (i + 1) < depthAt b.tree.nodes i + 1)
    (h' : i + 1 = b.nodes.length → depth < depthAt b.tree.nodes i + 1) :
    ∃ o, 0 ≤ o ∧ fdtNextNode fuel m (b.offset i) (some depth) = some (o, some (-1)) := by
  obtain ⟨r, hr, hcase⟩ := exists_nextNode hi he hdepth
  rw [hr]
  cases hcase with
  | @found o x hhead hle =>
    rw [List.head?_drop] at hhead
    have hlt := h (List.getElem?_eq_some_iff.mp hhead).1
    rw [depthAt_tree hhead] at hlt
    push_cast at hle
    omega
  | out ho => exact ⟨_, ho, rfl⟩
  | last hnil hle =>
    rw [List.drop_eq_nil_iff] at hnil
    have hlt := h' (by omega)
    push_cast at hle
    omega

/-- It comes to the end of the tree. -/
theorem next_last (hlast : i + 1 = b.nodes.length) (h : depthAt b.tree.nodes i + 1 ≤ depth) :
    fdtNextNode fuel m (b.offset i) (some depth) =
      some (errNotfound, some (depth - (depthAt b.tree.nodes i + 1))) := by
  obtain ⟨r, hr, hcase⟩ := exists_nextNode hi he hdepth
  have hnil : b.nodes.drop (i + 1) = [] := List.drop_eq_nil_of_le (by omega)
  rw [hr]
  cases hcase with
  | found hhead =>
    rw [hnil] at hhead
    simp at hhead
  | out _ _ hlt =>
    have := hlt hnil
    push_cast at this
    omega
  | last => rfl

omit hdepth in
/-- Without a depth, it goes to the next node or comes to the end. -/
theorem next_none : fdtNextNode fuel m (b.offset i) none =
    some (if i + 1 < b.nodes.length then b.offset (i + 1) else errNotfound, none) := by
  obtain ⟨o, x, hget⟩ := exists_node hi
  obtain ⟨name, ts, hnode⟩ := b.exists_nodeAt hget
  rw [offset_eq hget, hnode.fdtNextNode_none he, List.head?_drop]
  split
  · rename_i hnext
    obtain ⟨o', x', hget'⟩ := exists_node hnext
    rw [hget', offset_eq hget']
    rfl
  · rw [List.getElem?_eq_none (by omega)]
    rfl

end Next

/-- From -1 on, `fdt_next_node` begins with the root. -/
theorem next_first (he : Enough m fuel) :
    fdtNextNode fuel m (-1) none = some (b.offset 0, none) := by
  have hin : 0 + (sizes (.beginNode b.name :: b.body) : ℤ) ≤ fdtSizeDtStruct m := by
    rw [b.size, zero_add]
  have hfuel : fuel ≠ 0 := by
    have hfour := (Token.beginNode b.name).four_le_bytes.trans
      (Token.beginNode b.name).bytes_le_size
    have hsize := b.size
    have hle := he.struct
    rw [sizes_cons] at hsize
    omega
  obtain ⟨fuel', rfl⟩ := Nat.exists_eq_add_one_of_ne_zero hfuel
  rw [fdtNextNode, if_neg (by decide)]
  exact loop_begin (step_cons b.tokens le_rfl rfl hin b.small he.struct).1

end Blob

/-! ## A blob -/

/-- The tokens of the sample. -/
def sampleBlob : Blob sample where
  name := []
  body := [.prop 0 [1], .beginNode [0x62], .endNode, .endNode, .fin]
  str _ := [0x61]
  magic := by decide
  version := by decide
  lastComp := by decide
  small := by decide
  size := by decide
  tokens :=
    ⟨⟨by decide, by decide, ByteMem.holds_iff_read.mpr (by decide)⟩,
      ⟨by decide, by decide, by decide, ByteMem.holds_iff_read.mpr (by decide)⟩,
      ⟨by decide, by decide, ByteMem.holds_iff_read.mpr (by decide)⟩,
      ⟨by decide, trivial⟩, ⟨by decide, trivial⟩, ⟨by decide, trivial⟩, trivial⟩
  shaped := .prop (.begin (.close (.close .fin)))
  strings nameoff data h := by
    simp only [List.mem_cons, Token.prop.injEq, reduceCtorEq, List.not_mem_nil, or_false] at h
    obtain ⟨rfl, rfl⟩ := h
    exact ⟨by decide, by decide, ByteMem.holds_iff_read.mpr (by decide)⟩

end Libfdt

end AcrnUt
