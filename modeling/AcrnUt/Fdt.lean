import AcrnUt.DepthWalk
import Mathlib.Tactic

/-!
# The flattened device tree

The structure block of a device tree blob is its nodes in preorder, each with a name
and its properties. `Fdt` keeps them as a list with the depth of every node, and a
node's offset is its position there. The functions of libfdt that `lib/devicetree.c`
calls are modelled as `libfdt.h` documents them : a lookup by name answers the first
property of the node with that name, `fdt_parent_offset` the last node before that is
one level up, `fdt_first_subnode` and `fdt_next_subnode` the children one after the
other, and `fdt_node_offset_by_prop_value` the next node in the tree whose property
has a given value.

A function of `lib/devicetree.c` returns zero, or a negative code of libfdt, or leaves
what it may read or write; `DtFail` tells the last two apart.
-/

set_option linter.unusedSectionVars false

namespace AcrnUt

/-- A property of a node : its name and its value. -/
structure DtProp where
  name : String
  data : List (BitVec 8)
deriving DecidableEq

/-- A node of the structure block : how deep it stands, its name and its properties. -/
structure DtNode where
  depth : ℕ
  name : String
  props : List DtProp
deriving DecidableEq

/-- The depth of the node at an offset. -/
def depthAt (nodes : List DtNode) (k : ℕ) : ℕ := (nodes[k]?.map DtNode.depth).getD 0

/-- A device tree : no level is jumped over, and the lengths of the values are `int`s. -/
structure Fdt where
  nodes : List DtNode
  descends : Descends (depthAt nodes) nodes.length
  sized : ∀ x ∈ nodes, ∀ p ∈ x.props, p.data.length < 2 ^ 31

/-- How a call fails : with a negative code, or outside of what it may access. -/
inductive DtFail
  | code (c : ℤ)
  | outside
deriving DecidableEq

/-- `-FDT_ERR_NOTFOUND`. -/
def notFound : DtFail := .code (-1)

/-- `-FDT_ERR_BADOFFSET`. -/
def badOffset : DtFail := .code (-4)

namespace Fdt

variable (t : Fdt)

/-- `fdt_get_property` : the value of the first property with the name. -/
def fdtGetProperty (node : ℕ) (name : String) : Except DtFail (List (BitVec 8)) :=
  match t.nodes[node]? with
  | none => .error badOffset
  | some x =>
    match x.props.find? fun p => p.name == name with
    | none => .error notFound
    | some p => .ok p.data

/-- `fdt_first_subnode`; `none` is `-FDT_ERR_NOTFOUND`, the one code it returns. -/
def fdtFirstSubnode (node : ℕ) : Option ℕ := firstChild (depthAt t.nodes) t.nodes.length node

/-- `fdt_next_subnode`; `none` is `-FDT_ERR_NOTFOUND`, the one code it returns. -/
def fdtNextSubnode (node : ℕ) : Option ℕ := nextSibling (depthAt t.nodes) t.nodes.length node

/-- `fdt_parent_offset`. -/
def fdtParentOffset (node : ℕ) : Except DtFail ℕ :=
  if node < t.nodes.length then
    match parentIn (depthAt t.nodes) node with
    | none => .error notFound
    | some k => .ok k
  else .error badOffset

/-- The node has a property of the name with exactly the value. -/
def hasProp (name : String) (value : List (BitVec 8)) (node : ℕ) : Bool :=
  match t.fdtGetProperty node name with
  | .ok data => data == value
  | .error _ => false

/-- `fdt_node_offset_by_prop_value` from behind `startoffset`, which is -1 for the whole
tree; `none` is `-FDT_ERR_NOTFOUND`. -/
def fdtNodeOffsetByPropValue (startoffset : ℤ) (name : String) (value : List (BitVec 8)) :
    Option ℕ :=
  firstIn (t.hasProp name value) (startoffset + 1).toNat t.nodes.length

/-- The values that `s` takes in `dt_for_each_subnode(n, s)`. -/
def dtForEachSubnode (n : ℕ) : List ℕ :=
  visited t.fdtNextSubnode t.nodes.length (t.fdtFirstSubnode n)

/-- The children of a node, in tree order. -/
def children (n : ℕ) : List ℕ :=
  (List.range t.nodes.length).filter fun m => parentIn (depthAt t.nodes) m == some n

/-- `_fdt_nodename_eq` : the name, or the name in front of a unit address. -/
def nodenameEq (node : ℕ) (name : String) : Bool :=
  match t.nodes[node]? with
  | none => false
  | some x =>
    x.name == name ||
      (!name.toList.contains '@' && (name.toList ++ ['@']).isPrefixOf x.name.toList)

/-- `fdt_subnode_offset` : the first child of the name. -/
def fdtSubnodeOffset (parentoffset : ℕ) (name : String) : Except DtFail ℕ :=
  match (t.children parentoffset).find? fun k => t.nodenameEq k name with
  | none => .error notFound
  | some k => .ok k

/-- `fdt_path_offset` of an absolute path, given by its components. -/
def fdtPathOffset (path : List String) : Except DtFail ℕ :=
  path.foldlM (fun node name => t.fdtSubnodeOffset node name) 0

/-- `dt_for_each_subnode` visits the children, each once and in tree order. -/
theorem dtForEachSubnode_eq (n : ℕ) : t.dtForEachSubnode n = t.children n :=
  visited_children t.descends

variable {t}

/-- What a lookup answers is the value of a property, so its length is an `int`. -/
theorem length_of_fdtGetProperty {node : ℕ} {name : String} {data : List (BitVec 8)}
    (h : t.fdtGetProperty node name = .ok data) : data.length < 2 ^ 31 := by
  unfold fdtGetProperty at h
  split at h
  · exact absurd h (by simp)
  · rename_i x hx
    split at h
    · exact absurd h (by simp)
    · rename_i p hp
      obtain rfl := Except.ok.inj h
      exact t.sized x (List.mem_of_getElem? hx) p (List.mem_of_find?_eq_some hp)

theorem hasProp_eq_true_iff {name : String} {value : List (BitVec 8)} {node : ℕ} :
    t.hasProp name value node = true ↔ t.fdtGetProperty node name = .ok value := by
  unfold hasProp
  cases t.fdtGetProperty node name with
  | error e => simp
  | ok data => simp

end Fdt

/-! ## Big-endian cells -/

/-- The cells of a value : its whole 32-bit words, most significant byte first. -/
def be32Cells : List (BitVec 8) → List (BitVec 32)
  | a :: b :: c :: d :: rest => (a ++ b ++ c ++ d) :: be32Cells rest
  | _ => []

/-- There are `len / sizeof(u32)` of them. -/
theorem be32Cells_length (data : List (BitVec 8)) :
    (be32Cells data).length = data.length / 4 := by
  induction data using be32Cells.induct with
  | case1 a b c d rest ih => simp only [be32Cells, List.length_cons, ih]; omega
  | case2 data h =>
    have hshort : data.length < 4 := by
      by_contra hge
      obtain ⟨a, b, c, d, rest, rfl⟩ : ∃ a b c d rest, data = a :: b :: c :: d :: rest := by
        rcases data with _ | ⟨a, _ | ⟨b, _ | ⟨c, _ | ⟨d, rest⟩⟩⟩⟩
        · simp at hge
        · simp at hge
        · simp at hge
        · simp at hge
        · exact ⟨a, b, c, d, rest, rfl⟩
      exact h a b c d rest rfl
    rw [be32Cells.eq_2 data h]
    simp only [List.length_nil]
    omega

/-- Read one cell of a value. -/
def readCell (cells : List (BitVec 32)) (k : BitVec 32) : Except DtFail (BitVec 32) :=
  match cells[k.toNat]? with
  | none => .error .outside
  | some c => .ok c

end AcrnUt
