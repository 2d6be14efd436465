import AcrnUt.Packing

/-!
# Structures of C

A member of a structure lies at the next multiple of its alignment, and the size of the structure is
a multiple of the largest alignment in it (`CType.struct`). A flexible array at the end
(`CType.flexStruct`) adds to the alignment and not to the size : if no member has a larger alignment
than an element, the structure ends where the array begins (`CType.size_flexStruct`).
-/

set_option linter.unusedSectionVars false

namespace AcrnUt

/-- The size and the alignment of a type, in bytes. -/
structure CType where
  size : ℕ
  align : ℕ

namespace CType

variable {members : List CType} {elem : CType}

/-- Where the last member ends. -/
def endOf (members : List CType) : ℕ :=
  members.foldl (fun e t => alignUp t.align e + t.size) 0

/-- The largest alignment of a member. -/
def alignOf (members : List CType) : ℕ :=
  members.foldl (fun a t => max a t.align) 1

/-- A structure. -/
def struct (members : List CType) : CType :=
  ⟨alignUp (alignOf members) (endOf members), alignOf members⟩

/-- Where the flexible array after the members begins. -/
def flexOffset (members : List CType) (elem : CType) : ℕ :=
  alignUp elem.align (endOf members)

/-- A structure with a flexible array at its end. -/
def flexStruct (members : List CType) (elem : CType) : CType :=
  ⟨alignUp (max (alignOf members) elem.align) (flexOffset members elem),
    max (alignOf members) elem.align⟩

/-- Without padding for a larger alignment, the size leaves no room for the array. -/
theorem size_flexStruct (hpos : 0 < elem.align) (h : alignOf members ≤ elem.align) :
    (flexStruct members elem).size = flexOffset members elem := by
  unfold flexStruct
  rw [max_eq_right h]
  exact alignUp_of_dvd hpos (Nat.dvd_mul_left ..)

end CType

end AcrnUt
