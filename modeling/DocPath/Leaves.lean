import DocPath.Json.Basic
import Std.Data.TreeMap
import Std.Data.TreeSet

/-! # Leaves

The leaves of a document are its scalars below the root. Each has a path text: keys with dots
between them, and the positions in lists in brackets, or empty brackets when positions do not
matter.
-/

namespace DocPath

/-- How the steps into lists are written: with the position, or alike for all elements. -/
inductive PositionStyle where
  | concrete
  | collapsed
deriving DecidableEq

def PositionStyle.label : PositionStyle → Nat → String
  | .concrete, position => "[" ++ toString position ++ "]"
  | .collapsed, _ => "[]"

/-- The path text of a member, given that of the object. There is a dot only after text. -/
def memberText (object key : String) : String :=
  (if object.isEmpty then object else object ++ ".") ++ key

namespace Json

/-- The leaves inside a value, in document order, with their path texts; `path` is that of the
value. A leaf without a path text is left out. -/
def leavesAt (style : PositionStyle) (path : String) : Json → List (String × Json)
  | .object members => members.flatMap fun m => leavesAt style (memberText path m.1) m.2
  | .list items =>
    items.zipIdx.attach.flatMap fun e => leavesAt style (path ++ style.label e.1.2) e.1.1
  | leaf => if path.isEmpty then [] else [(path, leaf)]
termination_by value => sizeOf value
decreasing_by
  · exact sizeOf_member_lt ‹_›
  · exact sizeOf_item_lt (List.fst_mem_of_mem_zipIdx e.2)

theorem leavesAt_object (style : PositionStyle) (path : String) (members : Members) :
    leavesAt style path (.object members) =
      members.flatMap fun m => leavesAt style (memberText path m.1) m.2 := by
  rw [leavesAt]

theorem leavesAt_list (style : PositionStyle) (path : String) (items : List Json) :
    leavesAt style path (.list items) =
      items.zipIdx.flatMap fun e => leavesAt style (path ++ style.label e.2) e.1 := by
  rw [leavesAt]
  conv => rhs; rw [← List.attach_map_subtype_val items.zipIdx, List.flatMap_map]

theorem leavesAt_scalar (style : PositionStyle) (path : String) {value : Json}
    (h : value.isScalar = true) :
    leavesAt style path value = if path.isEmpty then [] else [(path, value)] := by
  cases value <;> simp_all [leavesAt, isScalar]

def leaves (style : PositionStyle) (document : Json) : List (String × Json) :=
  document.leavesAt style ""

def leafPaths (document : Json) : Std.TreeSet String :=
  .ofList ((document.leaves .concrete).map Prod.fst)

def leafShapes (document : Json) : Std.TreeSet String :=
  .ofList ((document.leaves .collapsed).map Prod.fst)

/-- The leaves by their path texts; of leaves with the same text the last one stays. -/
def leafValues (document : Json) : Std.TreeMap String Json :=
  .ofList (document.leaves .concrete)

end Json

end DocPath
