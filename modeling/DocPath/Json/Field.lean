import DocPath.Json.Basic
import DocPath.Text.Split

/-! # Fields and their texts

Filters and sorting look at a field of an element, whose name may be a key of the element or a
dotted path through objects inside it, and compare the text of the scalar there.
-/

namespace DocPath.Json

/-- The text of a scalar: a string as it is, everything else as JSON writes it. -/
def scalarText? : Json → Option String
  | .null => some "null"
  | .bool value => some (if value then "true" else "false")
  | .number value => some value.text
  | .string value => some value
  | .list _ | .object _ => none

def descend? (value : Json) (keys : List String) : Option Json :=
  keys.foldlM (fun node key => node.member? key) value

def dottedParts (name : String) : List String :=
  (Text.splitAt '.' name.toList).map String.ofList

/-- The field with this name. A key that is the whole name wins over the dotted reading. -/
def field? (name : String) (value : Json) : Option Json :=
  match value.member? name with
  | some found => some found
  | none => if '.' ∈ name.toList then value.descend? (dottedParts name) else none

theorem scalarText?_isSome (value : Json) : value.scalarText?.isSome = value.isScalar := by
  cases value <;> rfl

def fieldText? (name : String) (value : Json) : Option String :=
  (value.field? name).bind scalarText?

end DocPath.Json
