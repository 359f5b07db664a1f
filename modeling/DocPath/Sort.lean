import DocPath.Json.Field
import DocPath.Leaves
import DocPath.Sort.ListOrder

/-! # Sorting

The canonical form of a document: the keys of every object ascend by code point, and every list that
the list order names is sorted by the text of a field of its elements. Elements without that text
come first, and elements with the same text keep their order.
-/

namespace DocPath

/-- The order of sort keys: a missing one comes before all others. -/
def sortKeyLE : Option String → Option String → Bool
  | none, _ => true
  | some _, none => false
  | some a, some b => decide (a ≤ b)

def sortByField (field : String) (items : List Json) : List Json :=
  items.mergeSort fun a b => sortKeyLE (a.fieldText? field) (b.fieldText? field)

def sortMembers (members : Members) : Members :=
  members.mergeSort fun a b => decide (a.1 ≤ b.1)

namespace Json

/-- The canonical form of a value whose path text without positions is `path`. The elements of a
list are in canonical form before the list is sorted. -/
def sortAt (order : ListOrder) (path : String) : Json → Json
  | .object members =>
    .object (sortMembers (members.map fun m => (m.1, sortAt order (memberText path m.1) m.2)))
  | .list items =>
    let items := items.map (sortAt order (path ++ "[]"))
    .list (match order.field? (path ++ "[]") with
      | some field => sortByField field items
      | none => items)
  | scalar => scalar
termination_by value => sizeOf value
decreasing_by
  · exact sizeOf_member_lt ‹_›
  · exact sizeOf_item_lt ‹_›

theorem sortAt_object (order : ListOrder) (path : String) (members : Members) :
    sortAt order path (.object members) = .object (sortMembers
      (members.map fun m => (m.1, sortAt order (memberText path m.1) m.2))) := by
  rw [sortAt]

theorem sortAt_list (order : ListOrder) (path : String) (items : List Json) :
    sortAt order path (.list items) =
      .list (match order.field? (path ++ "[]") with
        | some field => sortByField field (items.map (sortAt order (path ++ "[]")))
        | none => items.map (sortAt order (path ++ "[]"))) := by
  rw [sortAt]

theorem sortAt_scalar (order : ListOrder) (path : String) {value : Json}
    (h : value.isScalar = true) : sortAt order path value = value := by
  cases value <;> simp_all [sortAt, isScalar]

def sort (order : ListOrder) (document : Json) : Json :=
  document.sortAt order ""

end Json

end DocPath
