import DocPath.Json.Field
import DocPath.Path.Basic

/-! # Filters

An element satisfies a filter when it is an object in which the field of each constraint holds a
scalar with the expected text.
-/

namespace DocPath

def Constraint.holds (c : Constraint) (element : Json) : Bool :=
  element.fieldText? c.key == some c.expected

def Json.satisfies (element : Json) (constraints : List Constraint) : Bool :=
  element.kind == .object && constraints.all (·.holds element)

theorem Constraint.holds_iff (c : Constraint) (element : Json) :
    c.holds element = true ↔
      ∃ found, element.field? c.key = some found ∧ found.scalarText? = some c.expected := by
  simp [holds, Json.fieldText?, Option.bind_eq_some_iff]

theorem Json.satisfies_iff (element : Json) (constraints : List Constraint) :
    element.satisfies constraints = true ↔
      element.kind = .object ∧ ∀ c ∈ constraints, c.holds element = true := by
  simp [satisfies]

end DocPath
