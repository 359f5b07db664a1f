import DocPath.Json.Parser
import DocPath.Json.Printer
import Std.Data.TreeMap

/-! # List orders

A list order says which lists of a document are sorted, and by which field of their elements. A list
is named by its path text without positions, such as `friends[].addresses[]`.
-/

namespace DocPath

/-- The field that orders each list, by the path text of the list. -/
structure ListOrder where
  fields : Std.TreeMap String String

namespace ListOrder

def empty : ListOrder :=
  ⟨∅⟩

instance : EmptyCollection ListOrder := ⟨empty⟩

variable (order : ListOrder)

def field? (list : String) : Option String :=
  order.fields[list]?

def insert (list field : String) : ListOrder :=
  ⟨order.fields.insert list field⟩

def ofList (entries : List (String × String)) : ListOrder :=
  entries.foldl (fun order e => order.insert e.1 e.2) empty

def size : Nat :=
  order.fields.size

def isEmpty : Bool :=
  order.fields.isEmpty

def toList : List (String × String) :=
  order.fields.toList

def toJson : Json :=
  .object (order.toList.map fun e => (e.1, .string e.2))

def parse? (text : String) : Option ListOrder :=
  (JsonText.strings? text).map ofList

@[simp] theorem field?_empty (list : String) : empty.field? list = none := by
  simp [empty, field?]

theorem field?_insert (list field other : String) :
    (order.insert list field).field? other =
      if other = list then some field else order.field? other := by
  simp only [insert, field?, Std.TreeMap.getElem?_insert, Std.LawfulEqCmp.compare_eq_iff_eq]
  split <;> split <;> simp_all

end ListOrder

end DocPath
