import DocPath.Proofs.Sort.Order

/-! # Sorting by two list orders

Sorting by one list order and then by another one is sorting by both at once, where they name the
same field for the lists that both of them name. A second sort by the same order changes nothing.
-/

namespace DocPath

namespace ListOrder

/-- The lists of both orders; the second one wins for a list that both of them name. -/
instance : Union ListOrder := ⟨fun first second => ⟨first.fields ∪ second.fields⟩⟩

/-- No list is ordered by two different fields. -/
def Agrees (first second : ListOrder) : Prop :=
  ∀ list field field', first.field? list = some field → second.field? list = some field' →
    field = field'

theorem field?_union (first second : ListOrder) (list : String) :
    (first ∪ second).field? list = (second.field? list).or (first.field? list) :=
  Std.TreeMap.getElem?_union

def arrange (order : ListOrder) (list : String) (items : List Json) : List Json :=
  match order.field? list with
  | some field => sortByField field items
  | none => items

theorem map_arrange {order : ListOrder} {f : Json → Json}
    (h : ∀ field item, (f item).fieldText? field = item.fieldText? field) (list : String)
    (items : List Json) : (order.arrange list items).map f = order.arrange list (items.map f) := by
  unfold arrange
  cases order.field? list with
  | none => rfl
  | some field => exact map_sortByField (h field) items

theorem arrange_empty (list : String) (items : List Json) :
    (∅ : ListOrder).arrange list items = items := by
  have h : (∅ : ListOrder).field? list = none := field?_empty list
  simp only [arrange, h]

theorem arrange_arrange (order : ListOrder) (list : String) (items : List Json) :
    order.arrange list (order.arrange list items) = order.arrange list items := by
  unfold arrange
  cases order.field? list with
  | none => rfl
  | some field => exact sortByField_sortByField field items

theorem Agrees.arrange {first second : ListOrder} (h : first.Agrees second) (list : String)
    (items : List Json) : second.arrange list (first.arrange list items) =
      (first ∪ second).arrange list items := by
  simp only [ListOrder.arrange, field?_union]
  cases hs : second.field? list with
  | none => rfl
  | some field =>
    cases hf : first.field? list with
    | none => rfl
    | some field' =>
      obtain rfl := h list field' field hf hs
      exact sortByField_sortByField field' items

theorem Agrees.arrange_comm {first second : ListOrder} (h : first.Agrees second) (list : String)
    (items : List Json) : second.arrange list (first.arrange list items) =
      first.arrange list (second.arrange list items) := by
  simp only [ListOrder.arrange]
  cases hs : second.field? list with
  | none => rfl
  | some field =>
    cases hf : first.field? list with
    | none => rfl
    | some field' =>
      obtain rfl := h list field' field hf hs
      rfl

end ListOrder

namespace Json

theorem sortAt_list_arrange (order : ListOrder) (path : String) (items : List Json) :
    sortAt order path (.list items) =
      .list (order.arrange (path ++ "[]") (items.map (sortAt order (path ++ "[]")))) :=
  sortAt_list order path items

/-- Two sorts are one sort when they are for every single list. The path text of a list is the same
in both, since sorting moves values but not the keys on the way to them. -/
theorem sortAt_sortAt {first second joint : ListOrder}
    (h : ∀ list items, second.arrange list (first.arrange list items) = joint.arrange list items)
    (path : String) (value : Json) :
    sortAt second path (sortAt first path value) = sortAt joint path value := by
  induction value generalizing path with
  | list items ih =>
    have hi : (items.map (sortAt first (path ++ "[]"))).map (sortAt second (path ++ "[]")) =
        items.map (sortAt joint (path ++ "[]")) := by
      rw [List.map_map]
      exact List.map_congr_left fun item hm => ih item hm (path ++ "[]")
    simp only [sortAt_list_arrange]
    -- the second sort of the elements may be done first, as it keeps what they are ordered by
    rw [ListOrder.map_arrange fun field item => fieldText?_sortAt second _ field item, hi, h]
  | object members ih =>
    have hm : (members.map fun m => (m.1, sortAt first (memberText path m.1) m.2)).map
          (fun m => (m.1, sortAt second (memberText path m.1) m.2)) =
        members.map fun m => (m.1, sortAt joint (memberText path m.1) m.2) := by
      rw [List.map_map]
      exact List.map_congr_left fun m hm => Prod.ext rfl (ih m hm (memberText path m.1))
    simp only [sortAt_object]
    rw [map_sortMembers (fun m => sortAt second (memberText path m.1) m.2), hm,
      sortMembers_sortMembers]
  | _ => rw [sortAt_scalar first _ rfl, sortAt_scalar second _ rfl, sortAt_scalar joint _ rfl]

/-- Sorting by two list orders that agree, one after the other, is sorting by both at once, and the
two may change places. So a second sort changes nothing, and neither does one of the keys alone
before another sort. -/
theorem sort_composes {first second : ListOrder} (h : first.Agrees second) (document : Json) :
    (document.sort first).sort second = document.sort (first ∪ second) ∧
    (document.sort first).sort second = (document.sort second).sort first ∧
    (document.sort first).sort first = document.sort first ∧
    (document.sort ∅).sort second = document.sort second := by
  have hu := sortAt_sortAt h.arrange "" document
  refine ⟨hu, ?_, sortAt_sortAt first.arrange_arrange "" document, ?_⟩
  · refine hu.trans (sortAt_sortAt (fun list items => ?_) "" document).symm
    rw [← h.arrange, h.arrange_comm]
  · exact sortAt_sortAt (fun list items => by rw [ListOrder.arrange_empty]) "" document

theorem sort_composes_people :
    ((∅ : ListOrder).insert "people[]" "name").Agrees
        (((∅ : ListOrder).insert "people[]" "name").insert "people[].pets[]" "name.first") ∧
    ((Json.object [("people", .list [.object [("name", .string "Bob"), ("age", .number (.int 4))],
      .object [("name", .string "Ann"), ("pets", .list [
        .object [("name", .object [("first", .string "Rex")])], .null])]])]).sort
        ((∅ : ListOrder).insert "people[]" "name")).sort
        (((∅ : ListOrder).insert "people[]" "name").insert "people[].pets[]" "name.first") =
      (Json.object [("people", .list [.object [("name", .string "Bob"), ("age", .number (.int 4))],
        .object [("name", .string "Ann"), ("pets", .list [
          .object [("name", .object [("first", .string "Rex")])], .null])]])]).sort
        ((∅ : ListOrder).insert "people[]" "name" ∪
          ((∅ : ListOrder).insert "people[]" "name").insert "people[].pets[]" "name.first") := by
  have ha : ((∅ : ListOrder).insert "people[]" "name").Agrees
      (((∅ : ListOrder).insert "people[]" "name").insert "people[].pets[]" "name.first") := by
    intro list field field' hf hs
    have he : (∅ : ListOrder).field? list = none := ListOrder.field?_empty list
    simp only [ListOrder.field?_insert, he, Option.ite_none_right_eq_some] at hf hs
    obtain ⟨rfl, hf⟩ := hf
    simp_all
  exact ⟨ha, (sort_composes ha _).1⟩

end Json

end DocPath
