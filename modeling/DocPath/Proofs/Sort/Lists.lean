import DocPath.Proofs.Leaves.Shapes
import DocPath.Proofs.Places.Composition
import DocPath.Proofs.Sort.Composition

/-! # Lists by their texts

A list order names lists by a text that sorting makes up as it walks over the document: keys with
dots between them and empty brackets for the steps into lists, those into the list itself at the
end. The text is also that of a path, which reads the elements of all lists with this text.
-/

namespace DocPath

namespace Location

def listText (location : Location) : String :=
  PositionStyle.collapsed.written location ++ "[]"

theorem shape_append_index (location : Location) (position : Nat) :
    shape (location ++ [.index position]) = location.shape ++ [.append] :=
  List.map_append

theorem listText_eq_render {location : Location} (h : location.head? ≠ some (.key "")) :
    location.listText = Path.render (location.shape ++ [.append]) := by
  have hl : location.listText = PositionStyle.collapsed.written (location ++ [.index 0]) := by
    rw [listText, PositionStyle.written, PositionStyle.written, List.foldl_append]
    rfl
  have hh : (location ++ [Step.index 0]).head? ≠ some (.key "") := by
    cases location with
    | nil => simp
    | cons first rest => exact h
  rw [hl, written_eq_render .collapsed hh, PositionStyle.render]
  exact congrArg Path.render (shape_append_index location 0)

end Location

theorem Path.locations_shape (location : Location) {document : Json} (hw : document.WellFormed) :
    Path.locations .read location.shape document =
      .ok ((Json.locatedAlong location.shape document).map Prod.fst) := by
  rw [locations, places_eq_ok_iff.mpr (reach?_shape location hw)]
  refine congrArg Except.ok ?_
  simp

namespace Json

def lists (document : Json) : List (Location × Json) :=
  document.located.filter fun found => found.2.kind = .list

theorem mem_lists {document value : Json} {location : Location} (h : document.WellFormed) :
    (location, value) ∈ document.lists ↔
      location.get? document = some value ∧ value.kind = .list := by
  rw [lists, List.mem_filter, mem_located h, decide_eq_true_iff]

theorem nodup_lists {document : Json} (h : document.WellFormed) :
    (document.lists.map Prod.fst).Nodup :=
  (nodup_located h).sublist (List.filter_sublist.map Prod.fst)

theorem elements_eq_nil_of_kind_ne {value : Json} (h : value.kind ≠ .list) :
    value.elements = [] := by
  cases value with
  | list => exact absurd rfl h
  | _ => rfl

theorem flatMap_elements_lists (p : Location → Bool) (document : Json) :
    ((document.lists.filter fun l => p l.1).flatMap fun l => l.2.elements) =
      (document.located.filter fun found => p found.1).flatMap fun found => found.2.elements := by
  rw [lists, List.filter_filter, flatMap_filter, flatMap_filter]
  refine List.flatMap_congr fun found _ => ?_
  by_cases hk : found.2.kind = .list
  · simp [hk]
  · simp [hk, elements_eq_nil_of_kind_ne hk]

theorem mem_locatedAlong {path : Path} {value found : Json} {location : Location}
    (h : value.WellFormed) : (location, found) ∈ locatedAlong path value ↔
      location.get? value = some found ∧ location.shape = path := by
  rw [locatedAlong_eq_filter, List.mem_filter, mem_located h, decide_eq_true_iff]

theorem elements_eq_map_children (value : Json) :
    value.elements =
      (value.children.filter fun e => e.1.shape = .append).map Prod.snd := by
  cases value with
  | list items => simp [elements, children, List.filter_map, Function.comp_def, Step.shape]
  | object members => simp [elements, children, List.filter_map, Function.comp_def, Step.shape]
  | _ => rfl

theorem map_snd_locatedAlong_append (path : Path) (value : Json) :
    (locatedAlong (path ++ [.append]) value).map Prod.snd =
      (locatedAlong path value).flatMap fun found => found.2.elements := by
  induction path generalizing value with
  | nil =>
    simp only [List.nil_append, locatedAlong, List.flatMap_cons, List.flatMap_nil,
      List.append_nil, elements_eq_map_children, List.map_cons, List.map_nil]
    rw [← List.map_eq_flatMap, List.map_map]
    rfl
  | cons segment rest ih =>
    rw [List.cons_append, locatedAlong, locatedAlong, List.map_flatMap, List.flatMap_assoc]
    refine List.flatMap_congr fun e _ => ?_
    rw [List.map_map, List.flatMap_map, ← ih]
    rfl

/-- Sorting with a field for each list that is told by the location of the list. -/
def sortLists (fieldAt : Location → Option String) : Json → Json
  | .object members =>
    .object (sortMembers (members.map fun m =>
      (m.1, sortLists (fun location => fieldAt (.key m.1 :: location)) m.2)))
  | .list items =>
    let sorted := items.zipIdx.attach.map fun e =>
      sortLists (fun location => fieldAt (.index e.1.2 :: location)) e.1.1
    .list ((fieldAt []).elim id sortByField sorted)
  | scalar => scalar
termination_by value => sizeOf value
decreasing_by
  · exact sizeOf_member_lt ‹_›
  · exact sizeOf_item_lt (List.fst_mem_of_mem_zipIdx e.2)

theorem sortLists_object (fieldAt : Location → Option String) (members : Members) :
    sortLists fieldAt (.object members) = .object (sortMembers (members.map fun m =>
      (m.1, sortLists (fun location => fieldAt (.key m.1 :: location)) m.2))) := by
  rw [sortLists]

theorem sortLists_list (fieldAt : Location → Option String) (items : List Json) :
    sortLists fieldAt (.list items) = .list ((fieldAt []).elim id sortByField
      (items.zipIdx.map fun e =>
        sortLists (fun location => fieldAt (.index e.2 :: location)) e.1)) := by
  have hi : (items.zipIdx.attach.map fun e =>
        sortLists (fun location => fieldAt (.index e.1.2 :: location)) e.1.1) =
      items.zipIdx.map fun e =>
        sortLists (fun location => fieldAt (.index e.2 :: location)) e.1 := by
    conv => rhs; rw [← List.attach_map_subtype_val items.zipIdx, List.map_map]
    rfl
  rw [sortLists, hi]

theorem sortLists_scalar (fieldAt : Location → Option String) {value : Json}
    (h : value.isScalar = true) : sortLists fieldAt value = value := by
  cases value <;> simp_all [sortLists, isScalar]

/-- The field of a list is looked up by the text along its location. -/
theorem sortAt_eq_sortLists (order : ListOrder) (path : String) (value : Json) :
    value.sortAt order path = value.sortLists fun location =>
      order.field? (location.foldl (PositionStyle.extend .collapsed) path ++ "[]") := by
  induction value generalizing path with
  | list items ih =>
    have hi : items.map (sortAt order (path ++ "[]")) = items.zipIdx.map fun e =>
        sortLists (fun location => order.field?
          ((Step.index e.2 :: location).foldl (PositionStyle.extend .collapsed) path ++ "[]"))
          e.1 := by
      conv => lhs; rw [← List.zipIdx_map_fst 0 items, List.map_map]
      exact List.map_congr_left fun e he => ih e.1 (List.fst_mem_of_mem_zipIdx he) _
    rw [sortAt_list, sortLists_list, hi]
    cases h : order.field? (path ++ "[]") with
    | none => simp [h]
    | some field => simp [h]
  | object members ih =>
    rw [sortAt_object, sortLists_object]
    refine congrArg _ (congrArg _ (List.map_congr_left fun m hm => ?_))
    rw [ih m hm]
    rfl
  | _ => rw [sortAt_scalar order path rfl, sortLists_scalar _ rfl]

theorem sort_eq_sortLists (order : ListOrder) (document : Json) :
    document.sort order = document.sortLists fun location => order.field? location.listText :=
  sortAt_eq_sortLists order "" document

theorem sortLists_congr {value : Json} (hw : value.WellFormed)
    {fieldAt fieldAt' : Location → Option String}
    (h : ∀ location item items, location.get? value = some (.list (item :: items)) →
      fieldAt location = fieldAt' location) :
    value.sortLists fieldAt = value.sortLists fieldAt' := by
  induction value using induction_children generalizing fieldAt fieldAt' with
  | h value ih =>
    have below : ∀ e ∈ value.children,
        sortLists (fun location => fieldAt (e.1 :: location)) e.2 =
          sortLists (fun location => fieldAt' (e.1 :: location)) e.2 := by
      intro e he
      refine ih e he (hw.of_mem he) fun location item items hg => h _ item items ?_
      rw [Location.get?_cons, (child?_eq_some_iff hw).mpr he]
      exact hg
    cases value with
    | list items =>
      rw [sortLists_list, sortLists_list]
      cases items with
      -- no field matters to a list without elements
      | nil => cases fieldAt [] <;> cases fieldAt' [] <;> simp [sortByField]
      | cons item items =>
        rw [h [] item items rfl]
        refine congrArg _ (congrArg _ (List.map_congr_left fun e he => ?_))
        exact below (.index e.2, e.1) (List.mem_map_of_mem he)
    | object members =>
      rw [sortLists_object, sortLists_object]
      refine congrArg _ (congrArg _ (List.map_congr_left fun m hm => ?_))
      rw [below (.key m.1, m.2) (List.mem_map_of_mem hm)]
    | _ => rw [sortLists_scalar _ rfl, sortLists_scalar _ rfl]

section Named

variable {document value : Json} {location : Location} (hk : document.PlainKeys)
  (hg : location.get? document = some value)
include hk hg

theorem listText_eq_render_of_get? :
    location.listText = Path.render (location.shape ++ [.append]) :=
  Location.listText_eq_render (Location.head?_ne_of_wellFormed (shapes_wellFormed_of_get? hk hg))

theorem wellFormed_listPath : Path.WellFormed (location.shape ++ [.append]) := by
  refine ⟨by simp, List.forall_mem_append.mpr ⟨?_, List.forall_mem_singleton.mpr trivial⟩⟩
  exact List.forall_mem_map.mpr (shapes_wellFormed_of_get? hk hg)

theorem parse_listText : Path.parse location.listText = .ok (location.shape ++ [.append]) := by
  rw [listText_eq_render_of_get? hk hg]
  exact Path.parse_render (wellFormed_listPath hk hg)

theorem listText_eq_iff {other : Location} {value' : Json}
    (ho : other.get? document = some value') :
    other.listText = location.listText ↔ other.shape = location.shape := by
  rw [listText_eq_render_of_get? hk hg, listText_eq_render_of_get? hk ho]
  constructor
  · intro he
    have hp := Path.eq_of_render_eq (wellFormed_listPath hk ho).2 (wellFormed_listPath hk hg).2 he
    exact List.append_cancel_right hp
  · intro he
    rw [he]

variable (hw : document.WellFormed)
include hw

/-- What a list text reads are the elements of the lists that have it. -/
theorem values_listPath : Path.values (location.shape ++ [.append]) document =
    .ok ((document.lists.filter fun l => l.1.listText = location.listText).flatMap
      fun l => l.2.elements) := by
  have hv := Path.values_shape (location ++ [.index 0]) hw
  -- the keys of a document can be read off a list text, so that it tells the shape
  have hf : (document.located.filter fun found => Location.shape found.1 = location.shape) =
      document.located.filter fun found => found.1.listText = location.listText := by
    refine List.filter_congr fun found hm => ?_
    rw [decide_eq_decide]
    exact (listText_eq_iff hk hg ((mem_located hw).mp hm)).symm
  rw [Location.shape_append_index, map_snd_locatedAlong_append, locatedAlong_eq_filter, hf] at hv
  rw [hv, flatMap_elements_lists fun other => other.listText = location.listText]

theorem mem_locations_listPath_iff {other : Location} {elements : List Json} {position : Nat}
    (ho : other.get? document = some (.list elements)) (hp : position < elements.length) :
    other ++ [.index position] ∈
        (locatedAlong (location.shape ++ [.append]) document).map Prod.fst ↔
      other.listText = location.listText := by
  have hs := other.shape_append_index position
  rw [listText_eq_iff hk hg ho, List.mem_map]
  constructor
  · rintro ⟨⟨_, found⟩, hm, rfl⟩
    obtain ⟨-, he⟩ := (mem_locatedAlong hw).mp hm
    exact List.append_cancel_right (hs.symm.trans he)
  · intro he
    have hi : Location.get? (other ++ [.index position]) document = some elements[position] := by
      rw [Location.get?_append_singleton, ho]
      exact List.getElem?_eq_getElem hp
    exact ⟨(_, elements[position]), (mem_locatedAlong hw).mpr ⟨hi, by rw [hs, he]⟩, rfl⟩

/-- An entry of a list order is for the lists whose elements the text of the entry reads. -/
theorem sort_insert_listText (order : ListOrder) (field : String) :
    document.sort (order.insert location.listText field) = document.sortLists fun other =>
      if other ++ [.index 0] ∈
          (locatedAlong (location.shape ++ [.append]) document).map Prod.fst then some field
      else order.field? other.listText := by
  rw [sort_eq_sortLists]
  refine sortLists_congr hw fun other item items ho => ?_
  rw [ListOrder.field?_insert]
  exact if_congr (mem_locations_listPath_iff hk hg hw ho (Nat.zero_lt_succ _)).symm rfl rfl

end Named

/-- Sorting looks up the field of each list by the text along its location. This text is read as a
path, whose values are the elements of all lists with this text, list by list in document order.
An entry for the text in a list order is for just the lists whose elements the path reads; all
others are sorted as without it. -/
theorem list_texts_read_elements {document : Json} (hw : document.WellFormed)
    (hk : document.PlainKeys) :
    (∀ order, document.sort order =
      document.sortLists fun location => order.field? location.listText) ∧
    (document.lists.map Prod.fst).Nodup ∧
    (∀ location value, (location, value) ∈ document.lists ↔
      location.get? document = some value ∧ value.kind = .list) ∧
    ∀ (location : Location) (items : List Json),
      location.get? document = some (.list items) → ∃ path read,
      Path.parse location.listText = .ok path ∧
      path.locations .read document = .ok read ∧
      document.valuesAt location.listText =
        .ok ((document.lists.filter fun l => l.1.listText = location.listText).flatMap
          fun l => l.2.elements) ∧
      (∀ (other : Location) (elements : List Json),
        other.get? document = some (.list elements) → ∀ position < elements.length,
          (other ++ [.index position] ∈ read ↔ other.listText = location.listText)) ∧
      ∀ (order : ListOrder) (field : String),
        document.sort (order.insert location.listText field) =
        document.sortLists fun other =>
          if other ++ [.index 0] ∈ read then some field else order.field? other.listText := by
  refine ⟨fun order => sort_eq_sortLists order document, nodup_lists hw,
    fun _ _ => mem_lists hw, fun location items hg => ?_⟩
  have hp := parse_listText hk hg
  have hl := Path.locations_shape (location ++ [.index 0]) hw
  rw [Location.shape_append_index] at hl
  refine ⟨_, _, hp, hl, ?_, fun other elements ho position => ?_, fun order field => ?_⟩
  · rw [valuesAt, hp]
    exact values_listPath hk hg hw
  · exact mem_locations_listPath_iff hk hg hw ho
  · exact sort_insert_listText hk hg hw order field

def listsInList : Json :=
  .object [("a", .list [.list [.bool true, .null], .null, .list [.list []]])]

theorem list_texts_read_elements_nested :
    listsInList.WellFormed ∧ listsInList.PlainKeys ∧
    Location.get? [.key "a", .index 0] listsInList = some (.list [.bool true, .null]) ∧
    listsInList.valuesAt "a[][]" = .ok [.bool true, .null, .list []] := by
  have hw : listsInList.WellFormed := by simp [listsInList, Members.keys]
  have hk : listsInList.PlainKeys := by simp [listsInList, PlainKeys, keys, Members.keys]
  have hg : Location.get? [.key "a", .index 0] listsInList = some (.list [.bool true, .null]) := rfl
  have ht : Location.listText [.key "a", .index 0] = "a[][]" := by decide
  have hl : listsInList.lists = [
        ([.key "a"], .list [.list [.bool true, .null], .null, .list [.list []]]),
        ([.key "a", .index 0], .list [.bool true, .null]),
        ([.key "a", .index 2], .list [.list []]),
        ([.key "a", .index 2, .index 0], .list [])] := by
    simp [listsInList, lists, located_object, located_list, @located_scalar .null rfl,
      @located_scalar (.bool true) rfl, kind]
  obtain ⟨path, read, -, -, hv, -⟩ := (list_texts_read_elements hw hk).2.2.2 _ _ hg
  refine ⟨hw, hk, hg, ?_⟩
  rw [ht, hl] at hv
  exact hv

end Json

end DocPath
