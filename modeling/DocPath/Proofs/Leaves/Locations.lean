import DocPath.Leaves
import DocPath.Proofs.Json.Children
import Mathlib.Data.List.Nodup

/-! # Locations of leaves

The walk over a document that collects its leaves writes a path text as it goes. Here all values are
collected with their locations. In a well formed document these are the locations with a value, each
of them once. The leaves are the scalars among them, with texts written along the locations.
-/

namespace DocPath

def PositionStyle.extend (style : PositionStyle) (text : String) : Step → String
  | .key name => memberText text name
  | .index position => text ++ style.label position

def PositionStyle.written (style : PositionStyle) (location : Location) : String :=
  location.foldl style.extend ""

namespace Json

theorem leavesAt_children (style : PositionStyle) (path : String) {value : Json}
    (h : value.isScalar = false) : value.leavesAt style path =
      value.children.flatMap fun e => e.2.leavesAt style (style.extend path e.1) := by
  cases value with
  | list items =>
    rw [leavesAt_list, children, List.flatMap_map]
    rfl
  | object members =>
    rw [leavesAt_object, children, List.flatMap_map]
    rfl
  | _ => cases h

def located (value : Json) : List (Location × Json) :=
  ([], value) :: value.children.attach.flatMap fun e =>
    (located e.1.2).map fun found => (e.1.1 :: found.1, found.2)
termination_by sizeOf value
decreasing_by exact sizeOf_child_lt e.2

theorem located_children (value : Json) :
    value.located = ([], value) :: value.children.flatMap fun e =>
      e.2.located.map fun found => (e.1 :: found.1, found.2) := by
  rw [located]
  conv => rhs; rw [← List.attach_map_subtype_val value.children, List.flatMap_map]

theorem located_list (items : List Json) :
    (list items).located = ([], list items) :: items.zipIdx.flatMap fun e =>
      e.1.located.map fun found => (.index e.2 :: found.1, found.2) := by
  rw [located_children, children, List.flatMap_map]

theorem located_object (members : Members) :
    (object members).located = ([], object members) :: members.flatMap fun m =>
      m.2.located.map fun found => (.key m.1 :: found.1, found.2) := by
  rw [located_children, children, List.flatMap_map]

theorem located_scalar {value : Json} (h : value.isScalar = true) :
    value.located = [([], value)] := by
  rw [located_children, children_eq_nil_of_isScalar h]
  rfl

theorem mem_located {value found : Json} {location : Location} (h : value.WellFormed) :
    (location, found) ∈ value.located ↔ location.get? value = some found := by
  induction value using induction_children generalizing location with
  | h value ih =>
    rw [located_children]
    cases location with
    | nil => simp [eq_comm]
    | cons step rest =>
      rw [Location.get?_cons, Option.bind_eq_some_iff]
      simp only [List.mem_cons, Prod.mk.injEq, reduceCtorEq, false_and, false_or, List.mem_flatMap,
        List.mem_map, List.cons.injEq]
      constructor
      · rintro ⟨⟨_, child⟩, hm, ⟨_, _⟩, hl, ⟨rfl, rfl⟩, rfl⟩
        exact ⟨child, (child?_eq_some_iff h).mpr hm, (ih _ hm (h.of_mem hm)).mp hl⟩
      · rintro ⟨child, hc, hg⟩
        have hm := mem_children_of_child? hc
        exact ⟨(step, child), hm, (rest, found), (ih _ hm (h.of_mem hm)).mpr hg, ⟨rfl, rfl⟩, rfl⟩

theorem nodup_located {value : Json} (h : value.WellFormed) :
    (value.located.map Prod.fst).Nodup := by
  induction value using induction_children with
  | h value ih =>
    have hm (e : Step × Json) :
        (e.2.located.map fun found => (e.1 :: found.1, found.2)).map Prod.fst =
          (e.2.located.map Prod.fst).map (e.1 :: ·) := by
      rw [List.map_map, List.map_map]
      rfl
    rw [located_children, List.map_cons, List.map_flatMap]
    simp only [hm]
    refine List.nodup_cons.mpr ⟨by simp, List.nodup_flatMap.mpr ⟨fun e he => ?_, ?_⟩⟩
    · exact (ih e he (h.of_mem he)).map fun _ _ hl => (List.cons.inj hl).2
    · refine (List.pairwise_map.mp h.nodup_children).imp fun hne location ha hb => ?_
      obtain ⟨_, -, rfl⟩ := List.mem_map.mp ha
      obtain ⟨_, -, he⟩ := List.mem_map.mp hb
      exact hne (List.cons.inj he).1.symm

/-- The leaves inside a value with their locations, in document order; a scalar is its own leaf. -/
def locatedLeaves (value : Json) : List (Location × Json) :=
  if value.isScalar then [([], value)]
  else value.children.attach.flatMap fun e =>
    (locatedLeaves e.1.2).map fun leaf => (e.1.1 :: leaf.1, leaf.2)
termination_by sizeOf value
decreasing_by exact sizeOf_child_lt e.2

theorem locatedLeaves_scalar {value : Json} (h : value.isScalar = true) :
    value.locatedLeaves = [([], value)] := by
  rw [locatedLeaves, if_pos h]

theorem locatedLeaves_children {value : Json} (h : value.isScalar = false) :
    value.locatedLeaves = value.children.flatMap fun e =>
      e.2.locatedLeaves.map fun leaf => (e.1 :: leaf.1, leaf.2) := by
  rw [locatedLeaves, if_neg (by simp [h])]
  conv => rhs; rw [← List.attach_map_subtype_val value.children, List.flatMap_map]

/-- The walk collects the leaves with the texts along their locations, but for an empty text. -/
theorem leavesAt_eq_map_locatedLeaves (style : PositionStyle) (path : String) (value : Json) :
    value.leavesAt style path =
      (value.locatedLeaves.map fun leaf => (leaf.1.foldl style.extend path, leaf.2)).filter
        fun entry => !entry.1.isEmpty := by
  induction value using induction_children generalizing path with
  | h value ih =>
    cases hs : value.isScalar with
    | true =>
      rw [leavesAt_scalar style path hs, locatedLeaves_scalar hs]
      cases hp : path.isEmpty <;> simp [hp]
    | false =>
      rw [leavesAt_children style path hs, locatedLeaves_children hs, List.map_flatMap,
        List.filter_flatMap]
      refine List.flatMap_congr fun e he => ?_
      rw [ih e he, List.map_map]
      rfl

theorem locatedLeaves_eq_filter (value : Json) :
    value.locatedLeaves = value.located.filter fun found => found.2.isScalar := by
  induction value using induction_children with
  | h value ih =>
    cases hs : value.isScalar with
    | true =>
      rw [locatedLeaves_scalar hs, located_scalar hs]
      simp [hs]
    | false =>
      rw [locatedLeaves_children hs, located_children, List.filter_cons_of_neg (by simp [hs]),
        List.filter_flatMap]
      refine List.flatMap_congr fun e he => ?_
      rw [ih e he, List.filter_map]
      rfl

theorem mem_locatedLeaves {value leaf : Json} {location : Location} (h : value.WellFormed) :
    (location, leaf) ∈ value.locatedLeaves ↔
      location.get? value = some leaf ∧ leaf.isScalar = true := by
  rw [locatedLeaves_eq_filter, List.mem_filter, mem_located h]

theorem nodup_locatedLeaves {value : Json} (h : value.WellFormed) :
    (value.locatedLeaves.map Prod.fst).Nodup := by
  rw [locatedLeaves_eq_filter]
  exact (nodup_located h).sublist (List.filter_sublist.map Prod.fst)

end Json

end DocPath
