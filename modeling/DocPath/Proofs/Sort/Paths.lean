import DocPath.Proofs.Places.Reached
import DocPath.Proofs.Sort.Keys
import DocPath.Values
import DocPath.Write

/-! # Paths through sorted documents

The order of keys has no influence on paths. In a document with sorted keys a path leads to the same
locations or fails in the same way, reading gives the sorted values, and a write has the same
outcome and leaves the same document but for the order of keys.
-/

namespace DocPath

open Json

namespace Place

def sorted (place : Place) : Place :=
  ⟨place.location, place.value.map (sort ∅)⟩

variable (access : Access) (place : Place)

theorem planned_sorted (step : Step) :
    place.sorted.planned access step = (place.planned access step).map sorted := by
  cases access <;> rfl

theorem plannedPast_sorted (position length : Nat) :
    place.sorted.plannedPast access position length =
      (place.plannedPast access position length).map (List.map sorted) := by
  cases access with
  | read => rfl
  | write =>
    simp only [plannedPast]
    split <;> rfl

theorem refuse_sorted (fault : TargetFault) :
    access.refuse fault = (access.refuse fault).map (List.map sorted) := by
  cases access <;> rfl

variable (location : Location)

theorem sorted_scalar {value : Json} (h : value.isScalar = true) :
    sorted ⟨location, some value⟩ = ⟨location, some value⟩ := by
  rw [sorted, Option.map_some, sort_scalar h]

theorem sorted_list (items : List Json) :
    sorted ⟨location, some (.list items)⟩ = ⟨location, some (.list (items.map (sort ∅)))⟩ := by
  rw [sorted, Option.map_some, sort_list]

theorem sorted_object (members : Members) :
    sorted ⟨location, some (.object members)⟩ =
      ⟨location, some (.object (sortMembers (members.map fun m => (m.1, m.2.sort ∅))))⟩ := by
  rw [sorted, Option.map_some, sort_object]

theorem follow_sorted (segment : Segment) :
    place.sorted.follow access segment = (place.follow access segment).map (List.map sorted) := by
  obtain ⟨location, value⟩ := place
  have absent : follow access (sorted ⟨location, none⟩) segment =
      (follow access ⟨location, none⟩ segment).map (List.map sorted) := by
    cases segment with
    | field name => exact congrArg Except.ok (planned_sorted ..)
    | index position => exact plannedPast_sorted ..
    | append => exact congrArg Except.ok (planned_sorted ..)
    | filter constraints => rfl
  rcases value with _ | value
  · exact absent
  cases value with
  | null => rwa [sorted_scalar location rfl, follow_null]
  | list items =>
    rw [sorted_list]
    cases segment with
    | field name => exact refuse_sorted ..
    | index position =>
      simp only [follow, List.getElem?_map, List.length_map]
      cases items[position]? with
      | none => exact plannedPast_sorted access ⟨location, none⟩ position items.length
      | some child => rfl
    | append =>
      cases access with
      | read =>
        simp [follow, List.mapIdx_eq_zipIdx_map, List.zipIdx_map, Except.map, extend, sorted]
      | write =>
        simp only [follow, List.length_map]
        rfl
    | filter constraints =>
      simp [follow, List.zipIdx_map, List.filter_map, Except.map, Function.comp_def,
        satisfies_sort, extend, sorted]
  | object members =>
    rw [sorted_object]
    cases segment with
    | field name =>
      simp only [follow, get?_sort_members]
      cases Members.get? members name with
      | none => exact congrArg Except.ok (planned_sorted access ⟨location, none⟩ (.key name))
      | some child => rfl
    | filter constraints => rfl
    | _ => exact refuse_sorted ..
  | _ =>
    rw [sorted_scalar location rfl]
    cases segment with
    | filter constraints => rfl
    | _ => exact refuse_sorted ..

end Place

theorem Segment.advance_sorted (access : Access) (segment : Segment) (places : List Place) :
    segment.advance access (places.map Place.sorted) =
      (segment.advance access places).map (List.map Place.sorted) := by
  induction places with
  | nil => rfl
  | cons place places ih =>
    rw [List.map_cons, advance_cons, advance_cons, Place.follow_sorted, ih]
    cases place.follow access segment with
    | error fault => rfl
    | ok front =>
      cases segment.advance access places with
      | error fault => rfl
      | ok back => exact congrArg Except.ok List.map_append.symm

namespace Path

variable (access : Access) (path : Path) (document value : Json)

/-- A path leads to the places with sorted values, or fails with the same fault. -/
theorem places_sort : path.places access (document.sort ∅) =
    (path.places access document).map (List.map Place.sorted) := by
  induction path using List.reverseRecOn with
  | nil => rfl
  | append_singleton front segment ih =>
    rw [places_append_singleton, places_append_singleton, ih]
    cases Path.places access front document with
    | error fault => rfl
    | ok places => exact segment.advance_sorted access places

theorem locations_sort :
    path.locations access (document.sort ∅) = path.locations access document := by
  rw [locations, locations, places_sort]
  cases path.places access document with
  | error fault => rfl
  | ok places =>
    change Except.ok ((places.map Place.sorted).map Place.location) = _
    rw [List.map_map]
    rfl

theorem values_sort :
    path.values (document.sort ∅) = (path.values document).map (List.map (sort ∅)) := by
  rw [values, values, places_sort]
  cases path.places .read document with
  | error fault => rfl
  | ok places =>
    change Except.ok ((places.map Place.sorted).filterMap Place.value) =
      Except.ok ((places.filterMap Place.value).map (sort ∅))
    rw [List.filterMap_map, List.map_filterMap]
    rfl

end Path

namespace Json

theorem sort_getD_null (value : Option Json) :
    (value.getD .null).sort ∅ = (value.map (sort ∅)).getD .null := by
  cases value with
  | none => exact sort_scalar rfl
  | some value => rfl

theorem map_padTo_sort (position : Nat) (items : List Json) :
    (padTo position items).map (sort ∅) = padTo position (items.map (sort ∅)) := by
  rw [padTo, padTo, List.map_append, List.map_replicate, sort_scalar rfl, List.length_map]

end Json

structure Assigned.Matches (first second : Assigned) : Prop where
  document : first.document.sort ∅ = second.document.sort ∅
  fault : first.fault = second.fault

theorem Assigned.Matches.andThen {first second : Assigned} {next : Json → Assigned}
    (h : first.Matches second)
    (hn : ∀ document other, document.sort ∅ = other.sort ∅ → (next document).Matches (next other)) :
    (first.andThen next).Matches (second.andThen next) := by
  obtain ⟨document, fault⟩ := first
  obtain ⟨other, fault'⟩ := second
  obtain ⟨hd, hf⟩ := h
  obtain rfl : fault = fault' := hf
  cases fault with
  | none => exact hn document other hd
  | some fault => exact ⟨hd, rfl⟩

namespace Location

variable {document other : Json}

theorem assign_matches (value : Json) (location : Location) (h : document.sort ∅ = other.sort ∅) :
    (location.assign value document).Matches (location.assign value other) := by
  induction location generalizing document other with
  | nil => exact ⟨rfl, rfl⟩
  | cons step rest ih =>
    obtain ⟨-, rfl⟩ | ⟨items, others, rfl, rfl, hi⟩ | ⟨members, others, rfl, rfl, hm⟩ :=
      sort_eq_sort_iff.mp h
    · exact ⟨rfl, rfl⟩
    · cases step with
      | key name => exact ⟨h, rfl⟩
      | index position =>
        have hl : items.length = others.length := by
          simpa using congrArg List.length hi
        have hp : (padTo position items).map (sort ∅) = (padTo position others).map (sort ∅) := by
          rw [map_padTo_sort, hi, map_padTo_sort]
        have hc : ((padTo position items)[position]?.getD .null).sort ∅ =
            ((padTo position others)[position]?.getD .null).sort ∅ := by
          rw [sort_getD_null, sort_getD_null, ← List.getElem?_map, hp, List.getElem?_map]
        obtain ⟨hd, hf⟩ := ih hc
        simp only [assign, orEmptyList, hl]
        split
        · exact ⟨h, rfl⟩
        · refine ⟨?_, hf⟩
          rw [sort_list, sort_list, List.map_set, List.map_set, hp, hd]
    · cases step with
      | key name =>
        have hc : ((Members.get? members name).getD .null).sort ∅ =
            ((Members.get? others name).getD .null).sort ∅ := by
          rw [sort_getD_null, sort_getD_null, ← get?_sort_members, hm, get?_sort_members]
        obtain ⟨hd, hf⟩ := ih hc
        simp only [assign, orEmptyObject]
        refine ⟨?_, hf⟩
        rw [sort_object, sort_object, Members.map_put, Members.map_put, hd, sortMembers_put hm]
      | index position => exact ⟨h, rfl⟩

theorem assignAll_matches (value : Json) (locations : List Location)
    (h : document.sort ∅ = other.sort ∅) :
    (assignAll value locations document).Matches (assignAll value locations other) := by
  induction locations generalizing document other with
  | nil => exact ⟨h, rfl⟩
  | cons location rest ih =>
    rw [assignAll_cons, assignAll_cons]
    exact (assign_matches value location h).andThen fun _ _ => ih

end Location

/-- The order of keys has no influence on paths. A path leads to the same locations in a document
with sorted keys, or fails in the same way; reading gives the sorted values in the same order; and a
write has the same outcome and leaves the same document but for the order of keys. -/
theorem paths_ignore_key_order (path : Path) (document value : Json) :
    (∀ access, path.locations access (document.sort ∅) = path.locations access document) ∧
    path.values (document.sort ∅) = (path.values document).map (List.map (sort ∅)) ∧
    (path.write value (document.sort ∅)).outcome = (path.write value document).outcome ∧
    (path.write value (document.sort ∅)).document.sort ∅ =
      (path.write value document).document.sort ∅ := by
  refine ⟨fun access => path.locations_sort access document, path.values_sort document, ?_⟩
  have hs := sort_sort document
  simp only [Path.write, kind_sort, Path.locations_sort]
  split
  · exact ⟨rfl, hs⟩
  split
  · exact ⟨rfl, hs⟩
  split
  · exact ⟨rfl, hs⟩
  split
  · exact ⟨rfl, hs⟩
  · next locations hl =>
    obtain ⟨hd, hf⟩ := Location.assignAll_matches value locations hs
    rcases ha : Location.assignAll value locations document with ⟨next, fault⟩
    rcases hb : Location.assignAll value locations (document.sort ∅) with ⟨other, fault'⟩
    rw [ha, hb] at hd hf
    obtain rfl : fault' = fault := hf
    cases fault' <;> exact ⟨rfl, hd⟩

end DocPath
