import DocPath.Proofs.Places.Reached
import DocPath.Values

/-! # Places for reading

Reading drops what it does not find and never fails, and all places that it reaches have values. At
the text of a location it finds the value there and no other one.
-/

namespace DocPath

namespace Place

variable {place : Place}

theorem exists_follow_read (place : Place) (segment : Segment) :
    ∃ next, place.follow .read segment = .ok next := by
  obtain ⟨location, value⟩ := place
  rcases value with _ | value
  · cases segment <;> exact ⟨_, rfl⟩
  cases segment with
  | field name =>
    cases value with
    | object members =>
      simp only [follow]
      split <;> exact ⟨_, rfl⟩
    | _ => exact ⟨_, rfl⟩
  | index position =>
    cases value with
    | list items =>
      simp only [follow]
      split <;> exact ⟨_, rfl⟩
    | _ => exact ⟨_, rfl⟩
  | append => cases value <;> exact ⟨_, rfl⟩
  | filter constraints => cases value <;> exact ⟨_, rfl⟩

theorem Reached.isSome_value {document : Json} {path : Path}
    (h : Reached .read document path place) : place.value.isSome = true := by
  cases h with
  | root => rfl
  | step _ hn =>
    obtain ⟨step, -, ho, rfl⟩ := hn
    exact ho

end Place

theorem Segment.exists_advance_read (segment : Segment) (places : List Place) :
    ∃ next, segment.advance .read places = .ok next := by
  induction places with
  | nil => exact ⟨[], rfl⟩
  | cons place places ih =>
    obtain ⟨front, hf⟩ := place.exists_follow_read segment
    obtain ⟨back, hb⟩ := ih
    exact ⟨front ++ back, advance_cons_eq_ok_iff.mpr ⟨front, back, hf, hb, rfl⟩⟩

theorem Path.exists_places_read (path : Path) (document : Json) :
    ∃ places, path.places .read document = .ok places := by
  induction path using List.reverseRecOn with
  | nil => exact ⟨_, rfl⟩
  | append_singleton path segment ih =>
    obtain ⟨places, h⟩ := ih
    obtain ⟨next, hn⟩ := segment.exists_advance_read places
    refine ⟨next, ?_⟩
    rw [places_append_singleton, h]
    exact hn

theorem Place.follow_read_of_child?_eq_none (location : Location) {value : Json} {step : Step}
    (h : value.child? step = none) : follow .read ⟨location, some value⟩ step.segment = .ok [] := by
  cases step with
  | key name =>
    cases value with
    | object members =>
      change Members.get? members name = none at h
      simp [follow, Step.segment, h, planned]
    | _ => rfl
  | index position =>
    cases value with
    | list items =>
      change items[position]? = none at h
      simp [follow, Step.segment, h, plannedPast]
    | _ => rfl

theorem Location.places_path_read (location : Location) (document : Json) :
    location.path.places .read document =
      .ok ((location.get? document).toList.map fun value => ⟨location, some value⟩) := by
  induction location using List.reverseRecOn with
  | nil => rfl
  | append_singleton front step ih =>
    have hp : path (front ++ [step]) = path front ++ [step.segment] := path_append front [step]
    rw [hp, Path.places_append_singleton, ih, get?_append_singleton]
    cases Location.get? front document with
    | none => rfl
    | some value =>
      change Segment.advance .read step.segment [⟨front, some value⟩] = _
      rw [Option.bind_some, Segment.advance_cons_eq_ok_iff]
      cases hc : value.child? step with
      | none => exact ⟨[], [], Place.follow_read_of_child?_eq_none front hc, rfl, rfl⟩
      | some child => exact ⟨_, [], Place.follow_segment_of_child? .read front hc, rfl, rfl⟩

theorem Location.values_path (location : Location) (document : Json) :
    location.path.values document = .ok (location.get? document).toList := by
  rw [Path.values, places_path_read]
  cases location.get? document <;> rfl

namespace Json

theorem valueAt_eq (document : Json) (text : String) :
    document.valueAt text = (document.valuesAt text).map List.head? := by
  rw [valueAt, valuesAt]
  cases Path.parse text <;> rfl

variable {document value : Json} {location : Location} (hw : location.path.WellFormed)
  (hv : location.get? document = some value)
include hw hv

theorem valuesAt_render : document.valuesAt location.render = .ok [value] := by
  have hp : location.path.values document = .ok [value] := by
    rw [Location.values_path, hv]
    rfl
  rw [valuesAt, Location.parse_render hw]
  exact hp

theorem valueAt_render : document.valueAt location.render = .ok (some value) := by
  rw [valueAt_eq, valuesAt_render hw hv]
  rfl

end Json

end DocPath
