import DocPath.Proofs.Places.Read
import DocPath.Proofs.Write.Atomicity
import DocPath.Proofs.Write.Independent

/-! # Operations at several locations

A path may lead to many locations. Reading it is reading the text of each of them, and writing it is
writing the text of each of them, one location at a time and in any order.
-/

namespace DocPath

open Location

namespace Path

theorem exists_reached_of_mem_locations {path : Path} {access : Access} {document : Json}
    (ha : document.Addressable) {locations : List Location}
    (h : path.locations access document = .ok locations) {location : Location}
    (hm : location ∈ locations) :
    ∃ value, Place.Reached access document path ⟨location, value⟩ := by
  obtain ⟨places, hp, rfl⟩ := locations_eq_ok_iff.mp h
  obtain ⟨place, hplace, rfl⟩ := List.mem_map.mp hm
  exact ⟨place.value, reached_of_mem_places ha hp place hplace⟩

theorem independent_locations {path : Path} {document : Json} (ha : document.Addressable)
    {locations : List Location} (h : path.locations .write document = .ok locations) :
    Independent locations document := by
  constructor
  · intro location hm
    obtain ⟨value, hr⟩ := exists_reached_of_mem_locations ha h hm
    exact hr.opens
  · obtain ⟨places, hp, rfl⟩ := locations_eq_ok_iff.mp h
    exact List.pairwise_map.mpr (pairwise_apart hp)

theorem write_eq_ok {path : Path} {value document result : Json} {n : Nat}
    (ha : document.Addressable) (h : path.write value document = ⟨result, .ok n⟩) :
    document.kind ≠ .null ∧ ∃ locations, path.locations .write document = .ok locations ∧
      locations.length = n ∧ assignAll value locations document = ⟨result, none⟩ := by
  by_cases hg : document.kind = .null ∨ path = [] ∨ path.endsInFilter = true
  · obtain ⟨error, hw⟩ := write_of_guard value hg
    rw [hw] at h
    nomatch h
  simp only [not_or, Bool.not_eq_true] at hg
  obtain ⟨hd, hp, hf⟩ := hg
  refine ⟨hd, ?_⟩
  cases hl : path.locations .write document with
  | error error =>
    rw [write_of_locations_error hd hp hf hl] at h
    nomatch h
  | ok locations =>
    have hn : assignAll value locations document =
        ⟨(assignAll value locations document).document, none⟩ := by
      rw [← assignAll_locations_fault value ha hl]
    rw [write_of_locations_ok hd hp hf hl hn] at h
    cases h
    exact ⟨locations, rfl, rfl, hn⟩

end Path

theorem forall₂_valueAt_render {document : Json} {path : Path} {places : List Place}
    (ha : document.Addressable) (hw : path.WellFormed)
    (h : ∀ place ∈ places, place.Reached .read document path) :
    List.Forall₂ (fun location value => document.valueAt location.render = .ok (some value))
      (places.map Place.location) (places.filterMap Place.value) := by
  induction places with
  | nil => exact .nil
  | cons place places ih =>
    obtain ⟨hp, h⟩ := List.forall_mem_cons.mp h
    obtain ⟨value, hv⟩ := Option.isSome_iff_exists.mp hp.isSome_value
    rw [List.map_cons, List.filterMap_cons_some hv]
    exact .cons (Json.valueAt_render (hp.wellFormed ha hw) (hp.get?_location.trans hv)) (ih h)

/-- Reading a path gives the values at the texts of its locations, in their order. A write through
a path that succeeds is, in whatever order, the writes through the texts of its locations, each of
which writes at one place. The text of a location is read as a path, which leads to that location
alone for the same access. -/
theorem fan_out_pointwise {document : Json} (ha : document.Addressable) {text : String}
    {path : Path} (hp : Path.parse text = .ok path) :
    (∃ locations values, path.locations .read document = .ok locations ∧
      document.valuesAt text = .ok values ∧
      List.Forall₂ (fun location value => document.valueAt location.render = .ok (some value))
        locations values) ∧
    (∀ (value result : Json) (n : Nat), document.write text value = ⟨result, .ok n⟩ →
      ∃ locations, path.locations .write document = .ok locations ∧ locations.length = n ∧
        ∀ order, locations.Perm order → Json.WritesInTurn
          (order.map fun location => (location.render, value)) document result) ∧
    ∀ access locations, path.locations access document = .ok locations →
      ∀ location ∈ locations, Path.parse location.render = .ok location.path ∧
        location.path.locations access document = .ok [location] := by
  have hw := Path.wellFormed_of_parse hp
  refine ⟨?_, ?_, ?_⟩
  · obtain ⟨places, hpl⟩ := path.exists_places_read document
    refine ⟨places.map Place.location, places.filterMap Place.value,
      Path.locations_eq_ok_iff.mpr ⟨places, hpl, rfl⟩, ?_, ?_⟩
    · rw [Json.valuesAt, hp]
      change path.values document = _
      rw [Path.values, hpl]
      rfl
    · exact forall₂_valueAt_render ha hw (Path.reached_of_mem_places ha hpl)
  · intro value result n h
    rw [Json.write, hp] at h
    obtain ⟨hd, locations, hl, hn, has⟩ := Path.write_eq_ok ha h
    refine ⟨locations, hl, hn, fun order ho => ?_⟩
    have hi := Path.independent_locations ha hl
    have hr := (hi.perm ho).writesInTurn (fun location hm => ?_) hd value
    · rwa [← hi.assignAll_perm ho, has] at hr
    · obtain ⟨_, hr⟩ := Path.exists_reached_of_mem_locations ha hl (ho.mem_iff.mpr hm)
      exact hr.wellFormed ha hw
  · intro access locations h location hm
    obtain ⟨_, hr⟩ := Path.exists_reached_of_mem_locations ha h hm
    exact ⟨parse_render (hr.wellFormed ha hw), locations_path hr.opens⟩

theorem fan_out_pointwise_people :
    peopleInCA.Addressable ∧
    Path.parse "people[{state=CA}].zip[1]" =
      .ok [.field "people", .filter [⟨"state", "CA"⟩], .field "zip", .index 1] ∧
    Json.WritesInTurn [("people[2].zip[1]", .bool true), ("people[0].zip[1]", .bool true)]
      peopleInCA peopleRevised := by
  have ha : peopleInCA.Addressable := by
    simp [peopleInCA, positionLimit, UInt64.size]
  have hb : Balanced (filterTexts [⟨"state", "CA"⟩]) := by decide
  have hp : Path.parse "people[{state=CA}].zip[1]" =
      .ok [.field "people", .filter [⟨"state", "CA"⟩], .field "zip", .index 1] := by
    refine @Path.parse_render [.field "people", .filter [⟨"state", "CA"⟩], .field "zip",
      .index 1] ?_
    simp [Path.WellFormed, Segment.WellFormed, Constraint.WellFormed, positionLimit, UInt64.size,
      hb]
  obtain ⟨locations, hl, -, hw⟩ := (fan_out_pointwise ha hp).2.1 (.bool true) peopleRevised 2
    (by rw [Json.write, hp]; rfl)
  have hn : Except.ok _ = Except.ok locations := hl
  cases hn
  exact ⟨ha, hp, hw [[.key "people", .index 2, .key "zip", .index 1],
    [.key "people", .index 0, .key "zip", .index 1]] (List.Perm.swap ..)⟩

end DocPath
