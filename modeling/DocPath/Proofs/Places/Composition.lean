import DocPath.Proofs.General
import DocPath.Proofs.Places.Planned

/-! # Paths in two parts

A path may be cut anywhere: its second part is followed from the value at each location of the
first one, where null stands for what is not there yet. So reading descends along the segments of a
path, through one branch after the other.
-/

namespace DocPath

section Gather

variable {α β : Type}

theorem gather?_congr {f g : α → Option (List β)} {as : List α} (h : ∀ a ∈ as, f a = g a) :
    gather? f as = gather? g as := by
  induction as with
  | nil => rfl
  | cons a as ih =>
    obtain ⟨ha, hr⟩ := List.forall_mem_cons.mp h
    rw [gather?_cons, gather?_cons, ha, ih hr]

theorem exists_gather?_iff {f : α → Option (List β)} {as : List α} :
    (∃ found, gather? f as = some found) ↔ ∀ a ∈ as, ∃ front, f a = some front := by
  induction as with
  | nil => simp
  | cons a as ih =>
    rw [List.forall_mem_cons, ← ih]
    constructor
    · rintro ⟨found, h⟩
      obtain ⟨front, back, hf, hb, -⟩ := gather?_eq_some_cons_iff.mp h
      exact ⟨⟨front, hf⟩, back, hb⟩
    · rintro ⟨⟨front, hf⟩, back, hb⟩
      exact ⟨front ++ back, gather?_eq_some_cons_iff.mpr ⟨front, back, hf, hb, rfl⟩⟩

end Gather

def Location.valueOrNull (location : Location) (document : Json) : Json :=
  (location.get? document).getD .null

namespace Location

variable {location : Location} {document : Json}

theorem valueOrNull_null (location : Location) : location.valueOrNull .null = .null := by
  cases location with
  | nil => rfl
  | cons step rest => cases step <;> rfl

theorem valueOrNull_cons (step : Step) (rest : Location) (document : Json) :
    valueOrNull (step :: rest) document = rest.valueOrNull ((document.child? step).getD .null) := by
  rw [valueOrNull, get?_cons]
  cases document.child? step with
  | none => exact (valueOrNull_null rest).symm
  | some child => rfl

theorem get?_of_valueOrNull {value : Json} (h : location.valueOrNull document = value)
    (hn : value.kind ≠ .null) : location.get? document = some value := by
  subst h
  rw [valueOrNull] at hn ⊢
  cases hg : location.get? document with
  | none =>
    rw [hg] at hn
    exact absurd rfl hn
  | some value => rfl

theorem get?_of_valueOrNull_list {items : List Json}
    (h : location.valueOrNull document = .list items) :
    location.get? document = some (.list items) :=
  get?_of_valueOrNull h nofun

end Location

namespace Path

variable (access : Access) (front back path : Path)

theorem reach?_append (place : Place) :
    (front ++ back).reach? access place =
      (front.reach? access place).bind (gather? (back.reach? access)) := by
  induction front generalizing place with
  | nil => exact (gather?_singleton (back.reach? access) place).symm
  | cons segment rest ih =>
    rw [List.cons_append, reach?, reach?, Option.bind_assoc]
    simp only [gather?_bind, ← ih]

theorem toOption_locations_eq_reach? (document : Json) :
    (path.locations access document).toOption =
      (path.reach? access (Place.root document)).map (List.map Place.location) := by
  rw [← toOption_places, locations]
  cases path.places access document <;> rfl

theorem reach?_null (location : Location) :
    (path.reach? access ⟨location, none⟩).map (List.map Place.location) =
      (path.reach? access ⟨location, some .null⟩).map (List.map Place.location) := by
  cases path with
  | nil => rfl
  | cons segment rest => rw [reach?, reach?, Place.follow_null]

theorem map_location_reach? (place : Place) :
    (path.reach? access place).map (List.map Place.location) =
      (path.locations access (place.value.getD .null)).toOption.map
        (List.map (place.location ++ ·)) := by
  have hv : (path.reach? access ⟨[], place.value⟩).map (List.map Place.location) =
      (path.reach? access (Place.root (place.value.getD .null))).map
        (List.map Place.location) := by
    cases place.value with
    | none => exact path.reach?_null access []
    | some value => rfl
  rw [toOption_locations_eq_reach?, ← hv, reach?_eq_map_under, Option.map_map, Option.map_map]
  congr 1
  funext places
  simp [Function.comp_def]

/-- The second part of a path is followed from each location of the first one. -/
theorem toOption_locations_append (document : Json) :
    ((front ++ back).locations access document).toOption =
      (front.locations access document).toOption.bind
        (gather? fun head => (back.locations access (head.valueOrNull document)).toOption.map
          (List.map (head ++ ·))) := by
  rw [toOption_locations_eq_reach?, toOption_locations_eq_reach?, reach?_append]
  cases hf : front.reach? access (Place.root document) with
  | none => rfl
  | some places =>
    rw [Option.bind_some, Option.map_some, Option.bind_some, map_gather?, gather?_map]
    refine gather?_congr fun place hp => ?_
    have hv := get?_of_mem_places (places_eq_ok_iff.mpr hf) hp
    rw [map_location_reach?, Function.comp_apply, Location.valueOrNull, hv]

end Path

namespace Json

def elements : Json → List Json
  | .list items => items
  | _ => []

/-- The values inside a value that a segment selects for reading, in document order. -/
def select (value : Json) : Segment → List Json
  | .field name => (value.member? name).toList
  | .index position => (value.item? position).toList
  | .append => value.elements
  | .filter constraints => value.elements.filter (·.satisfies constraints)

/-- The values along a path, each branch followed to its end before the next one. -/
def valuesAlong : Path → Json → List Json
  | [], value => [value]
  | segment :: rest, value => (value.select segment).flatMap (valuesAlong rest)

end Json

theorem Place.follow_read_select (location : Location) (value : Json) (segment : Segment) :
    (follow .read ⟨location, some value⟩ segment).toOption.map (List.map Place.value) =
      some ((value.select segment).map some) := by
  cases segment with
  | field name =>
    cases value with
    | object members =>
      simp only [follow, Json.select, Json.member?]
      cases Members.get? members name <;> rfl
    | _ => rfl
  | index position =>
    cases value with
    | list items =>
      simp only [follow, Json.select, Json.item?]
      cases items[position]? <;> rfl
    | _ => rfl
  | append =>
    cases value with
    | list items =>
      have hm : (items.zipIdx.map Prod.fst).map some = items.map some := by
        rw [List.zipIdx_map_fst]
      simp only [follow, Except.toOption, List.mapIdx_eq_zipIdx_map, Option.map_some, List.map_map]
      rw [List.map_map] at hm
      exact congrArg some hm
    | _ => rfl
  | filter constraints =>
    cases value with
    | list items =>
      have hm : ((items.zipIdx.map Prod.fst).filter (·.satisfies constraints)).map some =
          (items.filter (·.satisfies constraints)).map some := by
        rw [List.zipIdx_map_fst]
      simp only [follow, Except.toOption, Option.map_some, List.map_map]
      rw [List.filter_map, List.map_map] at hm
      exact congrArg some hm
    | _ => rfl

namespace Path

variable (path : Path) (document : Json)

theorem reach?_read_valuesAlong (value : Json) (location : Location) :
    (path.reach? .read ⟨location, some value⟩).map (List.map Place.value) =
      some ((value.valuesAlong path).map some) := by
  induction path generalizing value location with
  | nil => rfl
  | cons segment rest ih =>
    -- what lies below a place depends on its value alone
    have below (place : Place) : (reach? .read rest place).map (List.map Place.value) =
        (reach? .read rest ⟨[], place.value⟩).map (List.map Place.value) := by
      rw [reach?_eq_map_under, Option.map_map]
      congr 1
      funext places
      simp [Function.comp_def]
    have hs := Place.follow_read_select location value segment
    obtain ⟨next, hf, hv⟩ := Option.map_eq_some_iff.mp hs
    rw [reach?, hf, Option.bind_some, map_gather?, gather?_congr fun place _ => below place]
    change gather? ((fun node => (reach? .read rest ⟨[], node⟩).map (List.map Place.value)) ∘
      Place.value) next = _
    rw [← gather?_map, hv, gather?_map, Json.valuesAlong, List.map_flatMap]
    exact gather?_eq_flatMap fun child _ => ih child []

theorem exists_places_read_values : ∃ places, path.places .read document = .ok places ∧
    places.map Place.value = (document.valuesAlong path).map some := by
  obtain ⟨places, hr, hv⟩ :=
    Option.map_eq_some_iff.mp (path.reach?_read_valuesAlong document [])
  exact ⟨places, places_eq_ok_iff.mpr hr, hv⟩

theorem values_eq_valuesAlong : path.values document = .ok (document.valuesAlong path) := by
  obtain ⟨places, hp, hv⟩ := path.exists_places_read_values document
  rw [values, hp]
  have hm : (places.map Place.value).filterMap id = document.valuesAlong path := by
    rw [hv, List.filterMap_map]
    exact List.filterMap_some
  rw [List.filterMap_map] at hm
  exact congrArg Except.ok hm

theorem exists_locations_read : ∃ locations, path.locations .read document = .ok locations ∧
    ∀ location ∈ locations, (location.get? document).isSome = true := by
  obtain ⟨places, hp, hv⟩ := path.exists_places_read_values document
  refine ⟨places.map Place.location, locations_eq_ok_iff.mpr ⟨places, hp, rfl⟩, ?_⟩
  refine List.forall_mem_map.mpr fun place hm => ?_
  have hm' : place.value ∈ (document.valuesAlong path).map some :=
    hv ▸ List.mem_map_of_mem hm
  obtain ⟨value, -, he⟩ := List.mem_map.mp hm'
  rw [get?_of_mem_places hp hm, ← he]
  rfl

section Append

variable {access : Access} {front back : Path} {document : Json}

theorem exists_locations_append_iff :
    (∃ locations, (front ++ back).locations access document = .ok locations) ↔
      ∃ heads, front.locations access document = .ok heads ∧
        ∀ head ∈ heads, ∃ tails, back.locations access (head.valueOrNull document) = .ok tails := by
  simp only [← toOption_eq_some_iff, toOption_locations_append, Option.bind_eq_some_iff]
  rw [exists_comm]
  refine exists_congr fun heads => ?_
  rw [exists_and_left, exists_gather?_iff]
  simp only [Option.map_eq_some_iff]
  constructor
  · rintro ⟨hh, ht⟩
    refine ⟨hh, fun head hm => ?_⟩
    obtain ⟨_, tails, hb, -⟩ := ht head hm
    exact ⟨tails, hb⟩
  · rintro ⟨hh, ht⟩
    refine ⟨hh, fun head hm => ?_⟩
    obtain ⟨tails, hb⟩ := ht head hm
    exact ⟨_, tails, hb, rfl⟩

theorem locations_append {heads : List Location} {tails : Location → List Location}
    (hh : front.locations access document = .ok heads)
    (ht : ∀ head ∈ heads,
      back.locations access (head.valueOrNull document) = .ok (tails head)) :
    (front ++ back).locations access document =
      .ok (heads.flatMap fun head => (tails head).map (head ++ ·)) := by
  rw [← toOption_eq_some_iff, toOption_locations_append, hh]
  refine gather?_eq_flatMap fun head hm => ?_
  rw [ht head hm]
  rfl

end Append

end Path

/-- A path in two parts can be followed exactly when its first part can, and its second part can
from the value at each location of the first one, where null stands for what is not there yet; it
then leads to the locations of the second part with those of the first one in front, in their
order. Reading never fails and only leads to what is there. Its values are those that are found
along the path, one branch after the other, and the first of them is that of all branches. -/
theorem locations_compose (access : Access) (front back : Path) (document : Json) :
    ((∃ locations, (front ++ back).locations access document = .ok locations) ↔
      ∃ heads, front.locations access document = .ok heads ∧
        ∀ head ∈ heads, ∃ tails, back.locations access (head.valueOrNull document) = .ok tails) ∧
    (∀ (heads : List Location) (tails : Location → List Location),
      front.locations access document = .ok heads →
      (∀ head ∈ heads, back.locations access (head.valueOrNull document) = .ok (tails head)) →
        (front ++ back).locations access document =
          .ok (heads.flatMap fun head => (tails head).map (head ++ ·))) ∧
    (∀ path : Path, ∃ locations, path.locations .read document = .ok locations ∧
      ∀ location ∈ locations, (location.get? document).isSome = true) ∧
    ∀ path : Path, path.values document = .ok (document.valuesAlong path) ∧
      path.firstValue document = .ok (document.valuesAlong path).head? := by
  refine ⟨Path.exists_locations_append_iff, fun heads tails => Path.locations_append,
    fun path => path.exists_locations_read document, fun path => ?_⟩
  rw [Path.firstValue, path.values_eq_valuesAlong document]
  exact ⟨rfl, rfl⟩

def peopleWithZips : Json :=
  .object [("people", .list [.object [("state", .string "CA")], .null,
    .object [("state", .string "CA"), ("zip", .list [.null])]])]

theorem locations_compose_people :
    Path.locations .write [.field "people", .filter [⟨"state", "CA"⟩]] peopleWithZips =
      .ok [[.key "people", .index 0], [.key "people", .index 2]] ∧
    Path.locations .write [.field "people", .filter [⟨"state", "CA"⟩], .field "zip", .append]
      peopleWithZips = .ok [[.key "people", .index 0, .key "zip", .index 0],
        [.key "people", .index 2, .key "zip", .index 1]] := by
  have hh : Path.locations .write [.field "people", .filter [⟨"state", "CA"⟩]] peopleWithZips =
      .ok [[.key "people", .index 0], [.key "people", .index 2]] := rfl
  refine ⟨hh, (locations_compose .write _ [.field "zip", .append] _).2.1 _
    (fun head => if head = [.key "people", .index 0] then [[.key "zip", .index 0]]
      else [[.key "zip", .index 1]]) hh ?_⟩
  exact List.forall_mem_cons.mpr ⟨rfl, List.forall_mem_singleton.mpr rfl⟩

end DocPath
