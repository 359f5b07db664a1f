import DocPath.Proofs.Places.Existing

/-! # Planned places

A place at which a path arrives has the value that the document has there. A place that a write
plans has none where the path appends on the way, for any length of the lists, and it is never below
a scalar other than null.
-/

namespace DocPath

open Location

/-- A value of the kind into which a step leads. Null stands for what is not there yet. -/
def Json.Takes (value : Json) : Step → Prop
  | .key _ => ∃ members, value.orEmptyObject = .object members
  | .index _ => ∃ items, value.orEmptyList = .list items

theorem Json.Admits.takes {value : Json} {step : Step} (h : value.Admits step) :
    value.Takes step := by
  cases step with
  | key name => exact h
  | index position =>
    obtain ⟨items, hi, -⟩ := h
    exact ⟨items, hi⟩

theorem Access.Opens.takes {access : Access} {node : Option Json} {step : Step}
    (h : access.Opens node step) : (node.getD .null).Takes step := by
  cases access with
  | read =>
    obtain ⟨child, hc⟩ := Option.isSome_iff_exists.mp h
    obtain ⟨value, rfl, hc⟩ := Option.bind_eq_some_iff.mp hc
    exact Json.Admits.takes (Access.opens_of_child? .write hc)
  | write => exact Json.Admits.takes h

namespace Place

variable {place p : Place} {next : List Place}

/-- A place one step further, with the value that is there. -/
def Below (place next : Place) : Prop :=
  ∃ step, (place.value.getD .null).Takes step ∧
    next = place.extend step (place.value.bind (·.child? step))

theorem below_of_mem_append (h : place.follow .write .append = .ok next) (hp : p ∈ next) :
    p.value = none ∧ place.Below p := by
  obtain ⟨location, value⟩ := place
  rcases value with _ | value
  · cases h
    obtain rfl := List.mem_singleton.mp hp
    exact ⟨rfl, .index 0, ⟨[], rfl⟩, rfl⟩
  cases value with
  | null =>
    cases h
    obtain rfl := List.mem_singleton.mp hp
    exact ⟨rfl, .index 0, ⟨[], rfl⟩, rfl⟩
  | list items =>
    cases h
    obtain rfl := List.mem_singleton.mp hp
    refine ⟨rfl, .index items.length, ⟨items, rfl⟩, ?_⟩
    have hi : (Json.list items).child? (.index items.length) = none :=
      List.getElem?_eq_none (Nat.le_refl _)
    rw [Option.bind_some, hi]
  | _ => nomatch h

theorem below_of_mem_elements (h : place.follow .read .append = .ok next) (hp : p ∈ next) :
    place.Below p := by
  obtain ⟨location, value⟩ := place
  rcases value with _ | value
  · cases h
    nomatch hp
  cases value with
  | list items =>
    cases h
    obtain ⟨position, hl, rfl⟩ := List.mem_mapIdx.mp hp
    refine ⟨.index position, ⟨items, rfl⟩, ?_⟩
    have hi : (Json.list items).child? (.index position) = some items[position] :=
      List.getElem?_eq_getElem hl
    rw [Option.bind_some, hi]
  | _ =>
    cases h
    nomatch hp

theorem below_of_mem {access : Access} {segment : Segment}
    (h : place.follow access segment = .ok next) (hp : p ∈ next) : place.Below p := by
  by_cases hs : segment = .append
  · subst hs
    cases access with
    | read => exact below_of_mem_elements h hp
    | write => exact (below_of_mem_append h hp).2
  · obtain ⟨step, -, ho, he⟩ := next_of_mem (fun ha => absurd ha hs) h hp
    exact ⟨step, ho.takes, he⟩

theorem not_mem_follow_scalar {segment : Segment} {value : Json} (hv : place.value = some value)
    (hs : value.isScalar = true) (hn : value.kind ≠ .null)
    (h : place.follow .write segment = .ok next) : p ∉ next := by
  obtain ⟨location, _⟩ := place
  obtain rfl := hv
  cases value with
  | null => exact absurd rfl hn
  | list | object => nomatch hs
  | _ =>
    cases segment with
    | filter =>
      cases h
      exact List.not_mem_nil
    | _ => nomatch h

end Place

namespace Path

variable {path : Path} {document : Json} {places : List Place}

theorem get?_of_mem_places {access : Access} (h : path.places access document = .ok places)
    {place : Place} (hp : place ∈ places) : place.location.get? document = place.value := by
  refine places_induction (motive := fun _ places =>
    ∀ place ∈ places, place.location.get? document = place.value) ?_ ?_ h place hp
  · exact List.forall_mem_singleton.mpr rfl
  · intro path segment places next _ ih hn p hp
    obtain ⟨q, hq, part, hf, hp⟩ := Segment.exists_of_mem_advance hn hp
    obtain ⟨step, -, rfl⟩ := Place.below_of_mem hf hp
    rw [Place.extend, get?_append_singleton, ih q hq]

theorem value_of_mem_places_append (ha : .append ∈ path)
    (h : path.places .write document = .ok places) {place : Place} (hp : place ∈ places) :
    place.value = none := by
  refine places_induction (motive := fun path places =>
    .append ∈ path → ∀ place ∈ places, place.value = none) nofun ?_ h ha place hp
  intro path segment places next _ ih hn ha p hp
  obtain ⟨q, hq, part, hf, hp⟩ := Segment.exists_of_mem_advance hn hp
  rcases List.mem_append.mp ha with ha | ha
  · exact Place.value_of_mem_follow_none (ih ha q hq) hf hp
  · obtain rfl := List.mem_singleton.mp ha
    exact (Place.below_of_mem_append hf hp).1

/-- No place of a write is below a scalar other than null. -/
theorem eq_of_prefix_mem_places (h : path.places .write document = .ok places) {place : Place}
    (hp : place ∈ places) {location : Location} {value : Json}
    (hv : location.get? document = some value) (hs : value.isScalar = true)
    (hn : value.kind ≠ .null) (hl : location <+: place.location) : place.location = location := by
  refine places_induction (motive := fun _ places =>
    ∀ place ∈ places, location <+: place.location → place.location = location) ?_ ?_ h place hp hl
  · exact List.forall_mem_singleton.mpr fun hl => (List.prefix_nil.mp hl).symm
  · intro path segment places next hb ih hnext p hp hl
    obtain ⟨q, hq, part, hf, hp⟩ := Segment.exists_of_mem_advance hnext hp
    obtain ⟨step, -, rfl⟩ := Place.below_of_mem hf hp
    rcases List.prefix_concat_iff.mp hl with rfl | hl
    · rfl
    · have hqv : q.value = some value := by
        rw [← get?_of_mem_places hb hq, ih q hq hl, hv]
      exact absurd hp (Place.not_mem_follow_scalar hqv hs hn hf)

end Path

end DocPath
