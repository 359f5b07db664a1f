import DocPath.Proofs.Places.Planned
import Mathlib.Data.List.Forall2

/-! # Places in document order

Each segment of a path gives a location one step. A segment that goes on to several elements of a
list takes them in the order of the list, so the locations of a path are in document order and none
of them is at or below another one. In a write only a filter goes on to several elements.
-/

namespace DocPath

inductive Segment.Becomes : Segment → Step → Prop where
  | field (name : String) : Becomes (.field name) (.key name)
  | index (position : Nat) : Becomes (.index position) (.index position)
  | append (position : Nat) : Becomes .append (.index position)
  | filter (constraints : List Constraint) (position : Nat) :
      Becomes (.filter constraints) (.index position)

theorem Segment.Leads.becomes {segment : Segment} {node : Option Json} {step : Step}
    (h : segment.Leads node step) : segment.Becomes step := by
  cases h with
  | field name => exact .field name
  | index position => exact .index position
  | append => exact .append _
  | filter => exact .filter _ _

/-- The test by which a segment goes on to several elements of a list. Any other segment goes on to
one place at most. -/
def Segment.fanOut? (access : Access) : Segment → Option (Json → Bool)
  | .append =>
    match access with
    | .read => some fun _ => true
    | .write => none
  | .filter constraints => some (·.satisfies constraints)
  | _ => none

theorem Segment.eq_filter_of_fanOut? {segment : Segment} {test : Json → Bool}
    (h : segment.fanOut? .write = some test) :
    ∃ constraints, segment = .filter constraints ∧ test = (·.satisfies constraints) := by
  cases segment with
  | filter constraints => exact ⟨constraints, rfl, (Option.some.inj h).symm⟩
  | _ => nomatch h

namespace Location

def positions : Location → List Nat
  | [] => []
  | .key _ :: rest => positions rest
  | .index position :: rest => position :: positions rest

/-- Two locations that share their first steps, as many as `depth`, and then go on to two elements
of one list of the document, of which the first location has the earlier one. Both elements pass
the test. -/
inductive PartAt (document : Json) (depth : Nat) (test : Json → Bool) :
    Location → Location → Prop where
  | intro {shared rest rest' : Location} {items : List Json} {i j : Nat} {item item' : Json} :
      shared.length = depth → shared.get? document = some (.list items) → i < j →
      items[i]? = some item → test item = true → items[j]? = some item' → test item' = true →
        PartAt document depth test (shared ++ .index i :: rest) (shared ++ .index j :: rest')

namespace PartAt

variable {document : Json} {depth : Nat} {test : Json → Bool} {location other : Location}
  (h : PartAt document depth test location other)
include h

theorem append (back back' : Location) :
    PartAt document depth test (location ++ back) (other ++ back') := by
  obtain ⟨hd, hg, hlt, hi, ht, hj, ht'⟩ := h
  rw [List.append_assoc, List.append_assoc, List.cons_append, List.cons_append]
  exact .intro hd hg hlt hi ht hj ht'

theorem positions_lex : List.Lex (· < ·) location.positions other.positions := by
  obtain @⟨shared, rest, rest', -, i, j, -, -, -, -, hlt, -⟩ := h
  induction shared with
  | nil => exact .rel hlt
  | cons step shared ih =>
    cases step with
    | key name => exact ih
    | index position => exact .cons ih

theorem not_prefix : ¬ location <+: other ∧ ¬ other <+: location := by
  obtain ⟨-, -, hlt, -⟩ := h
  simp only [List.prefix_append_right_inj, List.cons_prefix_cons, Step.index.injEq, not_and]
  omega

end PartAt

end Location

namespace Place

variable {access : Access} {segment : Segment} {place p : Place} {next : List Place}

theorem becomes_of_mem (h : place.follow access segment = .ok next) (hp : p ∈ next) :
    ∃ step value, segment.Becomes step ∧ p = place.extend step value := by
  by_cases hs : segment = .append
  · subst hs
    obtain ⟨location, value⟩ := place
    have planned (hp : p ∈ planned access ⟨location, value⟩ (.index 0)) :
        ∃ step value', Segment.Becomes .append step ∧ p = extend ⟨location, value⟩ step value' :=
      ⟨.index 0, none, .append 0, (mem_planned hp).2⟩
    rcases value with _ | value
    · cases h
      exact planned hp
    cases value with
    | null =>
      cases h
      exact planned hp
    | list items =>
      cases access with
      | read =>
        cases h
        obtain ⟨position, -, rfl⟩ := List.mem_mapIdx.mp hp
        exact ⟨.index position, _, .append position, rfl⟩
      | write =>
        cases h
        exact ⟨.index items.length, none, .append _, List.mem_singleton.mp hp⟩
    | _ => exact absurd hp (not_mem_refuse h)
  · obtain ⟨step, hl, -, he⟩ := next_of_mem (fun ha => absurd ha hs) h hp
    exact ⟨step, _, hl.becomes, he⟩

/-- A segment that goes on to several elements takes those that pass its test, in their order. -/
theorem follow_fanOut {test : Json → Bool} (hs : segment.fanOut? access = some test)
    (location : Location) (items : List Json) :
    follow access ⟨location, some (.list items)⟩ segment =
      .ok ((items.zipIdx.filter fun e => test e.1).map fun e =>
        extend ⟨location, some (.list items)⟩ (.index e.2) (some e.1)) := by
  cases segment with
  | field | index => cases hs
  | append =>
    cases access with
    | read =>
      cases hs
      simp only [follow, List.mapIdx_eq_zipIdx_map, List.filter_true]
    | write => cases hs
  | filter constraints =>
    cases hs
    rfl

theorem exists_list_of_fanOut {test : Json → Bool} (hs : segment.fanOut? access = some test)
    (h : place.follow access segment = .ok next) (hp : p ∈ next) :
    ∃ items, place.value = some (.list items) := by
  obtain ⟨location, value⟩ := place
  by_contra hn
  suffices he : follow access ⟨location, value⟩ segment = .ok [] by
    rw [he] at h
    cases h
    nomatch hp
  cases segment with
  | field | index => cases hs
  | append =>
    cases access with
    | read =>
      rcases value with _ | value
      · rfl
      cases value with
      | list items => exact absurd ⟨items, rfl⟩ hn
      | _ => rfl
    | write => cases hs
  | filter constraints =>
    rcases value with _ | value
    · rfl
    cases value with
    | list items => exact absurd ⟨items, rfl⟩ hn
    | _ => rfl

theorem length_planned (step : Step) : (place.planned access step).length ≤ 1 := by
  cases access with
  | read => exact Nat.zero_le _
  | write => exact Nat.le_refl _

theorem length_plannedPast {position length : Nat}
    (h : place.plannedPast access position length = .ok next) : next.length ≤ 1 := by
  cases access with
  | read =>
    cases h
    exact Nat.zero_le _
  | write =>
    simp only [plannedPast] at h
    split at h
    · cases h
      exact Nat.le_refl _
    · cases h

theorem length_refuse {fault : TargetFault} (h : access.refuse fault = .ok next) :
    next.length ≤ 1 := by
  cases access with
  | read =>
    cases h
    exact Nat.zero_le _
  | write => cases h

theorem length_follow (hs : segment.fanOut? access = none)
    (h : place.follow access segment = .ok next) : next.length ≤ 1 := by
  obtain ⟨location, value⟩ := place
  cases segment with
  | field name =>
    rcases value with _ | value
    · cases h
      exact length_planned _
    cases value with
    | null =>
      cases h
      exact length_planned _
    | object members =>
      simp only [follow] at h
      split at h
      · cases h
        exact Nat.le_refl _
      · cases h
        exact length_planned _
    | _ => exact length_refuse h
  | index position =>
    rcases value with _ | value
    · exact length_plannedPast h
    cases value with
    | null => exact length_plannedPast h
    | list items =>
      simp only [follow] at h
      split at h
      · cases h
        exact Nat.le_refl _
      · exact length_plannedPast h
    | _ => exact length_refuse h
  | append =>
    cases access with
    | read => cases hs
    | write =>
      rcases value with _ | value
      · cases h
        exact Nat.le_refl _
      cases value with
      | null | list =>
        cases h
        exact Nat.le_refl _
      | _ => cases h
  | filter constraints => cases hs

theorem pairwise_follow {document : Json} (hv : place.location.get? document = place.value)
    (h : place.follow access segment = .ok next) :
    next.Pairwise fun p q => ∃ test, segment.fanOut? access = some test ∧
      p.location.PartAt document place.location.length test q.location := by
  cases hs : segment.fanOut? access with
  | none =>
    have hl := length_follow hs h
    rcases next with _ | ⟨p, _ | ⟨q, rest⟩⟩
    · exact .nil
    · exact List.pairwise_singleton _ p
    · simp at hl
  | some test =>
    rcases next with _ | ⟨first, rest⟩
    · exact .nil
    obtain ⟨items, hi⟩ := exists_list_of_fanOut hs h (List.mem_cons_self ..)
    obtain ⟨location, _⟩ := place
    obtain rfl := hi
    rw [follow_fanOut hs, Except.ok.injEq] at h
    rw [← h, List.pairwise_map]
    have hlt : items.zipIdx.Pairwise fun a b => a.2 < b.2 := by
      rw [← List.pairwise_map (R := (· < ·)), List.zipIdx_map_snd]
      exact List.pairwise_lt_range'
    have element {e : Json × Nat} (he : e ∈ items.zipIdx.filter fun e => test e.1) :
        items[e.2]? = some e.1 ∧ test e.1 = true := by
      obtain ⟨hm, ht⟩ := List.mem_filter.mp he
      exact ⟨List.mem_zipIdx_iff_getElem?.mp hm, ht⟩
    refine (hlt.sublist List.filter_sublist).imp_of_mem fun ha hb hab => ⟨test, rfl, ?_⟩
    obtain ⟨hi, ht⟩ := element ha
    obtain ⟨hj, ht'⟩ := element hb
    exact .intro rfl hv hab hi ht hj ht'

end Place

/-- What holds between places, and is established among the places that follow one of them, holds
between all places that follow. -/
theorem Segment.pairwise_advance {access : Access} {segment : Segment} {places next : List Place}
    {r s : Place → Place → Prop} (h : segment.advance access places = .ok next)
    (hp : places.Pairwise r)
    (within : ∀ p ∈ places, ∀ part, p.follow access segment = .ok part → part.Pairwise s)
    (across : ∀ p ∈ places, ∀ q ∈ places, r p q → ∀ part part',
      p.follow access segment = .ok part → q.follow access segment = .ok part' →
        ∀ a ∈ part, ∀ b ∈ part', s a b) : next.Pairwise s := by
  induction places generalizing next with
  | nil =>
    cases h
    exact .nil
  | cons place places ih =>
    obtain ⟨front, back, hf, hb, rfl⟩ := advance_cons_eq_ok_iff.mp h
    obtain ⟨hr, hp⟩ := List.pairwise_cons.mp hp
    refine List.pairwise_append.mpr ⟨within place (List.mem_cons_self ..) front hf, ?_, ?_⟩
    · refine ih hb hp (fun p hp => within p (List.mem_cons_of_mem _ hp)) fun p hp q hq => ?_
      exact across p (List.mem_cons_of_mem _ hp) q (List.mem_cons_of_mem _ hq)
    · intro a ha b hb'
      obtain ⟨q, hq, part, hpart, hbq⟩ := exists_of_mem_advance hb hb'
      exact across place (List.mem_cons_self ..) q (List.mem_cons_of_mem _ hq) (hr q hq) front part
        hf hpart a ha b hbq

namespace Path

variable {access : Access} {path : Path} {document : Json} {places : List Place}

theorem forall₂_becomes_of_mem_places (h : path.places access document = .ok places) {place : Place}
    (hp : place ∈ places) : List.Forall₂ Segment.Becomes path place.location := by
  refine places_induction (motive := fun path places =>
    ∀ place ∈ places, List.Forall₂ Segment.Becomes path place.location) ?_ ?_ h place hp
  · exact List.forall_mem_singleton.mpr .nil
  · intro path segment places next _ ih hn p hp
    obtain ⟨q, hq, part, hf, hp⟩ := Segment.exists_of_mem_advance hn hp
    obtain ⟨step, value, hs, rfl⟩ := Place.becomes_of_mem hf hp
    exact List.rel_append (ih q hq) (.cons hs .nil)

/-- Two locations of a path, in document order, part at a segment that goes on to several elements
of a list. -/
def Parts (access : Access) (path : Path) (document : Json) (location other : Location) : Prop :=
  ∃ front segment back test, path = front ++ segment :: back ∧
    segment.fanOut? access = some test ∧ location.PartAt document front.length test other

theorem Parts.snoc {location other : Location} (h : path.Parts access document location other)
    (segment : Segment) (step step' : Step) :
    (path ++ [segment]).Parts access document (location ++ [step]) (other ++ [step']) := by
  obtain ⟨front, fan, back, test, rfl, hs, h⟩ := h
  exact ⟨front, fan, back ++ [segment], test, by simp, hs, h.append [step] [step']⟩

theorem pairwise_parts (h : path.places access document = .ok places) :
    places.Pairwise fun p q => path.Parts access document p.location q.location := by
  refine places_induction (motive := fun path places =>
    places.Pairwise fun p q => path.Parts access document p.location q.location) ?_ ?_ h
  · exact List.pairwise_singleton _ _
  · intro path segment places next hpl ih hn
    refine segment.pairwise_advance hn ih ?_ ?_
    · intro p hp part hf
      have hl := (forall₂_becomes_of_mem_places hpl hp).length_eq
      refine (Place.pairwise_follow (get?_of_mem_places hpl hp) hf).imp ?_
      rintro a b ⟨test, hs, hab⟩
      exact ⟨path, segment, [], test, rfl, hs, hl ▸ hab⟩
    · intro p hp q hq hpq part part' hf hf' a ha b hb
      obtain ⟨step, _, -, rfl⟩ := Place.becomes_of_mem hf ha
      obtain ⟨step', _, -, rfl⟩ := Place.becomes_of_mem hf' hb
      exact hpq.snoc segment step step'

end Path

/-- The locations of a path have one step for each segment, are in the lexicographic order of their
positions, and none of them is at or below another one. Any two locations of a write part at a
filter, at two elements of one list of the document that both satisfy it. -/
theorem locations_in_order {access : Access} {path : Path} {document : Json}
    {locations : List Location} (h : path.locations access document = .ok locations) :
    (∀ location ∈ locations, List.Forall₂ Segment.Becomes path location) ∧
    locations.Pairwise (fun location other =>
      List.Lex (· < ·) location.positions other.positions) ∧
    locations.Nodup ∧
    locations.Pairwise (fun location other => ¬ location <+: other ∧ ¬ other <+: location) ∧
    (access = .write → locations.Pairwise fun location other =>
      ∃ (front back : Path) (constraints : List Constraint),
        path = front ++ .filter constraints :: back ∧
          location.PartAt document front.length (·.satisfies constraints) other) := by
  obtain ⟨places, hp, rfl⟩ := Path.locations_eq_ok_iff.mp h
  have ho := List.pairwise_map.mpr (Path.pairwise_parts hp)
  refine ⟨?_, ho.imp ?_, ho.imp ?_, ho.imp ?_, ?_⟩
  · exact List.forall_mem_map.mpr fun place hm => Path.forall₂_becomes_of_mem_places hp hm
  · rintro location other ⟨_, _, _, _, -, -, hpart⟩
    exact hpart.positions_lex
  · rintro location other ⟨_, _, _, _, -, -, hpart⟩ rfl
    exact hpart.not_prefix.1 List.prefix_rfl
  · rintro location other ⟨_, _, _, _, -, -, hpart⟩
    exact hpart.not_prefix
  · rintro rfl
    refine ho.imp ?_
    rintro location other ⟨front, segment, back, test, rfl, hs, hpart⟩
    obtain ⟨constraints, rfl, rfl⟩ := Segment.eq_filter_of_fanOut? hs
    exact ⟨front, back, constraints, rfl, hpart⟩

def peopleInOrder : Json :=
  .object [("people", .list [.object [("state", .string "CA")], .null,
    .object [("state", .string "CA"), ("zip", .list [.null])]])]

theorem locations_in_order_people :
    Path.locations .write [.field "people", .filter [⟨"state", "CA"⟩], .field "zip", .append]
      peopleInOrder = .ok [[.key "people", .index 0, .key "zip", .index 0],
        [.key "people", .index 2, .key "zip", .index 1]] ∧
    List.Lex (· < ·)
      (Location.positions [.key "people", .index 0, .key "zip", .index 0])
      (Location.positions [.key "people", .index 2, .key "zip", .index 1]) ∧
    ∃ (front back : Path) (constraints : List Constraint),
      [.field "people", .filter [⟨"state", "CA"⟩], .field "zip", .append] =
        front ++ .filter constraints :: back ∧
      Location.PartAt peopleInOrder front.length (·.satisfies constraints)
        [.key "people", .index 0, .key "zip", .index 0]
        [.key "people", .index 2, .key "zip", .index 1] := by
  have hl : Path.locations .write
      [.field "people", .filter [⟨"state", "CA"⟩], .field "zip", .append] peopleInOrder =
      .ok [[.key "people", .index 0, .key "zip", .index 0],
        [.key "people", .index 2, .key "zip", .index 1]] := rfl
  obtain ⟨-, hx, -, -, hw⟩ := locations_in_order hl
  exact ⟨hl, List.rel_of_pairwise_cons hx (List.mem_singleton_self _),
    List.rel_of_pairwise_cons (hw rfl) (List.mem_singleton_self _)⟩

end DocPath
