import DocPath.Proofs.Places.Branches
import Mathlib.Data.List.Basic

/-! # Stricter filters

A filter with more constraints leads to some of the elements of the one with fewer, and reading
through a filter finds some of the elements that an append reads. Whatever follows starts from fewer
places then, so the locations are some of those before, in the same order, and nothing fails that
did not fail before. The order of constraints, and how often one is said, make no difference.
-/

namespace DocPath

/-- A segment in whose place another one leads nowhere else: a filter has more constraints, and for
reading a filter may also stand for an append. -/
inductive Segment.Narrows : Access → Segment → Segment → Prop where
  | same {access : Access} (segment : Segment) : Narrows access segment segment
  | filter {access : Access} {constraints more : List Constraint} : constraints ⊆ more →
      Narrows access (.filter constraints) (.filter more)
  | append (constraints : List Constraint) : Narrows .read .append (.filter constraints)

/-- The same segment, or a filter with the same constraints in another order or number. -/
inductive Segment.SameTests : Segment → Segment → Prop where
  | same (segment : Segment) : SameTests segment segment
  | filter {constraints others : List Constraint} : (∀ c, c ∈ constraints ↔ c ∈ others) →
      SameTests (.filter constraints) (.filter others)

theorem Json.satisfies_of_subset {element : Json} {constraints more : List Constraint}
    (hs : constraints ⊆ more) (h : element.satisfies more = true) :
    element.satisfies constraints = true := by
  rw [satisfies_iff] at h ⊢
  exact ⟨h.1, fun c hc => h.2 c (hs hc)⟩

theorem Json.satisfies_congr {constraints others : List Constraint}
    (h : ∀ c, c ∈ constraints ↔ c ∈ others) (element : Json) :
    element.satisfies constraints = element.satisfies others := by
  apply Bool.eq_iff_iff.mpr
  constructor
  · exact satisfies_of_subset fun c hc => (h c).mpr hc
  · exact satisfies_of_subset fun c hc => (h c).mp hc

namespace Place

variable {access : Access} {place : Place} {segment other : Segment}

theorem follow_narrows {next : List Place} (h : segment.Narrows access other)
    (hf : place.follow access segment = .ok next) :
    ∃ fewer, place.follow access other = .ok fewer ∧ fewer.Sublist next := by
  obtain ⟨location, value⟩ := place
  cases h with
  | same => exact ⟨next, hf, .refl next⟩
  | filter hs =>
    rcases value with _ | value
    · exact ⟨next, hf, .refl next⟩
    cases value with
    | list items =>
      cases hf
      refine ⟨_, rfl, List.Sublist.map _ (List.monotone_filter_right _ fun entry he => ?_)⟩
      exact Json.satisfies_of_subset hs he
    | _ => exact ⟨next, hf, .refl next⟩
  | append constraints =>
    rcases value with _ | value
    · exact ⟨[], rfl, List.nil_sublist next⟩
    cases value with
    | list items =>
      cases hf
      rw [List.mapIdx_eq_zipIdx_map]
      exact ⟨_, rfl, List.filter_sublist.map _⟩
    | _ => exact ⟨[], rfl, List.nil_sublist next⟩

theorem follow_sameTests (access : Access) (place : Place) (h : segment.SameTests other) :
    place.follow access segment = place.follow access other := by
  obtain ⟨location, value⟩ := place
  cases h with
  | same => rfl
  | filter hc =>
    rcases value with _ | value
    · rfl
    cases value with
    | list items => simp only [follow, Json.satisfies_congr hc]
    | _ => rfl

end Place

theorem gather?_sublist {α β : Type} {f : α → Option (List β)} {as fewer : List α}
    {found : List β} (hs : fewer.Sublist as) (h : gather? f as = some found) :
    ∃ some', gather? f fewer = some some' ∧ some'.Sublist found := by
  induction hs generalizing found with
  | slnil => exact ⟨found, h, .refl found⟩
  | cons a _ ih =>
    obtain ⟨front, back, -, hb, rfl⟩ := gather?_eq_some_cons_iff.mp h
    obtain ⟨part, hp, hs⟩ := ih hb
    exact ⟨part, hp, hs.trans (List.sublist_append_right front back)⟩
  | cons_cons a _ ih =>
    obtain ⟨front, back, hf, hb, rfl⟩ := gather?_eq_some_cons_iff.mp h
    obtain ⟨part, hp, hs⟩ := ih hb
    exact ⟨front ++ part, gather?_eq_some_cons_iff.mpr ⟨front, part, hf, hp, rfl⟩,
      hs.append_left front⟩

namespace Path

variable {access : Access} {path other : Path} {document : Json}

/-- Where a path is narrowed, its segments start from fewer places, and each of them leads to fewer
ones from there. -/
theorem reach?_narrows {place : Place} {places : List Place}
    (h : List.Forall₂ (Segment.Narrows access) path other)
    (hp : path.reach? access place = some places) :
    ∃ fewer, other.reach? access place = some fewer ∧ fewer.Sublist places := by
  induction h generalizing place places with
  | nil => exact ⟨places, hp, .refl places⟩
  | @cons segment segment' rest rest' hs _ ih =>
    obtain ⟨next, hf, hg⟩ := reach?_cons_eq_some_iff.mp hp
    obtain ⟨start, hf', hstart⟩ := Place.follow_narrows hs hf
    obtain ⟨below, hg', hbelow⟩ := gather?_related
      (r := fun front (fewer : List Place) => fewer.Sublist front) (.refl [])
      (fun h h' => h.append h') (fun place _ front hr => ih hr) hg
    obtain ⟨fewer, hg', hfewer⟩ := gather?_sublist hstart hg'
    exact ⟨fewer, reach?_cons_eq_some_iff.mpr ⟨start, hf', hg'⟩, hfewer.trans hbelow⟩

theorem places_sameTests (access : Access) (document : Json)
    (h : List.Forall₂ Segment.SameTests path other) :
    path.places access document = other.places access document := by
  unfold places
  generalize [Place.root document] = places
  induction h generalizing places with
  | nil => rfl
  | @cons segment segment' rest rest' hs _ ih =>
    have ha : segment.advance access places = segment'.advance access places := by
      simp only [Segment.advance, fun place => Place.follow_sameTests access place hs]
    simp only [List.foldlM_cons, ha, ih]

end Path

/-- A path with more constraints in its filters has some of the locations of the one with fewer, in
the same order, and fails only where that one fails; for reading, a filter may also take the place
of an append. With the same constraints in another order or number, the places are the same, or the
fault is. -/
theorem filters_narrow (access : Access) (path other : Path) (document : Json) :
    (List.Forall₂ (Segment.Narrows access) path other →
      ∀ locations, path.locations access document = .ok locations →
        ∃ fewer, other.locations access document = .ok fewer ∧ fewer.Sublist locations) ∧
    (List.Forall₂ Segment.SameTests path other →
      path.places access document = other.places access document ∧
      ∀ locations, path.locations access document = .ok locations ↔
        other.locations access document = .ok locations) := by
  constructor
  · intro h locations hl
    obtain ⟨places, hp, rfl⟩ := Path.locations_eq_ok_iff.mp hl
    obtain ⟨fewer, hf, hs⟩ := Path.reach?_narrows h (Path.places_eq_ok_iff.mp hp)
    exact ⟨_, Path.locations_eq_ok_iff.mpr ⟨fewer, Path.places_eq_ok_iff.mpr hf, rfl⟩,
      hs.map Place.location⟩
  · intro h
    have hp := Path.places_sameTests access document h
    refine ⟨hp, fun locations => ?_⟩
    rw [Path.locations_eq_ok_iff, Path.locations_eq_ok_iff, hp]

def marked : Json := .object [("s", .string "x"), ("k", .bool true)]

def peopleMarked : Json :=
  .object [("people", .list [.object [("s", .string "x"), ("t", .list [.null])], marked])]

def tagsWhere (tests : List Constraint) : Path :=
  [.field "people", .filter tests, .field "t", .append]

theorem filters_narrow_people :
    List.Forall₂ (Segment.Narrows .write)
      (tagsWhere [⟨"s", "x"⟩]) (tagsWhere [⟨"k", "true"⟩, ⟨"s", "x"⟩]) ∧
    (tagsWhere [⟨"s", "x"⟩]).locations .write peopleMarked =
      .ok [[.key "people", .index 0, .key "t", .index 1],
        [.key "people", .index 1, .key "t", .index 0]] ∧
    (∃ fewer, (tagsWhere [⟨"k", "true"⟩, ⟨"s", "x"⟩]).locations .write peopleMarked = .ok fewer ∧
      fewer.Sublist [[.key "people", .index 0, .key "t", .index 1],
        [.key "people", .index 1, .key "t", .index 0]]) ∧
    List.Forall₂ Segment.SameTests
      [.filter [⟨"k", "true"⟩, ⟨"s", "x"⟩]] [.filter [⟨"s", "x"⟩, ⟨"k", "true"⟩, ⟨"s", "x"⟩]] ∧
    Path.places .read [.filter [⟨"k", "true"⟩, ⟨"s", "x"⟩]] (.list [marked]) =
      Path.places .read [.filter [⟨"s", "x"⟩, ⟨"k", "true"⟩, ⟨"s", "x"⟩]] (.list [marked]) := by
  have hn : List.Forall₂ (Segment.Narrows .write)
      (tagsWhere [⟨"s", "x"⟩]) (tagsWhere [⟨"k", "true"⟩, ⟨"s", "x"⟩]) :=
    .cons (.same _) (.cons (.filter (by simp)) (.cons (.same _) (.cons (.same _) .nil)))
  have hs : List.Forall₂ Segment.SameTests
      [.filter [⟨"k", "true"⟩, ⟨"s", "x"⟩]] [.filter [⟨"s", "x"⟩, ⟨"k", "true"⟩, ⟨"s", "x"⟩]] := by
    refine .cons (.filter fun c => ?_) .nil
    simp only [List.mem_cons, List.not_mem_nil]
    tauto
  exact ⟨hn, rfl, (filters_narrow _ _ _ _).1 hn _ rfl, hs, ((filters_narrow _ _ _ _).2 hs).1⟩

end DocPath
