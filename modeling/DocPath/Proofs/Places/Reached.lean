import DocPath.Proofs.Path.Location
import DocPath.Proofs.Write.Revision
import Mathlib.Data.List.Induction

/-! # Reached places

Every segment of a path takes one step further from each place. Which steps it may take, and that
the way is open for them, is said here once; a place at which a path arrives is reached by such
steps. So a location that a path arrives at is also what its own concrete path resolves to.
-/

namespace DocPath

def Json.Admits (document : Json) : Step → Prop
  | .key _ => ∃ members, document.orEmptyObject = .object members
  | .index position => ∃ items, document.orEmptyList = .list items ∧
      (position < items.length ∨ paddingAllowed position items.length = true)

/-- A step that leads on from a value, or from the absence of one: to what is there for reading, to
what is there or can be created for writing. -/
def Access.Opens (access : Access) (node : Option Json) (step : Step) : Prop :=
  match access with
  | .read => (node.bind (·.child? step)).isSome = true
  | .write => (node.getD .null).Admits step

theorem Access.opens_of_child? (access : Access) {value child : Json} {step : Step}
    (h : value.child? step = some child) : access.Opens (some value) step := by
  cases access with
  | read => simp [Opens, h]
  | write =>
    cases step with
    | key name =>
      cases value with
      | object members => exact ⟨members, rfl⟩
      | _ => nomatch h
    | index position =>
      cases value with
      | list items => exact ⟨items, rfl, .inl (List.getElem?_eq_some_iff.mp h).1⟩
      | _ => nomatch h

inductive Segment.Leads : Segment → Option Json → Step → Prop where
  | field {node : Option Json} (name : String) : Leads (.field name) node (.key name)
  | index {node : Option Json} (position : Nat) : Leads (.index position) node (.index position)
  | append {node : Option Json} {items : List Json} {position : Nat} :
      (node.getD .null).orEmptyList = .list items → position ≤ items.length →
        Leads .append node (.index position)
  | filter {items : List Json} {item : Json} {constraints : List Constraint} {position : Nat} :
      items[position]? = some item → item.satisfies constraints = true →
        Leads (.filter constraints) (some (.list items)) (.index position)

theorem AddressableNode.child? {node : Option Json} (h : AddressableNode node) (step : Step) :
    AddressableNode (node.bind (·.child? step)) := by
  intro child hc
  obtain ⟨value, rfl, hc⟩ := Option.bind_eq_some_iff.mp hc
  cases step with
  | key name =>
    cases value with
    | object members => exact (h _ rfl).get? hc
    | _ => nomatch hc
  | index position =>
    cases value with
    | list items => exact (Json.Addressable.list_iff.mp (h _ rfl)).2 _ (List.mem_of_getElem? hc)
    | _ => nomatch hc

theorem AddressableNode.length_lt {node : Option Json} (h : AddressableNode node)
    {items : List Json} (hn : (node.getD .null).orEmptyList = .list items) :
    items.length + 1 < positionLimit := by
  rcases node with _ | value
  · cases hn
    decide
  cases value with
  | null =>
    cases hn
    decide
  | list =>
    cases hn
    exact (Json.Addressable.list_iff.mp (h _ rfl)).1
  | _ => nomatch hn

theorem Segment.Leads.wellFormed {segment : Segment} {node : Option Json} {step : Step}
    (h : segment.Leads node step) (ha : AddressableNode node) (hs : segment.WellFormed) :
    step.segment.WellFormed := by
  cases h with
  | field => exact hs
  | index => exact hs
  | append hn hp =>
    have := ha.length_lt hn
    change _ < positionLimit
    omega
  | @filter items _ _ position hi _ =>
    have hl : items.length + 1 < positionLimit := (Json.Addressable.list_iff.mp (ha _ rfl)).1
    have hp := (List.getElem?_eq_some_iff.mp hi).1
    change position < positionLimit
    omega

namespace Place

variable {access : Access} {place p : Place} {next : List Place}

def Next (access : Access) (segment : Segment) (place next : Place) : Prop :=
  ∃ step, segment.Leads place.value step ∧ access.Opens place.value step ∧
    next = place.extend step (place.value.bind (·.child? step))

theorem next_of_child? {segment : Segment} {value child : Json} {step : Step}
    (hv : place.value = some value) (hc : value.child? step = some child)
    (hl : segment.Leads place.value step) :
    Next access segment place (place.extend step (some child)) := by
  refine ⟨step, hl, ?_, ?_⟩
  · rw [hv]
    exact access.opens_of_child? hc
  · rw [hv, Option.bind_some, hc]

theorem next_of_admits {segment : Segment} {step : Step} (hl : segment.Leads place.value step)
    (ho : (place.value.getD .null).Admits step)
    (hn : place.value.bind (·.child? step) = none) :
    Next .write segment place (place.extend step none) :=
  ⟨step, hl, ho, by rw [hn]⟩

theorem mem_planned {step : Step} (h : p ∈ place.planned access step) :
    access = .write ∧ p = place.extend step none := by
  cases access with
  | read => nomatch h
  | write => exact ⟨rfl, List.mem_singleton.mp h⟩

theorem mem_plannedPast {position length : Nat}
    (h : place.plannedPast access position length = .ok next) (hp : p ∈ next) :
    access = .write ∧ paddingAllowed position length = true ∧
      p = place.extend (.index position) none := by
  cases access with
  | read =>
    cases h
    cases hp
  | write =>
    simp only [plannedPast] at h
    split at h
    · next ha =>
      cases h
      exact ⟨rfl, ha, List.mem_singleton.mp hp⟩
    · cases h

theorem not_mem_refuse {fault : TargetFault} (h : access.refuse fault = .ok next) : p ∉ next := by
  cases access with
  | read =>
    cases h
    exact List.not_mem_nil
  | write => nomatch h

theorem next_of_mem_field {name : String} (h : place.follow access (.field name) = .ok next)
    (hp : p ∈ next) : Next access (.field name) place p := by
  obtain ⟨location, value⟩ := place
  have created (hm : ∃ members, (value.getD .null).orEmptyObject = .object members)
      (hn : value.bind (·.child? (.key name)) = none)
      (hp : p ∈ planned access ⟨location, value⟩ (.key name)) :
      Next access (.field name) ⟨location, value⟩ p := by
    obtain ⟨rfl, rfl⟩ := mem_planned hp
    exact next_of_admits (.field name) hm hn
  rcases value with _ | value
  · cases h
    exact created ⟨[], rfl⟩ rfl hp
  cases value with
  | null =>
    cases h
    exact created ⟨[], rfl⟩ rfl hp
  | object members =>
    simp only [follow] at h
    split at h
    · next child hc =>
      cases h
      obtain rfl := List.mem_singleton.mp hp
      exact next_of_child? rfl hc (.field name)
    · next hc =>
      cases h
      exact created ⟨members, rfl⟩ hc hp
  | _ => exact absurd hp (not_mem_refuse h)

theorem next_of_mem_index {position : Nat} (h : place.follow access (.index position) = .ok next)
    (hp : p ∈ next) : Next access (.index position) place p := by
  obtain ⟨location, value⟩ := place
  have created (items : List Json) (hi : (value.getD .null).orEmptyList = .list items)
      (hn : value.bind (·.child? (.index position)) = none)
      (h : plannedPast access ⟨location, value⟩ position items.length = .ok next) :
      Next access (.index position) ⟨location, value⟩ p := by
    obtain ⟨rfl, ha, rfl⟩ := mem_plannedPast h hp
    exact next_of_admits (.index position) ⟨items, hi, .inr ha⟩ hn
  rcases value with _ | value
  · exact created [] rfl rfl h
  cases value with
  | null => exact created [] rfl rfl h
  | list items =>
    simp only [follow] at h
    split at h
    · next child hc =>
      cases h
      obtain rfl := List.mem_singleton.mp hp
      exact next_of_child? rfl hc (.index position)
    · next hc => exact created items rfl hc h
  | _ => exact absurd hp (not_mem_refuse h)

theorem next_of_mem_append (ha : AddressableNode place.value)
    (h : place.follow access .append = .ok next) (hp : p ∈ next) : Next access .append place p := by
  obtain ⟨location, value⟩ := place
  have created (items : List Json) (hi : (value.getD .null).orEmptyList = .list items)
      (hn : value.bind (·.child? (.index items.length)) = none) :
      Next .write .append ⟨location, value⟩
        (extend ⟨location, value⟩ (.index items.length) none) := by
    refine next_of_admits (.append hi (Nat.le_refl _)) ⟨items, hi, .inr ?_⟩ hn
    have := ha.length_lt hi
    simp [paddingAllowed, this]
  rcases value with _ | value
  · cases h
    obtain ⟨rfl, rfl⟩ := mem_planned hp
    exact created [] rfl rfl
  cases value with
  | null =>
    cases h
    obtain ⟨rfl, rfl⟩ := mem_planned hp
    exact created [] rfl rfl
  | list items =>
    cases access with
    | read =>
      cases h
      obtain ⟨position, hlt, rfl⟩ := List.mem_mapIdx.mp hp
      exact next_of_child? rfl (List.getElem?_eq_getElem hlt) (.append rfl (Nat.le_of_lt hlt))
    | write =>
      cases h
      obtain rfl := List.mem_singleton.mp hp
      exact created items rfl (List.getElem?_eq_none (Nat.le_refl _))
  | _ => exact absurd hp (not_mem_refuse h)

theorem next_of_mem_filter {constraints : List Constraint}
    (h : place.follow access (.filter constraints) = .ok next) (hp : p ∈ next) :
    Next access (.filter constraints) place p := by
  obtain ⟨location, value⟩ := place
  rcases value with _ | value
  · cases h
    nomatch hp
  cases value with
  | list items =>
    cases h
    obtain ⟨⟨item, position⟩, he, rfl⟩ := List.mem_map.mp hp
    obtain ⟨hi, hs⟩ := List.mem_filter.mp he
    have hi : items[position]? = some item := List.mem_zipIdx_iff_getElem?.mp hi
    exact next_of_child? rfl hi (.filter hi hs)
  | _ =>
    cases h
    nomatch hp

/-- What a segment can do: each place to which it leads is one of its steps further, and the way is
open for that step. -/
theorem next_of_mem {segment : Segment} (ha : segment = .append → AddressableNode place.value)
    (h : place.follow access segment = .ok next) (hp : p ∈ next) : Next access segment place p := by
  cases segment with
  | field => exact next_of_mem_field h hp
  | index => exact next_of_mem_index h hp
  | append => exact next_of_mem_append (ha rfl) h hp
  | filter => exact next_of_mem_filter h hp

/-- A place that the segments of a path lead to from the root of a document. -/
inductive Reached (access : Access) (document : Json) : Path → Place → Prop where
  | root : Reached access document [] (Place.root document)
  | step {path : Path} {place next : Place} {segment : Segment} :
      Reached access document path place → Next access segment place next →
        Reached access document (path ++ [segment]) next

namespace Reached

variable {document : Json} {path : Path}

theorem get?_location (h : Reached access document path place) :
    place.location.get? document = place.value := by
  induction h with
  | root => rfl
  | step _ hn ih =>
    obtain ⟨step, -, -, rfl⟩ := hn
    rw [extend, Location.get?_append_singleton, ih]

theorem addressable (ha : document.Addressable) (h : Reached access document path place) :
    AddressableNode place.value := by
  induction h with
  | root =>
    rintro _ ⟨⟩
    exact ha
  | step _ hn ih =>
    obtain ⟨step, -, -, rfl⟩ := hn
    exact ih.child? step

theorem length_location (h : Reached access document path place) :
    place.location.length = path.length := by
  induction h with
  | root => rfl
  | step _ hn ih =>
    obtain ⟨step, -, -, rfl⟩ := hn
    simp [extend, ih]

theorem wellFormed (ha : document.Addressable) (h : Reached access document path place)
    (hw : path.WellFormed) : place.location.path.WellFormed := by
  refine Location.path_wellFormed_iff.mpr ⟨?_, ?_⟩
  · rw [← List.length_pos_iff, h.length_location, List.length_pos_iff]
    exact hw.1
  replace hw := hw.2
  induction h with
  | root => nofun
  | @step path place _ segment h hn ih =>
    obtain ⟨step, hl, -, rfl⟩ := hn
    obtain ⟨hp, hs⟩ := List.forall_mem_append.mp hw
    refine List.forall_mem_append.mpr ⟨ih hp, List.forall_mem_singleton.mpr ?_⟩
    exact hl.wellFormed (h.addressable ha) (hs segment (List.mem_singleton_self _))

end Reached

end Place

namespace Segment

variable {access : Access} {segment : Segment} {places next : List Place}

theorem advance_cons (access : Access) (segment : Segment) (place : Place) (places : List Place) :
    segment.advance access (place :: places) =
      (place.follow access segment).bind fun front =>
        (segment.advance access places).map (front ++ ·) := by
  rw [advance, advance, List.mapM_cons]
  cases place.follow access segment with
  | error fault => rfl
  | ok front => cases places.mapM (Place.follow access · segment) <;> rfl

theorem advance_cons_eq_ok_iff {place : Place} :
    segment.advance access (place :: places) = .ok next ↔
      ∃ front back, place.follow access segment = .ok front ∧
        segment.advance access places = .ok back ∧ front ++ back = next := by
  rw [advance_cons]
  refine bind_eq_ok_iff.trans (exists_congr fun front => ?_)
  rw [map_eq_ok_iff, exists_and_left]

theorem exists_of_mem_advance (h : segment.advance access places = .ok next) {q : Place}
    (hq : q ∈ next) : ∃ p ∈ places, ∃ part, p.follow access segment = .ok part ∧ q ∈ part := by
  induction places generalizing next with
  | nil =>
    cases h
    nomatch hq
  | cons place places ih =>
    obtain ⟨front, back, hf, hb, rfl⟩ := advance_cons_eq_ok_iff.mp h
    rcases List.mem_append.mp hq with hq | hq
    · exact ⟨place, List.mem_cons_self .., front, hf, hq⟩
    · obtain ⟨p, hp, hq⟩ := ih hb hq
      exact ⟨p, List.mem_cons_of_mem _ hp, hq⟩

end Segment

namespace Path

variable {access : Access} {document : Json}

theorem places_append_singleton (path : Path) (segment : Segment) :
    (path ++ [segment]).places access document =
      path.places access document >>= segment.advance access := by
  simp [places]

/-- What holds at the root and is kept by every segment holds at the end of a path. -/
theorem places_induction {motive : Path → List Place → Prop}
    (root : motive [] [Place.root document])
    (advance : ∀ path segment places next, path.places access document = .ok places →
      motive path places → segment.advance access places = .ok next →
        motive (path ++ [segment]) next)
    {path : Path} {places : List Place} (h : path.places access document = .ok places) :
    motive path places := by
  induction path using List.reverseRecOn generalizing places with
  | nil =>
    cases h
    exact root
  | append_singleton path segment ih =>
    rw [places_append_singleton, bind_eq_ok_iff] at h
    obtain ⟨before, hb, h⟩ := h
    exact advance path segment before places hb (ih hb) h

theorem Fits.reached_of_mem_places {path : Path} {places : List Place}
    (ha : Fits path (some document)) (h : path.places access document = .ok places) :
    ∀ place ∈ places, place.Reached access document path := by
  refine places_induction (motive := fun path places => Fits path (some document) →
    ∀ place ∈ places, place.Reached access document path) ?_ ?_ h ha
  · exact fun _ => List.forall_mem_singleton.mpr .root
  · intro path segment places next _ hr hn ha place hp
    obtain ⟨before, hb, part, hf, hp⟩ := Segment.exists_of_mem_advance hn hp
    have hb := hr (fun hm => ha (List.mem_append_left _ hm)) before hb
    refine .step hb (Place.next_of_mem ?_ hf hp)
    rintro rfl
    exact hb.addressable (ha (by simp) document rfl)

theorem reached_of_mem_places (ha : document.Addressable) {path : Path} {places : List Place}
    (h : path.places access document = .ok places) :
    ∀ place ∈ places, place.Reached access document path :=
  (Fits.of_addressable path ha).reached_of_mem_places h

end Path

theorem Place.follow_segment_of_child? (access : Access) (location : Location) {value child : Json}
    {step : Step} (hc : value.child? step = some child) :
    follow access ⟨location, some value⟩ step.segment =
      .ok [extend ⟨location, some value⟩ step (some child)] := by
  cases step with
  | key name =>
    cases value with
    | object members =>
      change Members.get? members name = some child at hc
      simp [follow, Step.segment, hc]
    | _ => cases hc
  | index position =>
    cases value with
    | list items =>
      change items[position]? = some child at hc
      simp [follow, Step.segment, hc]
    | _ => cases hc

theorem Place.follow_segment_of_admits (location : Location) {node : Option Json} {step : Step}
    (ha : (node.getD .null).Admits step) (hn : node.bind (·.child? step) = none) :
    follow .write ⟨location, node⟩ step.segment = .ok [extend ⟨location, node⟩ step none] := by
  cases step with
  | key name =>
    obtain ⟨members, hm⟩ := ha
    rcases node with _ | value
    · rfl
    cases value with
    | null => rfl
    | object members =>
      change Members.get? members name = none at hn
      simp [follow, Step.segment, planned, hn]
    | _ => cases hm
  | index position =>
    obtain ⟨items, hi, hp⟩ := ha
    rcases node with _ | value
    · cases hi
      have hp : paddingAllowed position 0 = true := hp.resolve_left (Nat.not_lt_zero _)
      simp [follow, Step.segment, plannedPast, hp]
    cases value with
    | null =>
      cases hi
      have hp : paddingAllowed position 0 = true := hp.resolve_left (Nat.not_lt_zero _)
      simp [follow, Step.segment, plannedPast, hp]
    | list items =>
      cases hi
      change items[position]? = none at hn
      have hp := hp.resolve_left (Nat.not_lt.mpr (List.getElem?_eq_none_iff.mp hn))
      simp [follow, Step.segment, plannedPast, hp, hn]
    | _ => cases hi

/-- A concrete step leads to its own place when the way is open. -/
theorem Place.follow_segment {access : Access} {place : Place} {step : Step}
    (h : access.Opens place.value step) :
    place.follow access step.segment =
      .ok [place.extend step (place.value.bind (·.child? step))] := by
  obtain ⟨location, node⟩ := place
  cases hn : node.bind (·.child? step) with
  | some child =>
    obtain ⟨value, rfl, hc⟩ := Option.bind_eq_some_iff.mp hn
    exact follow_segment_of_child? access location hc
  | none =>
    cases access with
    | read => simp [Access.Opens, hn] at h
    | write => exact follow_segment_of_admits location h hn

theorem Place.opens_of_follow_segment {place : Place} {step : Step} {next : List Place}
    (h : place.follow .write step.segment = .ok next) : Access.write.Opens place.value step := by
  obtain ⟨location, value⟩ := place
  cases step with
  | key name =>
    rcases value with _ | value
    · exact ⟨[], rfl⟩
    cases value with
    | null => exact ⟨[], rfl⟩
    | object members => exact ⟨members, rfl⟩
    | _ => cases h
  | index position =>
    have past {items : List Json}
        (h : plannedPast .write ⟨location, value⟩ position items.length = .ok next) :
        paddingAllowed position items.length = true := by
      simp only [plannedPast] at h
      split at h
      · assumption
      · cases h
    rcases value with _ | value
    · exact ⟨[], rfl, .inr (past h)⟩
    cases value with
    | null => exact ⟨[], rfl, .inr (past h)⟩
    | list items =>
      simp only [follow, Step.segment] at h
      split at h
      · next hc => exact ⟨items, rfl, .inl (List.getElem?_eq_some_iff.mp hc).1⟩
      · exact ⟨items, rfl, .inr (past h)⟩
    | _ => cases h

namespace Location

variable {access : Access}

/-- A location to which every step is open from a value, or from the absence of one. -/
def Opens (access : Access) : Location → Option Json → Prop
  | [], _ => True
  | step :: rest, node => access.Opens node step ∧ Opens access rest (node.bind (·.child? step))

theorem opens_append {front back : Location} {node : Option Json} :
    Opens access (front ++ back) node ↔
      Opens access front node ∧ Opens access back (node.bind (get? front)) := by
  induction front generalizing node with
  | nil => cases node <;> simp [Opens]
  | cons step rest ih =>
    rw [List.cons_append, Opens, Opens, ih, and_assoc]
    cases node <;> rfl

/-- The concrete path of a location resolves to it alone when the way is open. -/
theorem places_path {location : Location} {document : Json}
    (h : Opens access location (some document)) :
    location.path.places access document = .ok [⟨location, location.get? document⟩] := by
  induction location using List.reverseRecOn with
  | nil => rfl
  | append_singleton front step ih =>
    obtain ⟨hf, ho, -⟩ := opens_append.mp h
    have hp : path (front ++ [step]) = path front ++ [step.segment] := path_append front [step]
    rw [hp, Path.places_append_singleton, ih hf]
    change Segment.advance .. = _
    rw [Segment.advance_cons_eq_ok_iff]
    refine ⟨_, [], Place.follow_segment ho, rfl, ?_⟩
    simp [Place.extend, get?_append_singleton]

theorem locations_path {location : Location} {document : Json}
    (h : Opens access location (some document)) :
    location.path.locations access document = .ok [location] := by
  rw [Path.locations, places_path h]
  rfl

end Location

theorem Place.Reached.opens {access : Access} {document : Json} {path : Path} {place : Place}
    (h : Reached access document path place) :
    place.location.Opens access (some document) := by
  induction h with
  | root => trivial
  | step h hn ih =>
    obtain ⟨step, -, ho, rfl⟩ := hn
    refine Location.opens_append.mpr ⟨ih, ?_, trivial⟩
    rwa [Option.bind_some, h.get?_location]

end DocPath
