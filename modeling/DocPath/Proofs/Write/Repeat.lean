import DocPath.Proofs.Places.Existing
import DocPath.Proofs.Write.Concrete

/-! # Repeated writes

A write may change the fields that its own filters look at, and lose some of its places by that. It
gains none, and has put its value at those that are left. So reading the path after a write finds
nothing but the value, and writing it once more changes nothing. All places are left if no filter
looks at the field through which the path goes on from it.
-/

namespace DocPath

open Location

/-- The constraint does not look at this field, neither by the whole of its key nor by the first
part of it. -/
def Constraint.Avoids (c : Constraint) (name : String) : Prop :=
  c.key ≠ name ∧ (Json.dottedParts c.key).head? ≠ some name

/-- No filter of the path looks at a field through which the path goes on from it. -/
def Path.KeepsFilters (path : Path) : Prop :=
  ∀ constraints name, [.filter constraints, .field name] <:+: path →
    ∀ c ∈ constraints, c.Avoids name

theorem Path.KeepsFilters.tail {segment : Segment} {rest : Path}
    (h : KeepsFilters (segment :: rest)) : rest.KeepsFilters :=
  fun constraints name hi => h constraints name (hi.trans (List.infix_cons (List.infix_refl rest)))

theorem Path.endsInFilter_tail {segment : Segment} {rest : Path}
    (h : endsInFilter (segment :: rest) = false) : rest.endsInFilter = false := by
  cases rest with
  | nil => rfl
  | cons next rest =>
    rw [endsInFilter, List.getLast?_cons_cons] at h
    exact h

section Satisfies

variable {constraints : List Constraint} {name : String} {child : Json} {members : Members}

theorem Constraint.Avoids.field?_put {c : Constraint} (h : c.Avoids name) :
    (Json.object (members.put name child)).field? c.key =
      (Json.object members).field? c.key := by
  have hm : (Json.object (members.put name child)).member? c.key =
      (Json.object members).member? c.key := by
    simp [Json.member?, Members.get?_put, h.1]
  have hd : (Json.object (members.put name child)).descend? (Json.dottedParts c.key) =
      (Json.object members).descend? (Json.dottedParts c.key) := by
    have h := h.2
    cases hp : Json.dottedParts c.key with
    | nil =>
      simp [Json.dottedParts, Text.splitAt_ne_nil] at hp
    | cons first parts =>
      rw [hp] at h
      have hn : first ≠ name := fun he => h (congrArg some he)
      simp [Json.descend?, Json.member?, Members.get?_put, hn]
  rw [Json.field?, Json.field?, hm, hd]

theorem satisfies_put (h : ∀ c ∈ constraints, c.Avoids name) :
    (Json.object (members.put name child)).satisfies constraints =
      (Json.object members).satisfies constraints := by
  have hc : ∀ c ∈ constraints, c.holds (.object (members.put name child)) =
      c.holds (.object members) := by
    intro c hm
    rw [Constraint.holds, Constraint.holds, Json.fieldText?, Json.fieldText?, (h c hm).field?_put]
  rw [Bool.eq_iff_iff, Json.satisfies_iff, Json.satisfies_iff]
  exact and_congr Iff.rfl (forall₂_congr fun c hm => by rw [hc c hm])

theorem exists_members_of_satisfies {item : Json} (h : item.satisfies constraints = true) :
    ∃ members, item = .object members := by
  have hk := (item.satisfies_iff constraints).mp h
  cases item with
  | object members => exact ⟨members, rfl⟩
  | _ => nomatch hk.1

end Satisfies

namespace Revision

variable {α β : Type}

/-- What there is after an update, where what is not revised stays as it was. -/
def getD (before : α) : Revision α → α
  | .revised result => result
  | _ => before

theorem getD_map (f : α → β) (before : α) (revision : Revision α) :
    (revision.map f).getD (f before) = f (revision.getD before) := by
  cases revision <;> rfl

theorem getD_each {revise : Json → Revision Json} {items : List Json}
    (h : each revise items ≠ .refused) :
    (each revise items).getD items = items.map fun item => (revise item).getD item := by
  induction items with
  | nil => rfl
  | cons item items ih =>
    rw [each] at h ⊢
    rw [List.map_cons]
    cases hf : revise item with
    | refused =>
      rw [hf] at h
      exact absurd rfl h
    | untouched | revised =>
      rw [hf] at h
      cases ho : each revise items with
      | refused =>
        rw [ho] at h
        exact absurd rfl h
      | untouched | revised =>
        rw [← ih (by simp [ho]), ho]
        rfl

end Revision

namespace Path

/-- The values at which a write through a path ends, or their absence. -/
def ends? (path : Path) (node : Option Json) : Option (List (Option Json)) :=
  (path.reach? .write ⟨[], node⟩).map (List.map Place.value)

def after (value : Json) (path : Path) (node : Option Json) : Option Json :=
  ((path.revise value node).map some).getD node

def update (value : Json) (path : Path) (document : Json) : Json :=
  (path.revise value (some document)).getD document

theorem after_some (value : Json) (path : Path) (document : Json) :
    path.after value (some document) = some (path.update value document) :=
  Revision.getD_map some document _

variable {value : Json} {segment : Segment} {rest : Path} {node : Option Json}

theorem ends?_eq_some_iff {path : Path} {ends : List (Option Json)} :
    path.ends? node = some ends ↔
      ∃ places, path.reach? .write ⟨[], node⟩ = some places ∧ places.map Place.value = ends :=
  Option.map_eq_some_iff

theorem ends?_cons (segment : Segment) (rest : Path) (node : Option Json) :
    ends? (segment :: rest) node =
      ((Place.follow .write ⟨[], node⟩ segment).toOption).bind
        (gather? fun place => ends? rest place.value) := by
  simp only [ends?, reach?]
  cases (Place.follow .write ⟨[], node⟩ segment).toOption with
  | none => rfl
  | some next =>
    simp only [Option.bind_some, map_gather?]
    congr 1
    funext place
    rw [reach?_eq_map_under]
    simp [Function.comp_def]

theorem ends?_segment {step : Step} (h : Access.write.Opens node step) (rest : Path) :
    ends? (step.segment :: rest) node = ends? rest (node.bind (·.child? step)) := by
  rw [ends?_cons, Place.follow_segment h]
  exact gather?_singleton ..

theorem ends?_filter (constraints : List Constraint) (rest : Path) (items : List Json) :
    ends? (.filter constraints :: rest) (some (.list items)) =
      gather? (fun item => if item.satisfies constraints then ends? rest (some item) else some [])
        items := by
  have hf : Place.follow .write ⟨[], some (.list items)⟩ (.filter constraints) =
      .ok ((items.zipIdx.filter fun e => e.1.satisfies constraints).map fun e =>
        ⟨[.index e.2], some e.1⟩) := rfl
  have hi : gather? (fun item =>
      if item.satisfies constraints then ends? rest (some item) else some []) items =
        gather? ((fun item =>
          if item.satisfies constraints then ends? rest (some item) else some []) ∘ Prod.fst)
          items.zipIdx := by
    rw [← gather?_map, List.zipIdx_map_fst]
  rw [ends?_cons, hf, hi]
  simp only [Except.toOption, Option.bind_some, gather?_map, gather?_filter]
  rfl

theorem revise_ne_refused {path : Path} {ends : List (Option Json)} (hf : path.Fits node)
    (h : path.ends? node = some ends) : path.revise value node ≠ .refused := by
  intro hr
  obtain ⟨places, hp, -⟩ := ends?_eq_some_iff.mp h
  have ha := agrees_revise value path node hf
  rw [hr] at ha
  have hn : path.plan? node = none := by
    generalize path.plan? node = plan at ha
    cases ha
    rfl
  rw [plan?, hp] at hn
  cases hn

theorem revise_segment {step : Step} (h : Access.write.Opens node step) (value : Json)
    (rest : Path) : ∃ slot, (node.getD .null).slot? step = some slot ∧
      revise value (step.segment :: rest) node =
        (revise value rest (node.bind (·.child? step))).map slot.around := by
  cases step with
  | key name =>
    obtain ⟨members, hm⟩ := h
    refine ⟨_, slot?_key name hm, ?_⟩
    rcases node with _ | document
    · cases hm
      rfl
    obtain ⟨rfl, rfl⟩ | rfl := orEmptyObject_eq hm <;> rfl
  | index position =>
    obtain ⟨items, hi, hp⟩ := h
    refine ⟨_, slot?_index hi (hp.imp_right lt_positionLimit_of_paddingAllowed), ?_⟩
    have past (hl : items.length ≤ position) (revision : Revision Json) :
        (if paddingAllowed position items.length then
          revision.map fun child =>
            Json.list (items ++ List.replicate (position - items.length) .null ++ [child])
        else .refused) =
          revision.map fun child => Json.list ((padTo position items).set position child) := by
      simp only [set_padTo hl, if_pos (hp.resolve_left (Nat.not_lt.mpr hl))]
    rcases node with _ | document
    · cases hi
      exact past (Nat.zero_le _) _
    obtain ⟨rfl, rfl⟩ | rfl := orEmptyList_eq hi
    · exact past (Nat.zero_le _) _
    rcases Nat.lt_or_ge position items.length with hlt | hge
    · have hc : items[position]? = some items[position] := List.getElem?_eq_getElem hlt
      simp only [Step.segment, revise, Option.bind_some, Json.child?, Json.item?, hc,
        padTo_of_lt hlt]
    · simp only [Step.segment, revise, Option.bind_some, Json.child?, Json.item?,
        List.getElem?_eq_none hge]
      exact past hge _

theorem ends?_after_segment {step : Step} (h : Access.write.Opens node step) (value : Json)
    (rest : Path) : ends? (step.segment :: rest) (after value (step.segment :: rest) node) =
      ends? rest (after value rest (node.bind (·.child? step))) := by
  obtain ⟨slot, hs, hr⟩ := revise_segment h value rest
  rw [after, after, hr]
  cases revise value rest (node.bind (·.child? step)) with
  | refused | untouched => exact ends?_segment h rest
  | revised child =>
    have hc := child?_around hs child
    have ho : Access.write.Opens (some (slot.around child)) step := Access.opens_of_child? .write hc
    refine (ends?_segment ho rest).trans ?_
    rw [Option.bind_some, hc]
    rfl

theorem update_filter (value : Json) {constraints : List Constraint} {items : List Json}
    (h : revise value (.filter constraints :: rest) (some (.list items)) ≠ .refused) :
    update value (.filter constraints :: rest) (.list items) =
      .list (items.map fun item =>
        if item.satisfies constraints then update value rest item else item) := by
  rw [revise] at h
  rw [update, revise, Revision.getD_map, Revision.getD_each]
  · congr 2
    funext item
    split <;> rfl
  · intro he
    rw [he] at h
    exact h rfl

theorem satisfies_update {constraints : List Constraint} {item : Json} {ends : List (Option Json)}
    (hk : KeepsFilters (.filter constraints :: rest))
    (hf : endsInFilter (.filter constraints :: rest) = false)
    (hs : item.satisfies constraints = true) (h : ends? rest (some item) = some ends)
    (hn : ends ≠ []) : (update value rest item).satisfies constraints = true := by
  obtain ⟨members, rfl⟩ := exists_members_of_satisfies hs
  -- the element is an object, so that only a field leads on from it
  cases rest with
  | nil => cases hf
  | cons segment rest =>
    cases segment with
    | field name =>
      have hc : ∀ c ∈ constraints, c.Avoids name := hk constraints name ⟨[], rest, rfl⟩
      rw [update, revise]
      cases revise value rest (Members.get? members name) with
      | refused | untouched => exact hs
      | revised child => exact (satisfies_put hc).trans hs
    | index | append => cases h
    | filter =>
      cases h
      exact absurd rfl hn

end Path

/-- What a second write finds of the ends of a first one: not more of them, all of them where
nothing is lost, and the value at each. -/
def Repeats (value : Json) (all : Prop) (before after : List (Option Json)) : Prop :=
  ∃ m ≤ before.length, after = List.replicate m (some value) ∧ (all → m = before.length)

namespace Repeats

variable {value : Json} {all all' : Prop} {before after : List (Option Json)}

theorem nil : Repeats value all [] [] :=
  ⟨0, Nat.le_refl 0, rfl, fun _ => rfl⟩

theorem append {before' after' : List (Option Json)} (h : Repeats value all before after)
    (h' : Repeats value all before' after') :
    Repeats value all (before ++ before') (after ++ after') := by
  obtain ⟨m, hm, rfl, ha⟩ := h
  obtain ⟨m', hm', rfl, ha'⟩ := h'
  refine ⟨m + m', ?_, ?_, ?_⟩
  · rw [List.length_append]
    omega
  · exact List.replicate_append_replicate
  · intro h
    rw [List.length_append, ← ha h, ← ha' h]

theorem imp (h : Repeats value all before after) (hi : all' → all) :
    Repeats value all' before after := by
  obtain ⟨m, hm, he, ha⟩ := h
  exact ⟨m, hm, he, fun h => ha (hi h)⟩

end Repeats

namespace Path

variable {value : Json}

def LosesNothing (path : Path) : Prop :=
  path.KeepsFilters ∧ path.endsInFilter = false

theorem LosesNothing.tail {segment : Segment} {rest : Path} (h : LosesNothing (segment :: rest)) :
    rest.LosesNothing :=
  ⟨h.1.tail, endsInFilter_tail h.2⟩

/-- A second write finds at an element of a list what it finds below it, as long as the element
satisfies the filter, and nothing from there on. -/
theorem repeats_item {constraints : List Constraint} {rest : Path} {item : Json}
    {front : List (Option Json)}
    (below : ∀ ends, ends? rest (some item) = some ends →
      ∃ ends', ends? rest (some (update value rest item)) = some ends' ∧
        Repeats value rest.LosesNothing ends ends')
    (h : (if item.satisfies constraints then ends? rest (some item) else some []) = some front) :
    let new := if item.satisfies constraints then update value rest item else item
    ∃ front', (if new.satisfies constraints then ends? rest (some new) else some []) =
        some front' ∧
      Repeats value (LosesNothing (.filter constraints :: rest)) front front' := by
  by_cases hs : item.satisfies constraints = true
  · rw [if_pos hs] at h ⊢
    obtain ⟨ends', he, hr⟩ := below front h
    by_cases hu : (update value rest item).satisfies constraints = true
    · exact ⟨ends', (if_pos hu).trans he, hr.imp .tail⟩
    · refine ⟨[], if_neg hu, 0, Nat.zero_le _, rfl, ?_⟩
      intro ⟨hk, hf⟩
      by_contra hn
      refine hu (satisfies_update hk hf hs h ?_)
      rintro rfl
      exact hn rfl
  · rw [if_neg hs] at h ⊢
    cases h
    exact ⟨[], if_neg hs, .nil⟩

/-- A second write finds the value of the first one wherever it still goes. -/
theorem repeats_ends? (value : Json) {path : Path} (ha : .append ∉ path) {node : Option Json}
    {ends : List (Option Json)} (h : path.ends? node = some ends) :
    ∃ ends', path.ends? (path.after value node) = some ends' ∧
      Repeats value path.LosesNothing ends ends' := by
  induction path generalizing node ends with
  | nil =>
    cases h
    exact ⟨[some value], rfl, 1, Nat.le_refl 1, rfl, fun _ => rfl⟩
  | cons segment rest ih =>
    simp only [List.mem_cons, not_or] at ha
    -- a concrete step leads to the slot that the update fills, before it and after it
    have concrete (step : Step) (h : ends? (step.segment :: rest) node = some ends) :
        ∃ ends', ends? (step.segment :: rest) (after value (step.segment :: rest) node) =
            some ends' ∧
          Repeats value (LosesNothing (step.segment :: rest)) ends ends' := by
      obtain ⟨places, hr, -⟩ := ends?_eq_some_iff.mp h
      obtain ⟨next, hf, -⟩ := reach?_cons_eq_some_iff.mp hr
      have ho : Access.write.Opens node step := Place.opens_of_follow_segment hf
      rw [ends?_segment ho] at h
      obtain ⟨ends', he, hr⟩ := ih ha.2 h
      exact ⟨ends', (ends?_after_segment ho value rest).trans he, hr.imp .tail⟩
    cases segment with
    | field name => exact concrete (.key name) h
    | index position => exact concrete (.index position) h
    | append => exact absurd rfl ha.1
    | filter constraints =>
      rcases node with _ | document
      · cases h
        exact ⟨[], rfl, .nil⟩
      cases document with
      | list items =>
        have hu := update_filter value
          (revise_ne_refused (.of_not_mem (by simp [ha.2]) _) h)
        rw [after_some, hu, ends?_filter, gather?_map]
        rw [ends?_filter] at h
        refine gather?_related .nil .append ?_ h
        rintro item - front hf
        refine repeats_item (fun ends he => ?_) hf
        rw [← after_some]
        exact ih ha.2 he
      | _ =>
        cases h
        exact ⟨[], rfl, .nil⟩

theorem ends?_document_iff {path : Path} {document : Json} {ends : List (Option Json)} :
    path.ends? (some document) = some ends ↔
      ∃ places, path.places .write document = .ok places ∧ places.map Place.value = ends := by
  rw [ends?_eq_some_iff]
  simp only [places_eq_ok_iff]
  rfl

theorem values_of_ends? {path : Path} (ha : .append ∉ path) {document : Json}
    {ends : List (Option Json)} (h : path.ends? (some document) = some ends) :
    path.values document = .ok (ends.filterMap id) := by
  obtain ⟨places, hp, rfl⟩ := ends?_document_iff.mp h
  have hr := reach?_read_of_write ha rfl (places_eq_ok_iff.mp hp)
  rw [values, places_eq_ok_iff.mpr hr]
  have hv (place : Place) :
      (if place.value.isSome = true then place.value else none) = place.value := by
    cases place.value <;> rfl
  change Except.ok ((places.filter fun p => p.value.isSome).filterMap Place.value) = _
  rw [List.filterMap_filter, List.filterMap_map]
  simp only [hv, Function.id_comp]

theorem kind_update_ne_null {path : Path} (hp : path ≠ []) {document : Json}
    (hd : document.kind ≠ .null) (value : Json) : (path.update value document).kind ≠ .null := by
  have kept {α : Type} {f : α → Json} (k : Kind) (hf : ∀ a, (f a).kind = k) (hk : k ≠ .null)
      (revision : Revision α) : ((revision.map f).getD document).kind ≠ .null := by
    cases revision with
    | refused | untouched => exact hd
    | revised result => exact (hf result).trans_ne hk
  cases path with
  | nil => exact absurd rfl hp
  | cons segment rest =>
    cases document with
    | null => exact absurd rfl hd
    | bool | number | string => cases segment <;> exact hd
    | object members =>
      cases segment with
      | field name => exact kept .object (fun _ => rfl) (by decide) _
      | _ => exact hd
    | list items =>
      rw [update]
      cases segment with
      | field name => exact hd
      | append | filter => exact kept .list (fun _ => rfl) (by decide) _
      | index position =>
        rw [revise]
        repeat' split
        · exact kept .list (fun _ => rfl) (by decide) _
        · exact kept .list (fun _ => rfl) (by decide) _
        · exact hd

end Path

theorem Location.assignAll_of_get? {locations : List Location} {document value : Json}
    (h : ∀ location ∈ locations, location.get? document = some value) :
    assignAll value locations document = ⟨document, none⟩ := by
  induction locations with
  | nil => rfl
  | cons location rest ih =>
    obtain ⟨hl, hr⟩ := List.forall_mem_cons.mp h
    rw [assignAll_cons, assign_of_get? hl]
    exact ih hr

/-- A write that succeeds leaves the updated document. -/
theorem Path.eq_update_of_write {path : Path} (ha : .append ∉ path) {value document result : Json}
    {n : Nat} (h : path.write value document = ⟨result, .ok n⟩) :
    result = path.update value document := by
  obtain ⟨-, -, -, locations, hl, -, hw⟩ := write_eq_ok_iff.mp h
  have hg := (Fits.of_not_mem ha (some document)).agrees_locations value
  rw [hl] at hg
  rw [update]
  generalize path.revise value (some document) = revision at hg ⊢
  cases hg with
  | untouched =>
    cases hw
    rfl
  | revised _ hr =>
    rw [hr] at hw
    cases hw
    rfl

/-- After a write through a path that appends nothing, the path has the value and no other one, in
no more places than were written, and in as many if no filter looks at the field through which the
path goes on from it. Writing the value again writes just these places and changes nothing. -/
theorem write_repeat {path : Path} (ha : .append ∉ path) {value document result : Json} {n : Nat}
    (h : path.write value document = ⟨result, .ok n⟩) :
    ∃ m ≤ n, path.values result = .ok (List.replicate m value) ∧
      path.write value result = ⟨result, .ok m⟩ ∧ (path.KeepsFilters → m = n) := by
  obtain rfl := Path.eq_update_of_write ha h
  obtain ⟨hd, hp, hf, locations, hl, rfl, -⟩ := Path.write_eq_ok_iff.mp h
  obtain ⟨places, hw, rfl⟩ := Path.locations_eq_ok_iff.mp hl
  obtain ⟨ends', he, m, hm, rfl, hk⟩ := Path.repeats_ends? value ha
    (Path.ends?_document_iff.mpr ⟨places, hw, rfl⟩)
  rw [Path.after_some] at he
  rw [List.length_map] at hm hk ⊢
  refine ⟨m, hm, ?_, ?_, fun h => hk ⟨h, hf⟩⟩
  · rw [Path.values_of_ends? ha he]
    simp
  · obtain ⟨places', hw', he'⟩ := Path.ends?_document_iff.mp he
    refine Path.write_eq_ok_iff.mpr ⟨Path.kind_update_ne_null hp hd value, hp, hf,
      places'.map Place.location, Path.locations_eq_ok_iff.mpr ⟨places', hw', rfl⟩, ?_, ?_⟩
    · have hl := congrArg List.length he'
      simpa using hl
    · refine assignAll_of_get? (List.forall_mem_map.mpr ?_)
      intro place hm
      have hr := (Path.Fits.of_not_mem ha _).reached_of_mem_places hw' place hm
      rw [hr.get?_location]
      exact List.eq_of_mem_replicate (he' ▸ List.mem_map_of_mem hm)

theorem write_repeat_nested :
    Segment.append ∉ [Segment.field "p", .filter [⟨"s.t", "CA"⟩], .field "z", .index 1] ∧
    Path.KeepsFilters [.field "p", .filter [⟨"s.t", "CA"⟩], .field "z", .index 1] ∧
    Path.write [.field "p", .filter [⟨"s.t", "CA"⟩], .field "z", .index 1] (.bool true)
      (.object [("p", .list [.object [("s", .object [("t", .string "CA")])], .null])]) =
    ⟨.object [("p", .list [.object [("s", .object [("t", .string "CA")]),
      ("z", .list [.null, .bool true])], .null])], .ok 1⟩ ∧
    Path.values [.field "p", .filter [⟨"s.t", "CA"⟩], .field "z", .index 1]
      (.object [("p", .list [.object [("s", .object [("t", .string "CA")]),
        ("z", .list [.null, .bool true])], .null])]) = .ok [.bool true] := by
  have ha : Segment.append ∉
      [Segment.field "p", .filter [⟨"s.t", "CA"⟩], .field "z", .index 1] := by simp
  have hk : Path.KeepsFilters [.field "p", .filter [⟨"s.t", "CA"⟩], .field "z", .index 1] := by
    intro constraints name hi
    obtain ⟨rfl, rfl⟩ : constraints = [⟨"s.t", "CA"⟩] ∧ name = "z" := by
      simpa [List.infix_cons_iff] using hi
    have hd : Json.dottedParts "s.t" = ["s", "t"] := rfl
    simp [Constraint.Avoids, hd]
  have hw : Path.write [.field "p", .filter [⟨"s.t", "CA"⟩], .field "z", .index 1] (.bool true)
      (.object [("p", .list [.object [("s", .object [("t", .string "CA")])], .null])]) =
      ⟨.object [("p", .list [.object [("s", .object [("t", .string "CA")]),
        ("z", .list [.null, .bool true])], .null])], .ok 1⟩ := rfl
  obtain ⟨m, -, hv, -, he⟩ := write_repeat ha hw
  obtain rfl := he hk
  exact ⟨ha, hk, hw, hv⟩

/-- A write to the field that its filter looks at loses the element. -/
example : Path.write [.filter [⟨"s", "CA"⟩], .field "s"] .null
      (.list [.object [("s", .string "CA")]]) = ⟨.list [.object [("s", .null)]], .ok 1⟩ ∧
    Path.write [.filter [⟨"s", "CA"⟩], .field "s"] .null (.list [.object [("s", .null)]]) =
      ⟨.list [.object [("s", .null)]], .ok 0⟩ :=
  ⟨rfl, rfl⟩

end DocPath
