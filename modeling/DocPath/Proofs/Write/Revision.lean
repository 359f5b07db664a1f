import DocPath.Proofs.Json.Children
import DocPath.Proofs.Places.Branches
import DocPath.Proofs.Write.Assignment

/-! # Writes as recursive updates

A write plans all of its locations first and assigns to them one by one. It amounts to one
recursive update of the document, which descends along the path and rebuilds what it passes. Where
the update refuses, the plan fails; where it writes nothing, the plan is empty; and otherwise the
assignments end without a fault in the value that the update gives.
-/

namespace DocPath

/-- What an update makes of a value, or of the absence of one. -/
inductive Revision (α : Type) where
  /-- The path cannot be written through. -/
  | refused
  /-- There is nothing to write, and nothing is created. -/
  | untouched
  | revised (result : α)

namespace Revision

variable {α β : Type}

def map (f : α → β) : Revision α → Revision β
  | .refused => .refused
  | .untouched => .untouched
  | .revised result => .revised (f result)

def cons (item : Json) (items : List Json) :
    Revision Json → Revision (List Json) → Revision (List Json)
  | .refused, _ => .refused
  | _, .refused => .refused
  | .untouched, .untouched => .untouched
  | .untouched, .revised others => .revised (item :: others)
  | .revised first, .untouched => .revised (first :: items)
  | .revised first, .revised others => .revised (first :: others)

def each (revise : Json → Revision Json) : List Json → Revision (List Json)
  | [] => .untouched
  | item :: items => cons item items (revise item) (each revise items)

end Revision

/-- Updates a value, or the absence of one, at the end of a path. A filter rewrites the elements
that satisfy it; every other segment rewrites or creates one member or element. -/
def Path.revise (value : Json) : Path → Option Json → Revision Json
  | [], _ => .revised value
  | .field name :: rest, node =>
    match node with
    | some (.object members) =>
      (revise value rest (Members.get? members name)).map fun child =>
        .object (Members.put name child members)
    | none | some .null => (revise value rest none).map fun child => .object [(name, child)]
    | some _ => .refused
  | .index position :: rest, node =>
    match node with
    | some (.list items) =>
      match items[position]? with
      | some item =>
        (revise value rest (some item)).map fun child => .list (items.set position child)
      | none =>
        if paddingAllowed position items.length then
          (revise value rest none).map fun child =>
            .list (items ++ List.replicate (position - items.length) .null ++ [child])
        else .refused
    | none | some .null =>
      if paddingAllowed position 0 then
        (revise value rest none).map fun child => .list (List.replicate position .null ++ [child])
      else .refused
    | some _ => .refused
  | .append :: rest, node =>
    match node with
    | some (.list items) => (revise value rest none).map fun child => .list (items ++ [child])
    | none | some .null => (revise value rest none).map fun child => .list [child]
    | some _ => .refused
  | .filter constraints :: rest, node =>
    match node with
    | some (.list items) =>
      (Revision.each (fun item =>
        if item.satisfies constraints then revise value rest (some item) else .untouched) items).map
        .list
    | _ => .untouched

/-- In every list of the value, at any depth, the position after the last element and the length of
a list that ends there are counted in 64 bits. Every value in a memory with 64-bit addresses is so:
each element takes a byte or more, and no list takes up half of the addresses. -/
inductive Json.Addressable : Json → Prop where
  | null : Addressable .null
  | bool (value : Bool) : Addressable (.bool value)
  | number (value : Number) : Addressable (.number value)
  | string (value : String) : Addressable (.string value)
  | list {items : List Json} :
      items.length + 1 < positionLimit → (∀ item ∈ items, Addressable item) →
        Addressable (.list items)
  | object {members : Members} : (∀ m ∈ members, Addressable m.2) → Addressable (.object members)

namespace Json.Addressable

attribute [simp] null bool number string

@[simp] theorem list_iff {items : List Json} :
    (Json.list items).Addressable ↔
      items.length + 1 < positionLimit ∧ ∀ item ∈ items, item.Addressable := by
  constructor
  · rintro ⟨⟩
    exact ⟨‹_›, ‹_›⟩
  · rintro ⟨hl, hi⟩
    exact .list hl hi

@[simp] theorem object_iff {members : Members} :
    (Json.object members).Addressable ↔ ∀ m ∈ members, m.2.Addressable := by
  constructor
  · rintro ⟨⟩
    assumption
  · exact .object

theorem get? {members : Members} (h : (Json.object members).Addressable) {name : String}
    {child : Json} (hg : members.get? name = some child) : child.Addressable :=
  object_iff.mp h _ (Members.mem_of_get? hg)

theorem of_everywhere {p : Json → Prop} {document : Json} (h : document.Everywhere p)
    (hp : ∀ items, p (.list items) → items.length + 1 < positionLimit) :
    document.Addressable := by
  induction document with
  | list items ih =>
    obtain ⟨hl, hi⟩ := Everywhere.list_iff.mp h
    exact .list (hp items hl) fun item hm => ih item hm (hi item hm)
  | object members ih =>
    exact .object fun m hm => ih m hm ((Everywhere.object_iff.mp h).2 m hm)
  | _ => constructor

end Json.Addressable

/-- Assigning to the planned locations does to a document what a revision says. -/
inductive Agrees (value document : Json) : Option (List Location) → Revision Json → Prop where
  | refused : Agrees value document none .refused
  | untouched : Agrees value document (some []) .untouched
  | revised {locations : List Location} {result : Json} : locations ≠ [] →
      Location.assignAll value locations document = ⟨result, none⟩ →
      Agrees value document (some locations) (.revised result)

namespace Agrees

variable {value document : Json} {plan : Option (List Location)} {revision : Revision Json}

theorem below {step : Step} {slot : Slot} (hs : document.slot? step = some slot)
    (h : Agrees value slot.child plan revision) :
    Agrees value document (plan.map (List.map (step :: ·))) (revision.map slot.around) := by
  cases h with
  | refused => exact .refused
  | untouched => exact .untouched
  | revised hn ha =>
    refine .revised (by simpa using hn) ?_
    rw [Location.assignAll_map_cons value hs hn, ha]
    rfl

end Agrees

theorem slot?_item (front back : List Json) (item : Json) :
    (Json.list (front ++ item :: back)).slot? (.index front.length) =
      some ⟨item, fun child => .list (front ++ child :: back)⟩ := by
  rw [slot?_index rfl (.inl (by simp))]
  simp [padTo_of_lt]

theorem Agrees.cons {value item : Json} {front items : List Json}
    {plan plan' : Option (List Location)} {first : Revision Json} {others : Revision (List Json)}
    (h : Agrees value (.list (front ++ item :: items)) plan
      (first.map fun new => .list (front ++ new :: items)))
    (h' : ∀ new, Agrees value (.list (front ++ new :: items)) plan'
      (others.map fun news => .list (front ++ new :: news))) :
    Agrees value (.list (front ++ item :: items))
      (plan.bind fun locations => plan'.map (locations ++ ·))
      ((Revision.cons item items first others).map fun news => .list (front ++ news)) := by
  cases first with
  | refused =>
    cases h with
    | refused => exact .refused
  | untouched =>
    cases h with
    | untouched => cases others <;> simpa [Revision.cons, Revision.map] using h' item
  | revised new =>
    cases h with
    | revised hn ha =>
      specialize h' new
      cases others with
      | refused =>
        cases h' with
        | refused => exact .refused
      | untouched =>
        cases h' with
        | untouched => exact .revised (by simpa using hn) (by simpa using ha)
      | revised news =>
        cases h' with
        | revised hn' ha' =>
          refine .revised (by simp [hn]) ?_
          rw [Location.assignAll_append, ha]
          exact ha'

/-- Plans and revisions that agree for every element of a list agree for the list. The elements in
`front` are those that are already done. -/
theorem Agrees.each {value : Json} {plan : Json → Option (List Location)}
    {revise : Json → Revision Json} (front items : List Json)
    (h : ∀ item ∈ items, Agrees value item (plan item) (revise item)) :
    Agrees value (.list (front ++ items))
      (gather? (fun e => (plan e.1).map (List.map (.index e.2 :: ·))) (items.zipIdx front.length))
      ((Revision.each revise items).map fun news => .list (front ++ news)) := by
  induction items generalizing front with
  | nil => exact .untouched
  | cons item items ih =>
    apply Agrees.cons
    · exact (h item (List.mem_cons_self ..)).below (slot?_item front items item)
    · intro new
      simpa using ih (front ++ [new]) fun i hi => h i (List.mem_cons_of_mem _ hi)

def Path.plan? (path : Path) (node : Option Json) : Option (List Location) :=
  (path.reach? .write ⟨[], node⟩).map (List.map Place.location)

theorem Path.plan?_cons (segment : Segment) (rest : Path) (node : Option Json) :
    plan? (segment :: rest) node =
      ((Place.follow .write ⟨[], node⟩ segment).toOption).bind
        (gather? fun place =>
          (plan? rest place.value).map (List.map (place.location ++ ·))) := by
  simp only [plan?, reach?]
  cases (Place.follow .write ⟨[], node⟩ segment).toOption with
  | none => rfl
  | some next =>
    simp only [Option.bind_some, map_gather?]
    congr 1
    funext place
    rw [reach?_eq_map_under]
    simp [Function.comp_def]

theorem Path.plan?_step {segment : Segment} {node child : Option Json} {step : Step} (rest : Path)
    (h : Place.follow .write ⟨[], node⟩ segment = .ok [⟨[step], child⟩]) :
    plan? (segment :: rest) node = (plan? rest child).map (List.map (step :: ·)) := by
  rw [plan?_cons, h]
  exact gather?_singleton ..

theorem Path.plan?_refused {segment : Segment} {node : Option Json} {fault : TargetFault}
    (rest : Path) (h : Place.follow .write ⟨[], node⟩ segment = .error fault) :
    plan? (segment :: rest) node = none := by
  rw [plan?_cons, h]
  rfl

section Step

variable {value : Json} {rest : Path}

theorem Agrees.step {segment : Segment} {node child : Option Json} {step : Step} {slot : Slot}
    (hf : Place.follow .write ⟨[], node⟩ segment = .ok [⟨[step], child⟩])
    (hs : (node.getD .null).slot? step = some slot) (hc : slot.child = child.getD .null)
    (h : Agrees value (child.getD .null) (rest.plan? child) (rest.revise value child)) :
    Agrees value (node.getD .null) (Path.plan? (segment :: rest) node)
      ((rest.revise value child).map slot.around) := by
  rw [Path.plan?_step rest hf]
  exact Agrees.below hs (hc ▸ h)

theorem follow_field_object (members : Members) (name : String) :
    Place.follow .write ⟨[], some (.object members)⟩ (.field name) =
      .ok [⟨[.key name], members.get? name⟩] := by
  cases h : members.get? name <;> simp [Place.follow, h, Place.planned, Place.extend]

theorem follow_index_past {items : List Json} {position : Nat} (h : items.length ≤ position) :
    Place.follow .write ⟨[], some (.list items)⟩ (.index position) =
      if paddingAllowed position items.length then .ok [⟨[.index position], none⟩]
      else .error (.tooMuchPadding position []) := by
  simp [Place.follow, h, Place.plannedPast, Place.extend]

theorem lt_positionLimit_of_paddingAllowed {position length : Nat}
    (h : paddingAllowed position length = true) : position + 1 < positionLimit := by
  simp only [paddingAllowed, Bool.and_eq_true, decide_eq_true_eq] at h
  exact h.1

def AddressableNode (node : Option Json) : Prop :=
  ∀ v, node = some v → v.Addressable

theorem AddressableNode.none : AddressableNode none := fun _ h => nomatch h

/-- Only where a path appends, the position after the last element has to be counted. -/
def Path.Fits (path : Path) (node : Option Json) : Prop :=
  .append ∈ path → AddressableNode node

theorem Path.Fits.none (path : Path) : path.Fits none := fun _ => .none

theorem Path.Fits.of_not_mem {path : Path} (h : .append ∉ path) (node : Option Json) :
    path.Fits node :=
  fun ha => absurd ha h

theorem Path.Fits.of_addressable (path : Path) {document : Json} (h : document.Addressable) :
    path.Fits (some document) := by
  rintro - _ ⟨⟩
  exact h

theorem Path.Fits.below {segment : Segment} {value child : Json}
    (h : Path.Fits (segment :: rest) (some value))
    (hc : value.Addressable → child.Addressable) : rest.Fits (some child) := by
  rintro ha _ ⟨⟩
  exact hc (h (List.mem_cons_of_mem _ ha) value rfl)

variable (ih : ∀ node, rest.Fits node →
  Agrees value (node.getD .null) (rest.plan? node) (rest.revise value node))
include ih

theorem agrees_field (name : String) {node : Option Json}
    (h : Path.Fits (.field name :: rest) node) :
    Agrees value (node.getD .null) (Path.plan? (.field name :: rest) node)
      (Path.revise value (.field name :: rest) node) := by
  have created {node : Option Json} (hn : (node.getD .null).orEmptyObject = .object [])
      (hf : Place.follow .write ⟨[], node⟩ (.field name) = .ok [⟨[.key name], none⟩]) :=
    Agrees.step hf (slot?_key name hn) rfl (ih none (.none rest))
  rcases node with _ | node
  · exact created rfl rfl
  cases node with
  | null => exact created rfl rfl
  | object members =>
    refine Agrees.step (follow_field_object members name) (slot?_key name rfl) rfl (ih _ ?_)
    cases hg : Members.get? members name with
    | none => exact .none rest
    | some child => exact h.below fun ha => ha.get? hg
  | _ =>
    rw [Path.plan?_refused rest rfl]
    exact .refused

theorem agrees_index_past (node : Option Json) (items : List Json) {position : Nat}
    (hn : (node.getD .null).orEmptyList = .list items) (hl : items.length ≤ position)
    (hf : Place.follow .write ⟨[], node⟩ (.index position) =
      if paddingAllowed position items.length then .ok [⟨[.index position], none⟩]
      else .error (.tooMuchPadding position [])) :
    Agrees value (node.getD .null) (Path.plan? (.index position :: rest) node)
      (if paddingAllowed position items.length then
        (rest.revise value none).map fun child =>
          .list (items ++ List.replicate (position - items.length) .null ++ [child])
      else .refused) := by
  by_cases hp : paddingAllowed position items.length = true
  · rw [if_pos hp] at hf ⊢
    have hs := slot?_index hn (.inr (lt_positionLimit_of_paddingAllowed hp))
    simp only [List.getElem?_eq_none hl, Option.getD_none, set_padTo hl] at hs
    exact Agrees.step hf hs rfl (ih none (.none rest))
  · rw [if_neg hp] at hf ⊢
    rw [Path.plan?_refused rest hf]
    exact .refused

theorem agrees_index (position : Nat) {node : Option Json}
    (h : Path.Fits (.index position :: rest) node) :
    Agrees value (node.getD .null) (Path.plan? (.index position :: rest) node)
      (Path.revise value (.index position :: rest) node) := by
  rcases node with _ | node
  · exact agrees_index_past ih none [] rfl (Nat.zero_le _) rfl
  cases node with
  | null => exact agrees_index_past ih (some .null) [] rfl (Nat.zero_le _) rfl
  | list items =>
    rcases Nat.lt_or_ge position items.length with hlt | hge
    · have hi : items[position]? = some items[position] := List.getElem?_eq_getElem hlt
      have hs := @slot?_index (.list items) items position rfl (.inl hlt)
      have hf : Place.follow .write ⟨[], some (.list items)⟩ (.index position) =
          .ok [⟨[.index position], some items[position]⟩] := by
        simp [Place.follow, hi, Place.extend]
      simp only [Path.revise, hi]
      simp only [hi, Option.getD_some, padTo_of_lt hlt] at hs
      refine Agrees.step hf hs rfl (ih _ (h.below fun ha => ?_))
      exact (Json.Addressable.list_iff.mp ha).2 _ (List.getElem_mem hlt)
    · simp only [Path.revise, List.getElem?_eq_none hge]
      exact agrees_index_past ih _ items rfl hge (follow_index_past hge)
  | _ =>
    rw [Path.plan?_refused rest rfl]
    exact .refused

theorem agrees_append {node : Option Json} (h : Path.Fits (.append :: rest) node) :
    Agrees value (node.getD .null) (Path.plan? (.append :: rest) node)
      (Path.revise value (.append :: rest) node) := by
  have added (node : Option Json) (items : List Json)
      (hn : (node.getD .null).orEmptyList = .list items) (hl : items.length + 1 < positionLimit)
      (hf : Place.follow .write ⟨[], node⟩ .append = .ok [⟨[.index items.length], none⟩]) :
      Agrees value (node.getD .null) (Path.plan? (.append :: rest) node)
        ((rest.revise value none).map fun child => .list (items ++ [child])) := by
    have hs := slot?_index hn (.inr hl)
    simp only [List.getElem?_eq_none (Nat.le_refl _), Option.getD_none, set_padTo (Nat.le_refl _),
      Nat.sub_self, List.replicate_zero, List.append_nil] at hs
    exact Agrees.step hf hs rfl (ih none (.none rest))
  rcases node with _ | node
  · exact added none [] rfl (by decide) rfl
  cases node with
  | null => exact added (some .null) [] rfl (by decide) rfl
  | list items =>
    have ha := h (List.mem_cons_self ..) _ rfl
    exact added (some (.list items)) items rfl (Json.Addressable.list_iff.mp ha).1 rfl
  | _ =>
    rw [Path.plan?_refused rest rfl]
    exact .refused

theorem agrees_filter (constraints : List Constraint) {node : Option Json}
    (h : Path.Fits (.filter constraints :: rest) node) :
    Agrees value (node.getD .null) (Path.plan? (.filter constraints :: rest) node)
      (Path.revise value (.filter constraints :: rest) node) := by
  rcases node with _ | node
  · exact .untouched
  cases node with
  | list items =>
    have hf : Place.follow .write ⟨[], some (.list items)⟩ (.filter constraints) =
        .ok ((items.zipIdx.filter fun e => e.1.satisfies constraints).map fun e =>
          ⟨[.index e.2], some e.1⟩) := rfl
    have he : ∀ item ∈ items, Agrees value item
        (if item.satisfies constraints then rest.plan? (some item) else some [])
        (if item.satisfies constraints then rest.revise value (some item) else .untouched) := by
      intro item hm
      split
      · exact ih (some item) (h.below fun ha => (Json.Addressable.list_iff.mp ha).2 item hm)
      · exact .untouched
    have hg := Agrees.each [] items he
    rw [Path.plan?_cons, hf]
    simp only [Except.toOption, Option.bind_some, gather?_map, gather?_filter]
    simpa [Path.revise, Function.comp_def, apply_ite] using hg
  | _ => exact .untouched

end Step

/-- A plan does to a document what the recursive update does. -/
theorem agrees_revise (value : Json) (path : Path) (node : Option Json) (h : path.Fits node) :
    Agrees value (node.getD .null) (path.plan? node) (path.revise value node) := by
  induction path generalizing node with
  | nil => exact .revised (by simp) rfl
  | cons segment rest ih =>
    cases segment with
    | field name => exact agrees_field ih name h
    | index position => exact agrees_index ih position h
    | append => exact agrees_append ih h
    | filter constraints => exact agrees_filter ih constraints h

theorem Path.toOption_locations (path : Path) (document : Json) :
    (path.locations .write document).toOption = path.plan? (some document) := by
  change _ = (path.reach? .write (Place.root document)).map (List.map Place.location)
  rw [← toOption_places, locations]
  cases path.places .write document <;> rfl

theorem Path.Fits.agrees_locations (value : Json) {path : Path} {document : Json}
    (h : path.Fits (some document)) :
    Agrees value document (path.locations .write document).toOption
      (path.revise value (some document)) := by
  rw [toOption_locations]
  exact agrees_revise value path (some document) h

theorem agrees_locations (value : Json) (path : Path) {document : Json} (h : document.Addressable) :
    Agrees value document (path.locations .write document).toOption
      (path.revise value (some document)) :=
  (Path.Fits.of_addressable path h).agrees_locations value

theorem Path.write_of_guard {path : Path} {document : Json} (value : Json)
    (h : document.kind = .null ∨ path = [] ∨ path.endsInFilter = true) :
    ∃ error, path.write value document = ⟨document, .error error⟩ := by
  by_cases hd : document.kind = .null
  · exact ⟨_, if_pos hd⟩
  by_cases hp : path = []
  · subst hp
    exact ⟨_, if_neg hd⟩
  have hf : path.endsInFilter = true := (h.resolve_left hd).resolve_left hp
  exact ⟨.untargetable path .elementWithoutKey, by simp [write, hd, hp, hf, Written.failed]⟩

section Guards

variable {path : Path} {value document : Json} (hd : document.kind ≠ .null) (hp : path ≠ [])
  (hf : path.endsInFilter = false)
include hd hp hf

theorem Path.write_of_locations_error {error : PathError}
    (hl : path.locations .write document = .error error) :
    path.write value document = ⟨document, .error error⟩ := by
  simp [write, hd, hp, hf, hl, Written.failed]

theorem Path.write_of_locations_ok {locations : List Location} {result : Json}
    (hl : path.locations .write document = .ok locations)
    (ha : Location.assignAll value locations document = ⟨result, none⟩) :
    path.write value document = ⟨result, .ok locations.length⟩ := by
  simp [write, hd, hp, hf, hl, ha]

end Guards

/-- What a write comes to: it is refused before anything is assigned, or it assigns at all planned
locations, which may stop at a fault. -/
inductive Path.WriteCases (path : Path) (value document : Json) : Written → Prop where
  | refused (error : PathError) : WriteCases path value document ⟨document, .error error⟩
  | stopped {locations : List Location} {next : Json} {fault : TargetFault} :
      path.locations .write document = .ok locations →
      Location.assignAll value locations document = ⟨next, some fault⟩ →
        WriteCases path value document ⟨next, .error (.untargetable path fault)⟩
  | done {locations : List Location} {result : Json} :
      document.kind ≠ .null → path ≠ [] → path.endsInFilter = false →
      path.locations .write document = .ok locations →
      Location.assignAll value locations document = ⟨result, none⟩ →
        WriteCases path value document ⟨result, .ok locations.length⟩

theorem Path.write_cases (path : Path) (value document : Json) :
    path.WriteCases value document (path.write value document) := by
  by_cases hg : document.kind = .null ∨ path = [] ∨ path.endsInFilter = true
  · obtain ⟨error, hw⟩ := write_of_guard value hg
    rw [hw]
    exact .refused error
  simp only [not_or, Bool.not_eq_true] at hg
  obtain ⟨hd, hp, hf⟩ := hg
  cases hl : path.locations .write document with
  | error error =>
    rw [write_of_locations_error hd hp hf hl]
    exact .refused error
  | ok locations =>
    rcases ha : Location.assignAll value locations document with ⟨next, _ | fault⟩
    · rw [write_of_locations_ok hd hp hf hl ha]
      exact .done hd hp hf hl ha
    · have hw : path.write value document = ⟨next, .error (.untargetable path fault)⟩ := by
        simp [write, hd, hp, hf, hl, ha, Written.failed]
      rw [hw]
      exact .stopped hl ha

/-- A write that succeeds has planned its locations and has put the value at each of them. -/
theorem Path.write_eq_ok_iff {path : Path} {value document result : Json} {n : Nat} :
    path.write value document = ⟨result, .ok n⟩ ↔
      document.kind ≠ .null ∧ path ≠ [] ∧ path.endsInFilter = false ∧
        ∃ locations, path.locations .write document = .ok locations ∧ locations.length = n ∧
          Location.assignAll value locations document = ⟨result, none⟩ := by
  constructor
  · intro h
    have hc := path.write_cases value document
    rw [h] at hc
    cases hc with
    | done hd hp hf hl ha => exact ⟨hd, hp, hf, _, hl, rfl, ha⟩
  · rintro ⟨hd, hp, hf, locations, hl, rfl, ha⟩
    exact write_of_locations_ok hd hp hf hl ha

theorem Path.locations_error {path : Path} {document : Json} {error : PathError}
    (h : path.locations .write document = .error error) :
    ∃ fault, error = .untargetable path fault := by
  obtain ⟨fault, -, he⟩ := locations_eq_error_iff.mp h
  exact ⟨fault, he⟩

/-- Planning and assigning amount to the recursive update: the plan fails where the update refuses,
is empty where the update writes nothing, and otherwise leads to the updated document. A write that
is let through then leaves the document as it was, or is the updated one and counts its locations.
-/
theorem write_agrees_revise (value : Json) (path : Path) {document : Json}
    (h : document.Addressable) :
    Agrees value document (path.locations .write document).toOption
        (path.revise value (some document)) ∧
      (document.kind ≠ .null → path ≠ [] → path.endsInFilter = false →
        match path.revise value (some document) with
        | .refused =>
          ∃ fault, path.write value document = ⟨document, .error (.untargetable path fault)⟩
        | .untouched => path.write value document = ⟨document, .ok 0⟩
        | .revised result =>
          ∃ locations, path.locations .write document = .ok locations ∧ locations ≠ [] ∧
            path.write value document = ⟨result, .ok locations.length⟩) ∧
      (document.kind = .null ∨ path = [] ∨ path.endsInFilter = true →
        ∃ error, path.write value document = ⟨document, .error error⟩) := by
  have ha := agrees_locations value path h
  refine ⟨ha, ?_, Path.write_of_guard value⟩
  intro hd hp hf
  cases hl : path.locations .write document with
  | error error =>
    obtain ⟨fault, rfl⟩ := Path.locations_error hl
    rw [hl] at ha
    generalize path.revise value (some document) = revision at ha ⊢
    cases ha
    exact ⟨fault, Path.write_of_locations_error hd hp hf hl⟩
  | ok locations =>
    rw [hl] at ha
    generalize path.revise value (some document) = revision at ha ⊢
    simp only [Except.toOption] at ha
    cases ha with
    | untouched => exact Path.write_of_locations_ok hd hp hf hl rfl
    | revised hn he => exact ⟨locations, rfl, hn, Path.write_of_locations_ok hd hp hf hl he⟩

def peopleInCA : Json :=
  .object [("people", .list [.object [("state", .string "CA")], .null,
    .object [("state", .string "CA"), ("zip", .null)]])]

def peopleRevised : Json :=
  .object [("people", .list [.object [("state", .string "CA"), ("zip", .list [.null, .bool true])],
    .null, .object [("state", .string "CA"), ("zip", .list [.null, .bool true])]])]

theorem write_agrees_revise_people :
    peopleInCA.Addressable ∧
    Path.write [.field "people", .filter [⟨"state", "CA"⟩], .field "zip", .index 1] (.bool true)
      peopleInCA = ⟨peopleRevised, .ok 2⟩ := by
  have ha : peopleInCA.Addressable := by
    simp [peopleInCA, positionLimit, UInt64.size]
  obtain ⟨locations, hl, -, hw⟩ := (write_agrees_revise (.bool true)
    [.field "people", .filter [⟨"state", "CA"⟩], .field "zip", .index 1] ha).2.1
    (by decide) (by decide) rfl
  have hn : Except.ok _ = Except.ok locations := hl
  cases hn
  exact ⟨ha, hw⟩

end DocPath
