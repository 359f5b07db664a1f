import DocPath.Proofs.Leaves.Reading
import DocPath.Proofs.Places.Pointer
import DocPath.Proofs.Write.Concrete

/-! # Fields of filters as paths

A filter finds the field of a constraint by a rule of its own: a key that is the whole name, or else
the parts of the name between its dots, one object after the other. Where no key has a dot, and the
name is the text of a path of fields only, this is what the path reads.
-/

namespace DocPath

open Grammar

def Path.OnlyFields (path : Path) : Prop :=
  ∀ segment ∈ path, ∃ name, segment = .field name

namespace Grammar

variable {text : List Char} {path : Path}

theorem Groups.eq_nil_of_onlyFields (h : Groups text path) (hf : path.OnlyFields) :
    text = [] ∧ path = [] := by
  cases h with
  | nil => exact ⟨rfl, rfl⟩
  | cons hg _ =>
    obtain ⟨name, rfl⟩ := hf _ (List.mem_cons_self ..)
    obtain ⟨-, hi⟩ := hg
    nomatch hi

theorem Token.eq_of_onlyFields (h : Token text path) (hf : path.OnlyFields) :
    path = [.field (String.ofList text)] ∧ '.' ∉ text := by
  cases h with
  | groups hne hg => exact absurd (hg.eq_nil_of_onlyFields hf).1 hne
  | field _ hc hg =>
    obtain ⟨rfl, rfl⟩ := hg.eq_nil_of_onlyFields fun segment hm => hf segment (.tail _ hm)
    rw [List.append_nil]
    exact ⟨rfl, fun hm => (hc '.' hm).1 rfl⟩

theorem Derives.eq_of_onlyFields (h : Derives text path) (hf : path.OnlyFields) :
    path = (Text.splitAt '.' text).map fun part => .field (String.ofList part) := by
  induction h with
  | token ht =>
    obtain ⟨rfl, hd⟩ := ht.eq_of_onlyFields hf
    rw [Text.splitAt_of_not_mem hd]
    rfl
  | dot ht _ ih =>
    obtain ⟨hf, hr⟩ := List.forall_mem_append.mp hf
    obtain ⟨rfl, hd⟩ := ht.eq_of_onlyFields hf
    rw [Text.splitAt_append_cons hd, ih hr]
    rfl

end Grammar

def Location.ofKeys (keys : List String) : Location :=
  keys.map .key

theorem Path.eq_of_parse_onlyFields {text : String} {path : Path}
    (h : Path.parse text = .ok path) (hf : path.OnlyFields) :
    path = (Location.ofKeys (Json.dottedParts text)).path := by
  rw [(Path.parse_eq_ok_iff.mp h).eq_of_onlyFields hf, Location.ofKeys, Json.dottedParts,
    Location.path, List.map_map, List.map_map]
  rfl

namespace Json

theorem get?_ofKeys (keys : List String) (value : Json) :
    (Location.ofKeys keys).get? value = value.descend? keys := by
  rw [Location.get?, Location.ofKeys, List.foldlM_map]
  rfl

theorem descend?_append (front back : List String) (value : Json) :
    value.descend? (front ++ back) = (value.descend? front).bind (·.descend? back) := by
  rw [descend?, List.foldlM_append]
  rfl

theorem descend?_cons_of_kind_ne {value : Json} (h : value.kind ≠ .object) (key : String)
    (keys : List String) : value.descend? (key :: keys) = none := by
  have hm : value.member? key = none := by
    cases value with
    | object => exact absurd rfl h
    | _ => rfl
  have hd : value.descend? (key :: keys) = (value.member? key).bind (·.descend? keys) := rfl
  rw [hd, hm, Option.bind_none]

theorem PlainKeys.member?_eq_none {value : Json} (hk : value.PlainKeys) {name : String}
    (h : '.' ∈ name.toList) : value.member? name = none := by
  refine Option.eq_none_iff_forall_ne_some.mpr fun child hc => ?_
  have hs : (Step.key name).shape.WellFormed := shape_wellFormed_of_child? hk hc
  exact (hs.2 _ h).1 rfl

theorem PlainKeys.field?_eq_descend? {value : Json} (hk : value.PlainKeys) (name : String) :
    value.field? name = value.descend? (dottedParts name) := by
  by_cases h : '.' ∈ name.toList
  · rw [field?, hk.member?_eq_none h]
    exact if_pos h
  · have hd : value.descend? (dottedParts name) = value.member? name := by
      rw [dottedParts, Text.splitAt_of_not_mem h, List.map_singleton, String.ofList_toList]
      exact Option.bind_fun_some (value.member? name)
    rw [field?, hd]
    cases value.member? name with
    | none => exact if_neg h
    | some found => rfl

section Fields

variable {element : Json} {name : String} {path : Path} (hk : element.PlainKeys)
  (hp : Path.parse name = .ok path) (hf : path.OnlyFields)
include hk hp hf

/-- The field with a name is what the name reads as a path. -/
theorem valueAt_eq_field? : element.valueAt name = .ok (element.field? name) := by
  rw [hk.field?_eq_descend?, ← get?_ofKeys, ← Location.firstValue_path,
    ← Path.eq_of_parse_onlyFields hp hf, valueAt, hp]
  rfl

theorem field?_eq_none_of_front {front back : Path} (he : path = front ++ back) (hb : back ≠ [])
    (hn : ∀ node, front.firstValue element = .ok (some node) → node.kind ≠ .object) :
    element.field? name = none := by
  -- a cut of the path is a cut between the parts of the name
  have hs := Path.eq_of_parse_onlyFields hp hf
  rw [he, Location.path, Location.ofKeys, List.map_map] at hs
  obtain ⟨first, last, hd, rfl, rfl⟩ := List.map_eq_append_iff.mp hs.symm
  have hv : Path.firstValue (first.map (Step.segment ∘ Step.key)) element =
      .ok (element.descend? first) := by
    rw [← get?_ofKeys, ← Location.firstValue_path, Location.path, Location.ofKeys, List.map_map]
  rw [hk.field?_eq_descend?, hd, descend?_append]
  cases hc : element.descend? first with
  | none => rfl
  | some node =>
    cases last with
    | nil => exact absurd rfl hb
    | cons key keys => exact descend?_cons_of_kind_ne (hn node (by rw [hv, hc])) key keys

end Fields

end Json

namespace Constraint

/-- Whether the key, read as a path, finds a scalar with the expected text first. -/
def reads (c : Constraint) (element : Json) : Bool :=
  match element.valueAt c.key with
  | .ok (some found) => found.scalarText? == some c.expected
  | _ => false

theorem reads_iff (c : Constraint) (element : Json) :
    c.reads element = true ↔ ∃ found, element.valueAt c.key = .ok (some found) ∧
      found.scalarText? = some c.expected := by
  rw [reads]
  split
  · next found h => simp [h]
  · next hn =>
    refine iff_of_false nofun ?_
    rintro ⟨found, h, -⟩
    exact hn found h

def NamesFields (c : Constraint) : Prop :=
  ∃ path, Path.parse c.key = .ok path ∧ path.OnlyFields

theorem NamesFields.holds_eq_reads {c : Constraint} (hc : c.NamesFields) {element : Json}
    (hk : element.PlainKeys) : c.holds element = c.reads element := by
  obtain ⟨path, hp, hf⟩ := hc
  rw [Bool.eq_iff_iff, holds_iff, reads_iff, Json.valueAt_eq_field? hk hp hf]
  simp only [Except.ok.injEq]

end Constraint

/-- Where the keys in the elements of a list can be written in paths, and the keys of constraints
are texts of paths of fields, a filter selects the objects in which reading each key finds a scalar
with the expected text. -/
theorem Place.follow_filter_reads {access : Access} {place : Place} {items : List Json}
    {constraints : List Constraint} (hv : place.value = some (.list items))
    (hk : ∀ item ∈ items, item.kind = .object → item.PlainKeys)
    (hc : ∀ c ∈ constraints, c.NamesFields) :
    place.follow access (.filter constraints) =
      .ok ((items.zipIdx.filter fun e => e.1.kind = .object ∧ ∀ c ∈ constraints, c.reads e.1).map
        fun e => place.extend (.index e.2) (some e.1)) := by
  have hs : ∀ e ∈ items.zipIdx, e.1.satisfies constraints =
      decide (e.1.kind = .object ∧ ∀ c ∈ constraints, c.reads e.1) := by
    intro e he
    rw [Bool.eq_iff_iff, Json.satisfies_iff, decide_eq_true_iff]
    refine and_congr_right fun ho => forall₂_congr fun c hm => ?_
    rw [(hc c hm).holds_eq_reads (hk e.1 (List.fst_mem_of_mem_zipIdx he) ho)]
  simp only [follow, hv]
  rw [List.filter_congr hs]

/-- Where keys can be written in paths, the field that a filter looks at is what its name reads as a
path of fields. So a filter with such names selects just the objects in which reading each name
finds a scalar with the expected text. A constraint does not hold where the way to its field ends
early: at nothing, at a scalar or at a list. -/
theorem filter_keys_read_paths :
    (∀ (element : Json) (name : String) (path : Path), element.PlainKeys →
      Path.parse name = .ok path → path.OnlyFields →
        element.valueAt name = .ok (element.field? name)) ∧
    (∀ (access : Access) (place : Place) (items : List Json) (constraints : List Constraint),
      place.value = some (.list items) →
      (∀ item ∈ items, item.kind = .object → item.PlainKeys) →
      (∀ c ∈ constraints, c.NamesFields) →
        place.follow access (.filter constraints) =
          .ok ((items.zipIdx.filter fun e =>
            e.1.kind = .object ∧ ∀ c ∈ constraints, c.reads e.1).map
              fun e => place.extend (.index e.2) (some e.1))) ∧
    ∀ (c : Constraint) (element : Json) (front back : Path), element.PlainKeys →
      Path.parse c.key = .ok (front ++ back) → (front ++ back).OnlyFields → back ≠ [] →
      (∀ node, front.firstValue element = .ok (some node) → node.kind ≠ .object) →
        c.holds element = false := by
  refine ⟨fun element name path hk hp hf => Json.valueAt_eq_field? hk hp hf,
    fun access place items constraints hv hk hc => Place.follow_filter_reads hv hk hc,
    fun c element front back hk hp hf hb hn => ?_⟩
  have hm := Json.field?_eq_none_of_front hk hp hf rfl hb hn
  rw [Constraint.holds, Json.fieldText?, hm]
  rfl

def fieldInField : Json := .object [("a", .object [("b", .string "x")])]

theorem filter_keys_read_paths_nested :
    fieldInField.PlainKeys ∧
    Path.parse "a.b" = .ok [.field "a", .field "b"] ∧
    fieldInField.valueAt "a.b" = .ok (some (.string "x")) ∧
    Place.follow .write ⟨[.key "p"], some (.list [fieldInField, .null,
        .object [("a", .list [.string "x"])]])⟩ (.filter [⟨"a.b", "x"⟩]) =
      .ok [⟨[.key "p", .index 0], some fieldInField⟩] ∧
    Constraint.holds ⟨"a.b", "x"⟩ (.object [("a", .list [.string "x"])]) = false := by
  have hk : fieldInField.PlainKeys := by
    simp [fieldInField, Json.PlainKeys, Json.keys, Members.keys]
  have hl : (Json.object [("a", .list [.string "x"])]).PlainKeys := by
    simp [Json.PlainKeys, Json.keys, Members.keys]
  have hp : Path.parse "a.b" = .ok [.field "a", .field "b"] :=
    @Path.parse_render [.field "a", .field "b"] (by simp [Path.WellFormed, Segment.WellFormed])
  have hf : Path.OnlyFields [.field "a", .field "b"] := by simp [Path.OnlyFields]
  have hi : ∀ item ∈ [fieldInField, .null, .object [("a", .list [.string "x"])]],
      item.kind = .object → item.PlainKeys := by
    simp [hk, hl, Json.kind]
  have hc : ∀ c ∈ [Constraint.mk "a.b" "x"], c.NamesFields :=
    List.forall_mem_singleton.mpr ⟨_, hp, hf⟩
  obtain ⟨hread, hselect, hstop⟩ := filter_keys_read_paths
  have hx : fieldInField.valueAt "a.b" = .ok (some (.string "x")) := hread _ _ _ hk hp hf
  have hn : (Json.object [("a", .list [.string "x"])]).valueAt "a.b" = .ok none :=
    hread _ _ _ hl hp hf
  refine ⟨hk, hp, hx, ?_, ?_⟩
  · rw [hselect .write _ _ _ rfl hi hc]
    have hkind : fieldInField.kind = .object ∧ Json.null.kind = .null ∧
      (Json.object [("a", .list [.string "x"])]).kind = .object := ⟨rfl, rfl, rfl⟩
    simp [Constraint.reads, hx, hn, hkind, Json.scalarText?, Place.extend]
  · refine hstop ⟨"a.b", "x"⟩ _ [.field "a"] [.field "b"] hl hp hf (List.cons_ne_nil _ _) ?_
    intro node h
    cases h
    decide

end DocPath
