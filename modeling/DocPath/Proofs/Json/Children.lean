import DocPath.Location

/-! # Children of a value

The children of a value are the elements of a list and the values of the members of an object, each
with the step that leads to it. In a well formed value no two children have the same step. What
holds everywhere in a document holds at each of its locations.
-/

namespace DocPath.Json

def children : Json → List (Step × Json)
  | .list items => items.zipIdx.map fun e => (.index e.2, e.1)
  | .object members => members.map fun m => (.key m.1, m.2)
  | _ => []

def keys : Json → List String
  | .object members => Members.keys members
  | _ => []

theorem children_eq_nil_of_isScalar {value : Json} (h : value.isScalar = true) :
    value.children = [] := by
  cases value with
  | list => nomatch h
  | object => nomatch h
  | _ => rfl

theorem mem_children_index {items : List Json} {position : Nat} {item : Json} :
    (.index position, item) ∈ (list items).children ↔ items[position]? = some item := by
  simp only [children, List.mem_map, Prod.mk.injEq, Step.index.injEq, Prod.exists,
    List.mem_zipIdx_iff_getElem?]
  constructor
  · rintro ⟨_, _, h, rfl, rfl⟩
    exact h
  · exact fun h => ⟨item, position, h, rfl, rfl⟩

theorem mem_children_key {members : Members} {name : String} {child : Json} :
    (.key name, child) ∈ (object members).children ↔ (name, child) ∈ members := by
  simp only [children, List.mem_map, Prod.mk.injEq, Step.key.injEq, Prod.exists]
  constructor
  · rintro ⟨_, _, h, rfl, rfl⟩
    exact h
  · exact fun h => ⟨name, child, h, rfl, rfl⟩

theorem mem_children_of_child? {value child : Json} {step : Step}
    (h : value.child? step = some child) : (step, child) ∈ value.children := by
  cases step with
  | key name =>
    cases value with
    | object members => exact mem_children_key.mpr (Members.mem_of_get? h)
    | _ => nomatch h
  | index position =>
    cases value with
    | list items => exact mem_children_index.mpr h
    | _ => nomatch h

theorem get?_eq_some_iff_of_isScalar {value found : Json} (hs : value.isScalar = true)
    {location : Location} :
    location.get? value = some found ↔ location = [] ∧ value = found := by
  cases location with
  | nil => simp
  | cons step rest =>
    refine iff_of_false (fun h => ?_) (by simp)
    obtain ⟨child, hc, -⟩ := Option.bind_eq_some_iff.mp h
    have hm := mem_children_of_child? hc
    rw [children_eq_nil_of_isScalar hs] at hm
    cases hm

theorem sizeOf_child_lt {value : Json} {e : Step × Json} (h : e ∈ value.children) :
    sizeOf e.2 < sizeOf value := by
  cases value with
  | list items =>
    obtain ⟨⟨item, position⟩, hm, rfl⟩ := List.mem_map.mp h
    exact sizeOf_item_lt (List.fst_mem_of_mem_zipIdx hm)
  | object members =>
    obtain ⟨m, hm, rfl⟩ := List.mem_map.mp h
    exact sizeOf_member_lt hm
  | _ => nomatch h

/-- Induction on a value in which every child may be used. -/
theorem induction_children {motive : Json → Prop}
    (h : ∀ value, (∀ e ∈ value.children, motive e.2) → motive value) : ∀ value, motive value :=
  fun value => h value fun e _ => induction_children h e.2
termination_by value => sizeOf value
decreasing_by exact sizeOf_child_lt ‹_›

/-- A property of a value and of all values inside it, at any depth. -/
inductive Everywhere (p : Json → Prop) : Json → Prop where
  | intro {value : Json} :
      p value → (∀ e ∈ value.children, Everywhere p e.2) → Everywhere p value

namespace Everywhere

variable {p : Json → Prop} {value : Json}

theorem here (h : Everywhere p value) : p value := by
  obtain ⟨h, -⟩ := h
  exact h

theorem of_mem (h : Everywhere p value) {e : Step × Json} (he : e ∈ value.children) :
    Everywhere p e.2 := by
  obtain ⟨-, h⟩ := h
  exact h e he

theorem child {child : Json} {step : Step} (h : Everywhere p value)
    (hc : value.child? step = some child) : Everywhere p child :=
  h.of_mem (mem_children_of_child? hc)

theorem scalar_iff (hs : value.isScalar = true) : Everywhere p value ↔ p value := by
  refine ⟨here, fun h => .intro h fun e he => ?_⟩
  rw [children_eq_nil_of_isScalar hs] at he
  cases he

@[simp] theorem null_iff : Everywhere p .null ↔ p .null := scalar_iff rfl

@[simp] theorem bool_iff {b : Bool} : Everywhere p (.bool b) ↔ p (.bool b) := scalar_iff rfl

@[simp] theorem number_iff {n : Number} : Everywhere p (.number n) ↔ p (.number n) := scalar_iff rfl

@[simp] theorem string_iff {s : String} : Everywhere p (.string s) ↔ p (.string s) := scalar_iff rfl

@[simp] theorem list_iff {items : List Json} :
    Everywhere p (.list items) ↔ p (.list items) ∧ ∀ item ∈ items, Everywhere p item := by
  constructor
  · refine fun h => ⟨h.here, fun item hi => ?_⟩
    obtain ⟨position, hi⟩ := List.mem_iff_getElem?.mp hi
    exact h.of_mem (mem_children_index.mpr hi)
  · rintro ⟨h, hi⟩
    refine .intro h fun e he => ?_
    obtain ⟨⟨item, position⟩, hm, rfl⟩ := List.mem_map.mp he
    exact hi item (List.fst_mem_of_mem_zipIdx hm)

@[simp] theorem object_iff {members : Members} :
    Everywhere p (.object members) ↔ p (.object members) ∧ ∀ m ∈ members, Everywhere p m.2 := by
  constructor
  · exact fun h => ⟨h.here, fun m hm => h.of_mem (mem_children_key.mpr hm)⟩
  · rintro ⟨h, hm⟩
    refine .intro h fun e he => ?_
    obtain ⟨m, hmem, rfl⟩ := List.mem_map.mp he
    exact hm m hmem

theorem get? {location : Location} {found : Json} (h : Everywhere p value)
    (hg : location.get? value = some found) : Everywhere p found := by
  induction location generalizing value with
  | nil =>
    obtain rfl := Option.some.inj hg
    exact h
  | cons step rest ih =>
    obtain ⟨child, hc, hg⟩ := Option.bind_eq_some_iff.mp hg
    exact ih (h.child hc) hg

end Everywhere

namespace WellFormed

attribute [simp] null bool number string

@[simp] theorem list_iff {items : List Json} :
    (Json.list items).WellFormed ↔ ∀ item ∈ items, item.WellFormed := by
  constructor
  · rintro ⟨⟩
    assumption
  · exact .list

@[simp] theorem object_iff {members : Members} :
    (Json.object members).WellFormed ↔
      (Members.keys members).Nodup ∧ ∀ m ∈ members, m.2.WellFormed := by
  constructor
  · rintro ⟨⟩
    exact ⟨‹_›, ‹_›⟩
  · rintro ⟨hn, hm⟩
    exact .object hn hm

variable {value : Json}

theorem of_isScalar (h : value.isScalar = true) : value.WellFormed := by
  cases value with
  | list => nomatch h
  | object => nomatch h
  | _ => constructor

theorem of_mem (h : value.WellFormed) {e : Step × Json} (he : e ∈ value.children) :
    e.2.WellFormed := by
  cases value with
  | list items =>
    obtain ⟨⟨item, position⟩, hm, rfl⟩ := List.mem_map.mp he
    exact list_iff.mp h item (List.fst_mem_of_mem_zipIdx hm)
  | object members =>
    obtain ⟨m, hm, rfl⟩ := List.mem_map.mp he
    exact (object_iff.mp h).2 m hm
  | _ => nomatch he

theorem nodup_children (h : value.WellFormed) : (value.children.map Prod.fst).Nodup := by
  cases value with
  | list items =>
    have hm : (Json.list items).children.map Prod.fst =
        (items.zipIdx.map Prod.snd).map Step.index := by
      rw [children, List.map_map, List.map_map]
      rfl
    rw [hm, List.zipIdx_map_snd]
    exact List.Pairwise.map _ (fun a b hab he => hab (Step.index.inj he)) List.nodup_range'
  | object members =>
    have hm : (Json.object members).children.map Prod.fst =
        (Members.keys members).map Step.key := by
      rw [children, Members.keys, List.map_map, List.map_map]
      rfl
    rw [hm]
    exact List.Pairwise.map _ (fun a b hab he => hab (Step.key.inj he)) (object_iff.mp h).1
  | _ => exact List.Pairwise.nil

end WellFormed

theorem child?_eq_some_iff {value child : Json} {step : Step} (h : value.WellFormed) :
    value.child? step = some child ↔ (step, child) ∈ value.children := by
  refine ⟨mem_children_of_child?, fun hm => ?_⟩
  cases step with
  | index position =>
    cases value with
    | list items => exact mem_children_index.mp hm
    | _ => simp [children] at hm
  | key name =>
    cases value with
    | object members =>
      exact Members.get?_of_mem (WellFormed.object_iff.mp h).1 (mem_children_key.mp hm)
    | _ => simp [children] at hm

end DocPath.Json
