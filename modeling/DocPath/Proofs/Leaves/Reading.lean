import DocPath.Proofs.Leaves.Locations
import DocPath.Proofs.Places.Read
import Mathlib.Data.Set.Function

/-! # Reading the enumerated leaves

Where the keys of a document can be written in a path, the path text of a leaf is that of its
location. Then the entries of a document are its leaves below the root, one for one, and the text
of an entry reads back the leaf and nothing else.
-/

namespace DocPath

/-- The segment that takes this step, or a like one to another element of the list. -/
def Step.shape : Step → Segment
  | .key name => .field name
  | .index _ => .append

theorem Segment.charsAfter_ne_nil (segment : Segment) : segment.charsAfter ≠ [] := by
  cases segment <;> exact List.cons_ne_nil _ _

namespace PositionStyle

variable (style : PositionStyle)

def segment : PositionStyle → Step → Segment
  | .concrete => Step.segment
  | .collapsed => Step.shape

def render (location : Location) : String :=
  Path.render (location.map style.segment)

@[simp] theorem render_concrete (location : Location) :
    render .concrete location = location.render :=
  location.render_path

theorem extend_empty (step : Step) :
    style.extend "" step = String.ofList (style.segment step).chars := by
  rw [← String.toList_inj]
  cases style <;> cases step <;>
    simp [extend, memberText, label, segment, Step.segment, Step.shape, Segment.chars]

theorem extend_of_ne {text : String} (h : text ≠ "") (step : Step) :
    style.extend text step = text ++ String.ofList (style.segment step).charsAfter := by
  rw [← String.toList_inj]
  cases style <;> cases step <;>
    simp [extend, memberText, label, segment, Step.segment, Step.shape, Segment.chars,
      Segment.charsAfter, h]

theorem chars_segment_ne_nil {step : Step} (h : step ≠ .key "") :
    (style.segment step).chars ≠ [] := by
  cases step with
  | key name =>
    have hn : name.toList ≠ [] := fun he => h (congrArg _ (String.toList_inj.mp he))
    cases style <;> exact hn
  | index position => cases style <;> exact List.cons_ne_nil _ _

end PositionStyle

open PositionStyle

namespace Location

theorem foldl_extend_of_ne (style : PositionStyle) (location : Location) {text : String}
    (h : text ≠ "") :
    location.foldl style.extend text =
      text ++ String.ofList ((location.map style.segment).flatMap Segment.charsAfter) := by
  induction location generalizing text with
  | nil => simp
  | cons step rest ih =>
    have hn : text ++ String.ofList (style.segment step).charsAfter ≠ "" := by
      simp [(style.segment step).charsAfter_ne_nil]
    rw [List.foldl_cons, extend_of_ne style h, ih hn, List.map_cons, List.flatMap_cons,
      String.ofList_append, String.append_assoc]

theorem head?_ne_of_wellFormed {location : Location}
    (h : ∀ step ∈ location, step.shape.WellFormed) : location.head? ≠ some (.key "") :=
  fun he => (h _ (List.mem_of_head? he)).1 rfl

variable (style : PositionStyle)

/-- Keys without a text leave nothing at the front. Behind them the text is that of a location. -/
theorem written_eq_render_dropWhile (location : Location) :
    style.written location = style.render (location.dropWhile (· = .key "")) := by
  induction location with
  | nil => rfl
  | cons first rest ih =>
    by_cases hf : first = .key ""
    · rw [List.dropWhile_cons_of_pos (by simpa using hf), ← ih, hf]
      rfl
    · have hn : String.ofList (style.segment first).chars ≠ "" := by
        simpa using style.chars_segment_ne_nil hf
      rw [List.dropWhile_cons_of_neg (by simpa using hf), PositionStyle.written, List.foldl_cons,
        extend_empty, foldl_extend_of_ne style rest hn, ← String.ofList_append]
      rfl

variable {location : Location} (h : location.head? ≠ some (.key ""))
include h

theorem render_eq_empty_iff : style.render location = "" ↔ location = [] := by
  cases location with
  | nil => simp [PositionStyle.render, Path.render, Path.chars]
  | cons first rest =>
    have hc := style.chars_segment_ne_nil fun he => h (congrArg some he)
    simp [PositionStyle.render, Path.render, Path.chars, hc]

theorem written_eq_render : style.written location = style.render location := by
  rw [written_eq_render_dropWhile]
  cases location with
  | nil => rfl
  | cons first rest =>
    rw [List.dropWhile_cons_of_neg (by simpa using h)]

end Location

namespace Json

/-- Every key, at any depth, can be written as a field of a path. -/
def PlainKeys (document : Json) : Prop :=
  document.Everywhere fun value =>
    ∀ key ∈ value.keys, key ≠ "" ∧ ∀ c ∈ key.toList, c ≠ '.' ∧ c ≠ '[' ∧ c ≠ ']'

def IsLeaf (document : Json) (location : Location) (leaf : Json) : Prop :=
  location ≠ [] ∧ location.get? document = some leaf ∧ leaf.isScalar = true

section Leaves

variable {document leaf : Json} {location : Location} (hw : document.WellFormed)
  (ha : document.Addressable) (hk : document.PlainKeys)

theorem shape_wellFormed_of_child? {child : Json} {step : Step} (hk : document.PlainKeys)
    (h : document.child? step = some child) : step.shape.WellFormed := by
  cases step with
  | key name =>
    cases document with
    | object members => exact hk.here name (List.mem_map_of_mem (Members.mem_of_get? h))
    | _ => nomatch h
  | index position => trivial

theorem step_wellFormed_of_child? {child : Json} {step : Step} (ha : document.Addressable)
    (hs : step.shape.WellFormed) (h : document.child? step = some child) :
    step.segment.WellFormed := by
  cases step with
  | key name => exact hs
  | index position =>
    cases document with
    | list items =>
      have hl := (Addressable.list_iff.mp ha).1
      have hp := (List.getElem?_eq_some_iff.mp h).1
      change position < positionLimit
      omega
    | _ => nomatch h

theorem segments_wellFormed_of_get? {value : Json} (ha : document.Addressable)
    (hs : ∀ step ∈ location, step.shape.WellFormed) (h : location.get? document = some value) :
    ∀ step ∈ location, step.segment.WellFormed := by
  induction location generalizing document with
  | nil => nofun
  | cons step rest ih =>
    obtain ⟨child, hc, h⟩ := Option.bind_eq_some_iff.mp h
    obtain ⟨hs, hr⟩ := List.forall_mem_cons.mp hs
    have hac : AddressableNode (some child) := by
      rw [← hc]
      exact AddressableNode.child? (fun _ he => Option.some.inj he ▸ ha) step
    exact List.forall_mem_cons.mpr
      ⟨step_wellFormed_of_child? ha hs hc, ih (hac child rfl) hr h⟩

theorem shapes_wellFormed_of_get? {value : Json} (hk : document.PlainKeys)
    (h : location.get? document = some value) : ∀ step ∈ location, step.shape.WellFormed := by
  induction location generalizing document with
  | nil => nofun
  | cons step rest ih =>
    obtain ⟨child, hc, h⟩ := Option.bind_eq_some_iff.mp h
    exact List.forall_mem_cons.mpr ⟨shape_wellFormed_of_child? hk hc, ih (hk.child hc) h⟩

theorem steps_wellFormed_of_get? {value : Json} (ha : document.Addressable)
    (hk : document.PlainKeys) (h : location.get? document = some value) :
    ∀ step ∈ location, step.segment.WellFormed :=
  segments_wellFormed_of_get? ha (shapes_wellFormed_of_get? hk h) h

theorem IsLeaf.path_wellFormed (ha : document.Addressable) (hk : document.PlainKeys)
    (h : document.IsLeaf location leaf) : location.path.WellFormed :=
  Location.path_wellFormed_iff.mpr ⟨h.1, steps_wellFormed_of_get? ha hk h.2.1⟩

/-- The walk collects the leaves below the root under the texts along their locations. A leaf
without a text is left out. -/
theorem mem_leaves_iff_written (hw : document.WellFormed) {style : PositionStyle} {text : String} :
    (text, leaf) ∈ document.leaves style ↔
      text ≠ "" ∧ ∃ location, document.IsLeaf location leaf ∧ style.written location = text := by
  rw [leaves, leavesAt_eq_map_locatedLeaves, List.mem_filter, List.mem_map]
  constructor
  · rintro ⟨⟨⟨location, _⟩, hm, he⟩, hn⟩
    obtain ⟨rfl, rfl⟩ := Prod.mk.inj he
    have hn : style.written location ≠ "" := by simpa [PositionStyle.written] using hn
    refine ⟨hn, location, ⟨?_, (mem_locatedLeaves hw).mp hm⟩, rfl⟩
    rintro rfl
    exact hn rfl
  · rintro ⟨hn, location, h, rfl⟩
    exact ⟨⟨(location, leaf), (mem_locatedLeaves hw).mpr h.2, rfl⟩,
      by simpa [PositionStyle.written] using hn⟩

theorem leaves_eq_of_head? (style : PositionStyle) (hw : document.WellFormed)
    (hh : ∀ location leaf, document.IsLeaf location leaf → location.head? ≠ some (.key "")) :
    document.leaves style =
      (document.locatedLeaves.filter fun leaf => leaf.1 ≠ []).map fun leaf =>
        (style.render leaf.1, leaf.2) := by
  have hs : ∀ leaf ∈ document.locatedLeaves, leaf.1.head? ≠ some (.key "") := by
    rintro ⟨_ | ⟨first, rest⟩, leaf⟩ hm
    · nofun
    · exact hh _ leaf ⟨List.cons_ne_nil _ _, (mem_locatedLeaves hw).mp hm⟩
  have ht : (document.locatedLeaves.map fun leaf => (leaf.1.foldl style.extend "", leaf.2)) =
      document.locatedLeaves.map fun leaf => (style.render leaf.1, leaf.2) :=
    List.map_congr_left fun leaf hm =>
      congrArg (·, leaf.2) (Location.written_eq_render style (hs leaf hm))
  rw [leaves, leavesAt_eq_map_locatedLeaves, ht, List.filter_map]
  congr 1
  refine List.filter_congr fun leaf hm => ?_
  rw [Bool.eq_iff_iff]
  simp [Location.render_eq_empty_iff style (hs leaf hm)]

theorem mem_leafLocations_iff (hw : document.WellFormed) :
    location ∈ (document.locatedLeaves.filter fun leaf => leaf.1 ≠ []).map Prod.fst ↔
      ∃ leaf, document.IsLeaf location leaf := by
  rw [List.mem_map]
  constructor
  · rintro ⟨⟨_, leaf⟩, he, rfl⟩
    obtain ⟨hm, hn⟩ := List.mem_filter.mp he
    exact ⟨leaf, of_decide_eq_true hn, (mem_locatedLeaves hw).mp hm⟩
  · rintro ⟨leaf, hn, h⟩
    exact ⟨(location, leaf),
      List.mem_filter.mpr ⟨(mem_locatedLeaves hw).mpr h, decide_eq_true hn⟩, rfl⟩

theorem nodup_leafLocations (hw : document.WellFormed) :
    ((document.locatedLeaves.filter fun leaf => leaf.1 ≠ []).map Prod.fst).Nodup :=
  (nodup_locatedLeaves hw).sublist (List.filter_sublist.map Prod.fst)

theorem nodup_leaves_of_injOn (hw : document.WellFormed)
    (hh : ∀ location leaf, document.IsLeaf location leaf → location.head? ≠ some (.key ""))
    (hi : Set.InjOn Location.render {location | ∃ leaf, document.IsLeaf location leaf}) :
    ((document.leaves .concrete).map Prod.fst).Nodup := by
  have he : (document.leaves .concrete).map Prod.fst =
      ((document.locatedLeaves.filter fun leaf => leaf.1 ≠ []).map Prod.fst).map
        Location.render := by
    rw [leaves_eq_of_head? .concrete hw hh, List.map_map, List.map_map]
    exact List.map_congr_left fun leaf _ => render_concrete leaf.1
  rw [he]
  refine (nodup_leafLocations hw).map_on fun location hm other ho => ?_
  exact hi ((mem_leafLocations_iff hw).mp hm) ((mem_leafLocations_iff hw).mp ho)

theorem leafValues_getElem?_of_mem (hn : ((document.leaves .concrete).map Prod.fst).Nodup)
    {text : String} (h : (text, leaf) ∈ document.leaves .concrete) :
    document.leafValues[text]? = some leaf := by
  refine Std.TreeMap.getElem?_ofList_of_mem Std.ReflCmp.compare_self ?_ h
  exact (List.pairwise_map.mp hn).imp fun hne he => hne (Std.LawfulEqCmp.eq_of_compare he)

theorem IsLeaf.head?_ne (hk : document.PlainKeys) (h : document.IsLeaf location leaf) :
    location.head? ≠ some (.key "") :=
  Location.head?_ne_of_wellFormed (shapes_wellFormed_of_get? hk h.2.1)

theorem leaves_eq (style : PositionStyle) (hw : document.WellFormed) (hk : document.PlainKeys) :
    document.leaves style =
      (document.locatedLeaves.filter fun leaf => leaf.1 ≠ []).map fun leaf =>
        (style.render leaf.1, leaf.2) :=
  leaves_eq_of_head? style hw fun _ _ => IsLeaf.head?_ne hk

include hw hk

theorem mem_leaves_iff (style : PositionStyle) {text : String} :
    (text, leaf) ∈ document.leaves style ↔
      ∃ location, document.IsLeaf location leaf ∧ style.render location = text := by
  rw [mem_leaves_iff_written hw]
  constructor
  · rintro ⟨-, location, h, rfl⟩
    exact ⟨location, h, (Location.written_eq_render style (h.head?_ne hk)).symm⟩
  · rintro ⟨location, h, rfl⟩
    refine ⟨?_, location, h, Location.written_eq_render style (h.head?_ne hk)⟩
    exact fun he => h.1 ((Location.render_eq_empty_iff style (h.head?_ne hk)).mp he)

include ha

theorem nodup_leaves : ((document.leaves .concrete).map Prod.fst).Nodup := by
  refine nodup_leaves_of_injOn hw (fun _ _ => IsLeaf.head?_ne hk) ?_
  rintro location ⟨leaf, h⟩ other ⟨leaf', h'⟩ he
  exact Location.eq_of_render_eq (steps_wellFormed_of_get? ha hk h.2.1)
    (steps_wellFormed_of_get? ha hk h'.2.1) he

theorem leafValues_getElem?_iff {text : String} :
    document.leafValues[text]? = some leaf ↔
      ∃ location, document.IsLeaf location leaf ∧ location.render = text := by
  have mem_iff : (text, leaf) ∈ document.leaves .concrete ↔
      ∃ location, document.IsLeaf location leaf ∧ location.render = text := by
    simpa only [render_concrete] using mem_leaves_iff hw hk .concrete
  rw [← mem_iff]
  refine ⟨fun h => ?_, leafValues_getElem?_of_mem (nodup_leaves hw ha hk)⟩
  have hm : text ∈ document.leafValues :=
    Std.TreeMap.mem_iff_isSome_getElem?.mpr (by rw [h]; rfl)
  have ht : text ∈ (document.leaves .concrete).map Prod.fst := by
    simpa using Std.TreeMap.mem_ofList.mp hm
  obtain ⟨⟨_, other⟩, he, rfl⟩ := List.mem_map.mp ht
  rw [leafValues_getElem?_of_mem (nodup_leaves hw ha hk) he] at h
  exact Option.some.inj h ▸ he

end Leaves

theorem mem_leafPaths_iff (document : Json) (text : String) :
    text ∈ document.leafPaths ↔ text ∈ document.leafValues := by
  rw [leafPaths, leafValues, Std.TreeSet.mem_ofList, Std.TreeMap.mem_ofList]

/-- The entries of a document are its leaves below the root, one for one: the text of an entry is
that of the location of the leaf, is read as the path along that location, and finds that leaf and
no other value. -/
theorem leafValues_read_back {document : Json} (hw : document.WellFormed)
    (ha : document.Addressable) (hk : document.PlainKeys) :
    Set.BijOn Location.render {location | ∃ leaf, document.IsLeaf location leaf}
      {text | text ∈ document.leafValues} ∧
    (∀ location leaf, document.IsLeaf location leaf →
      document.leafValues[location.render]? = some leaf ∧
        Path.parse location.render = .ok location.path ∧
        document.valuesAt location.render = .ok [leaf] ∧
        document.valueAt location.render = .ok (some leaf)) ∧
    ∀ text, text ∈ document.leafPaths ↔ text ∈ document.leafValues := by
  have entry (location : Location) (leaf : Json) (h : document.IsLeaf location leaf) :
      document.leafValues[location.render]? = some leaf :=
    (leafValues_getElem?_iff hw ha hk).mpr ⟨location, h, rfl⟩
  refine ⟨⟨?_, ?_, ?_⟩, fun location leaf h => ⟨entry location leaf h, ?_, ?_, ?_⟩,
    mem_leafPaths_iff document⟩
  · rintro location ⟨leaf, h⟩
    exact Std.TreeMap.mem_iff_isSome_getElem?.mpr (by rw [entry location leaf h]; rfl)
  · rintro location ⟨leaf, h⟩ other ⟨leaf', h'⟩ he
    exact Location.eq_of_render_eq (steps_wellFormed_of_get? ha hk h.2.1)
      (steps_wellFormed_of_get? ha hk h'.2.1) he
  · intro text hm
    obtain ⟨leaf, hv⟩ := Option.isSome_iff_exists.mp (Std.TreeMap.mem_iff_isSome_getElem?.mp hm)
    obtain ⟨location, h, he⟩ := (leafValues_getElem?_iff hw ha hk).mp hv
    exact ⟨location, ⟨leaf, h⟩, he⟩
  · exact Location.parse_render (h.path_wellFormed ha hk)
  · exact valuesAt_render (h.path_wellFormed ha hk) h.2.1
  · exact valueAt_render (h.path_wellFormed ha hk) h.2.1

def listInList : Json := .list [.list [.null], .object [("b", .list [.object [], .bool true])]]

theorem leafValues_read_back_nested :
    listInList.WellFormed ∧ listInList.Addressable ∧ listInList.PlainKeys ∧
    Path.parse "[1].b[1]" = .ok [.index 1, .field "b", .index 1] ∧
    listInList.leafValues["[1].b[1]"]? = some (.bool true) ∧
    listInList.valuesAt "[1].b[1]" = .ok [.bool true] := by
  have hw : listInList.WellFormed := by
    simp [listInList, Members.keys]
  have ha : listInList.Addressable := by
    simp [listInList, positionLimit, UInt64.size]
  have hk : listInList.PlainKeys := by
    simp [listInList, PlainKeys, keys, Members.keys]
  have hl : listInList.IsLeaf [.index 1, .key "b", .index 1] (.bool true) := ⟨by simp, rfl, rfl⟩
  obtain ⟨hv, hp, hr, -⟩ := (leafValues_read_back hw ha hk).2.1 _ _ hl
  exact ⟨hw, ha, hk, hp, hv, hr⟩

end Json

end DocPath
