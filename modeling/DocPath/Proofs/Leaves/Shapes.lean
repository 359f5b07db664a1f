import DocPath.Proofs.General
import DocPath.Proofs.Leaves.Reading
import Mathlib.Data.List.Perm.Subperm

/-! # Shapes of leaf paths

The shape of a path text is the text without the positions in its brackets. The shapes of a document
are those of its leaf paths. Each is read as a path, which leads to containers also; but the scalars
that it finds are the leaves of this shape, in document order.
-/

namespace DocPath

def dropPosition (text : List Char) : List Char :=
  if (text.dropWhile Char.isDigit).head? = some ']' then text.dropWhile Char.isDigit else text

def dropPositions : List Char → List Char
  | [] => []
  | c :: rest => if c = '[' then c :: dropPosition (dropPositions rest) else c :: dropPositions rest

/-- The text without positions: every `[12]` becomes `[]`. -/
def collapse (text : String) : String :=
  String.ofList (dropPositions text.toList)

theorem collapse_eq_empty_iff {text : String} : collapse text = "" ↔ text = "" := by
  rw [collapse, String.ofList_eq_empty_iff, ← String.toList_eq_nil_iff]
  cases text.toList with
  | nil => rfl
  | cons c rest =>
    rw [dropPositions]
    split <;> simp

theorem dropPositions_append {front : List Char} (h : '[' ∉ front) (back : List Char) :
    dropPositions (front ++ back) = front ++ dropPositions back := by
  induction front with
  | nil => rfl
  | cons c front ih =>
    obtain ⟨hc, hf⟩ := List.ne_and_not_mem_of_not_mem_cons h
    rw [List.cons_append, dropPositions, if_neg (Ne.symm hc), ih hf, List.cons_append]

theorem dropPositions_group (position : Nat) (rest : List Char) :
    dropPositions ('[' :: (Nat.toDigits 10 position ++ ']' :: rest)) =
      '[' :: ']' :: dropPositions rest := by
  have hd : ∀ c ∈ Nat.toDigits 10 position, c.isDigit = true := fun c hc =>
    Nat.isDigit_of_mem_toDigits (b := 10) (by decide) (by decide) hc
  have ho : '[' ∉ Nat.toDigits 10 position := fun h => nomatch hd _ h
  have hc : dropPositions (']' :: rest) = ']' :: dropPositions rest := rfl
  have hw : (Nat.toDigits 10 position ++ ']' :: dropPositions rest).dropWhile Char.isDigit =
      ']' :: dropPositions rest := by
    rw [List.dropWhile_append_of_pos hd]
    rfl
  rw [dropPositions, if_pos rfl, dropPositions_append ho, hc, dropPosition, hw]
  rfl

namespace Location

def Avoids (c : Char) (location : Location) : Prop :=
  ∀ name, .key name ∈ location → c ∉ name.toList

theorem avoids_cons_iff {c : Char} {step : Step} {rest : Location} :
    Avoids c (step :: rest) ↔ Avoids c [step] ∧ Avoids c rest := by
  simp only [Avoids, List.mem_cons, List.not_mem_nil, or_false]
  exact ⟨fun h => ⟨fun name he => h name (.inl he), fun name hm => h name (.inr hm)⟩,
    fun h name hm => hm.elim (h.1 name) (h.2 name)⟩

theorem Avoids.of_wellFormed {location : Location} (h : ∀ step ∈ location, step.shape.WellFormed) :
    location.Avoids '.' ∧ location.Avoids '[' ∧ location.Avoids ']' :=
  ⟨fun _ hm hc => ((h _ hm).2 _ hc).1 rfl, fun _ hm hc => ((h _ hm).2 _ hc).2.1 rfl,
    fun _ hm hc => ((h _ hm).2 _ hc).2.2 rfl⟩

end Location

namespace Step

variable {step : Step} (h : Location.Avoids '[' [step]) (rest : List Char)
include h

theorem dropPositions_chars :
    dropPositions (step.chars ++ rest) = step.shape.chars ++ dropPositions rest := by
  cases step with
  | key name => exact dropPositions_append (h name List.mem_cons_self) rest
  | index position =>
    simp only [chars, List.cons_append, List.append_assoc, List.nil_append]
    exact dropPositions_group position rest

theorem dropPositions_charsAfter :
    dropPositions (step.charsAfter ++ rest) = step.shape.charsAfter ++ dropPositions rest := by
  cases step with
  | key name =>
    exact congrArg ('.' :: ·) (dropPositions_append (h name List.mem_cons_self) rest)
  | index position => exact dropPositions_chars h rest

end Step

namespace Location

/-- The path along a location and all others that differ from it in positions only. -/
def shape (location : Location) : Path :=
  location.map Step.shape

@[simp] theorem shape_nil : shape [] = [] := rfl

@[simp] theorem shape_cons (step : Step) (rest : Location) :
    shape (step :: rest) = step.shape :: shape rest := rfl

@[simp] theorem shape_eq_nil_iff {location : Location} : location.shape = [] ↔ location = [] :=
  List.map_eq_nil_iff

theorem dropPositions_flatMap {location : Location} (h : location.Avoids '[') :
    dropPositions (location.flatMap Step.charsAfter) =
      location.shape.flatMap Segment.charsAfter := by
  induction location with
  | nil => rfl
  | cons step rest ih =>
    obtain ⟨hs, hr⟩ := avoids_cons_iff.mp h
    rw [List.flatMap_cons, Step.dropPositions_charsAfter hs, ih hr]
    rfl

theorem collapse_render {location : Location} (h : location.Avoids '[') :
    collapse location.render = location.shape.render := by
  rw [collapse, render, String.toList_ofList, Path.render]
  congr 1
  cases location with
  | nil => rfl
  | cons first rest =>
    obtain ⟨hf, hr⟩ := avoids_cons_iff.mp h
    rw [chars, Step.dropPositions_chars hf, dropPositions_flatMap hr]
    rfl

theorem collapse_written {location : Location} (h : location.Avoids '[') :
    collapse (PositionStyle.concrete.written location) =
      PositionStyle.collapsed.written location := by
  rw [written_eq_render_dropWhile, written_eq_render_dropWhile, PositionStyle.render_concrete]
  exact collapse_render fun name hm => h name ((List.dropWhile_sublist _).subset hm)

example : collapse "friends[0].7[12]" = "friends[].7[]" := by decide

end Location

theorem Members.filter_key {members : Members} (h : members.keys.Nodup) (name : String) :
    members.filter (fun m => m.1 = name) =
      (members.get? name).toList.map fun child => (name, child) := by
  induction members with
  | nil => rfl
  | cons m rest ih =>
    obtain ⟨key, child⟩ := m
    obtain ⟨hk, hn⟩ := List.nodup_cons.mp h
    rw [Members.get?_cons, List.filter_cons]
    by_cases he : key = name
    · subst he
      have hr : rest.filter (fun m => m.1 = key) = [] := by
        refine List.filter_eq_nil_iff.mpr fun m hm he => hk ?_
        exact List.mem_map.mpr ⟨m, hm, of_decide_eq_true he⟩
      simp [hr]
    · simp [he, Ne.symm he, ih hn]

namespace Json

/-- The values to which steps of these shapes lead, with their locations, in document order. -/
def locatedAlong : Path → Json → List (Location × Json)
  | [], value => [([], value)]
  | segment :: rest, value =>
    (value.children.filter fun e => e.1.shape = segment).flatMap fun e =>
      (locatedAlong rest e.2).map fun found => (e.1 :: found.1, found.2)

/-- A path of shapes leads to the values at all locations of this shape. -/
theorem locatedAlong_eq_filter (path : Path) (value : Json) :
    locatedAlong path value = value.located.filter fun found => Location.shape found.1 = path := by
  induction path generalizing value with
  | nil =>
    have hn : (value.children.flatMap fun e => e.2.located.map fun found =>
        (e.1 :: found.1, found.2)).filter (fun found => Location.shape found.1 = []) = [] := by
      rw [List.filter_flatMap, List.flatMap_eq_nil_iff]
      intro e _
      simp [List.filter_map, Function.comp_def]
    rw [located_children, List.filter_cons_of_pos rfl, hn]
    rfl
  | cons segment rest ih =>
    rw [located_children, List.filter_cons_of_neg (by simp), locatedAlong, flatMap_filter,
      List.filter_flatMap]
    refine List.flatMap_congr fun e _ => ?_
    by_cases he : e.1.shape = segment
    · simp [he, List.filter_map, Function.comp_def, ← ih]
    · simp [he, List.filter_map, Function.comp_def]

theorem filter_locatedAlong (path : Path) (value : Json) :
    ((locatedAlong path value).filter fun found => found.2.isScalar) =
      value.locatedLeaves.filter fun leaf => Location.shape leaf.1 = path := by
  rw [locatedAlong_eq_filter, locatedLeaves_eq_filter, List.filter_filter, List.filter_filter]
  simp only [Bool.and_comm]

theorem filter_children_field {value : Json} (hw : value.WellFormed) (name : String) :
    value.children.filter (fun e => e.1.shape = .field name) =
      (value.member? name).toList.map fun child => (.key name, child) := by
  cases value with
  | object members =>
    have hm := Members.filter_key (WellFormed.object_iff.mp hw).1 name
    simp only [children, List.filter_map, Function.comp_def, Step.shape, Segment.field.injEq, hm]
    simp [member?]
  | list items => simp [children, List.filter_map, Function.comp_def, Step.shape, member?]
  | _ => rfl

end Json

theorem Place.follow_read_shape (location : Location) {value : Json} (hw : value.WellFormed)
    (step : Step) : follow .read ⟨location, some value⟩ step.shape =
      .ok ((value.children.filter fun e => e.1.shape = step.shape).map fun e =>
        extend ⟨location, some value⟩ e.1 (some e.2)) := by
  cases step with
  | key name =>
    rw [Step.shape, Json.filter_children_field hw]
    cases value with
    | object members =>
      simp only [follow, Json.member?]
      cases Members.get? members name <;> rfl
    | _ => rfl
  | index position =>
    rw [Step.shape]
    cases value with
    | list items =>
      simp [follow, Json.children, Step.shape, List.mapIdx_eq_zipIdx_map, List.filter_map,
        Function.comp_def]
    | object members =>
      simp [follow, Access.refuse, Json.children, Step.shape, List.filter_map, Function.comp_def]
    | _ => rfl

/-- Reading goes along the shape of a location to all values that lie along it. -/
theorem Path.reach?_shape (location : Location) {value : Json} (hw : value.WellFormed) :
    reach? .read location.shape ⟨[], some value⟩ =
      some ((Json.locatedAlong location.shape value).map fun found =>
        ⟨found.1, some found.2⟩) := by
  induction location generalizing value with
  | nil => rfl
  | cons step rest ih =>
    have below : ∀ e ∈ value.children.filter (fun e => e.1.shape = step.shape),
        (reach? .read (Location.shape rest) ∘ fun e : Step × Json =>
          Place.extend ⟨[], some value⟩ e.1 (some e.2)) e =
        some ((Json.locatedAlong (Location.shape rest) e.2).map fun found =>
          ⟨e.1 :: found.1, some found.2⟩) := by
      intro e he
      have hw := hw.of_mem (List.mem_filter.mp he).1
      rw [Function.comp_apply, reach?_eq_map_under, Place.extend, ih hw, Option.map_some,
        List.map_map]
      rfl
    rw [Location.shape_cons, reach?, Place.follow_read_shape [] hw]
    change gather? _ _ = _
    rw [gather?_map, gather?_eq_flatMap below, Json.locatedAlong, List.map_flatMap]
    simp only [List.map_map, Function.comp_def]

theorem Path.values_shape (location : Location) {document : Json} (hw : document.WellFormed) :
    Path.values location.shape document =
      .ok ((Json.locatedAlong location.shape document).map Prod.snd) := by
  rw [values, places_eq_ok_iff.mpr (reach?_shape location hw)]
  refine congrArg Except.ok ?_
  simp [List.filterMap_map]

namespace Json

theorem mem_ofList_fst_iff {entries : List (String × Json)} {text : String} :
    text ∈ Std.TreeSet.ofList (entries.map Prod.fst) ↔ ∃ leaf, (text, leaf) ∈ entries := by
  rw [Std.TreeSet.mem_ofList, List.contains_iff_mem, List.mem_map]
  exact ⟨fun ⟨⟨_, leaf⟩, hm, he⟩ => ⟨leaf, he ▸ hm⟩, fun ⟨leaf, hm⟩ => ⟨(text, leaf), hm, rfl⟩⟩

section Shapes

variable {document : Json}

theorem IsLeaf.shape_wellFormed {location : Location} {leaf : Json} (hk : document.PlainKeys)
    (h : document.IsLeaf location leaf) : location.shape.WellFormed :=
  ⟨by simpa using h.1, List.forall_mem_map.mpr (shapes_wellFormed_of_get? hk h.2.1)⟩

theorem IsLeaf.avoids_bracket {location : Location} {leaf : Json} (hk : document.PlainKeys)
    (h : document.IsLeaf location leaf) : location.Avoids '[' :=
  (Location.Avoids.of_wellFormed (shapes_wellFormed_of_get? hk h.2.1)).2.1

section Written

variable (hw : document.WellFormed)
include hw

theorem mem_ofList_leaves_iff_written {style : PositionStyle} {text : String} :
    text ∈ Std.TreeSet.ofList ((document.leaves style).map Prod.fst) ↔
      text ≠ "" ∧
        ∃ location leaf, document.IsLeaf location leaf ∧ style.written location = text := by
  rw [mem_ofList_fst_iff]
  constructor
  · rintro ⟨leaf, hm⟩
    obtain ⟨hn, location, h⟩ := (mem_leaves_iff_written hw).mp hm
    exact ⟨hn, location, leaf, h⟩
  · rintro ⟨hn, location, leaf, h⟩
    exact ⟨leaf, (mem_leaves_iff_written hw).mpr ⟨hn, location, h⟩⟩

variable (hb : ∀ location leaf, document.IsLeaf location leaf → location.Avoids '[')
include hb

theorem mem_leafShapes_iff_of_avoids {text : String} :
    text ∈ document.leafShapes ↔ ∃ path ∈ document.leafPaths, collapse path = text := by
  constructor
  · intro h
    obtain ⟨hn, location, leaf, hl, rfl⟩ := (mem_ofList_leaves_iff_written hw).mp h
    rw [← Location.collapse_written (hb location leaf hl)] at hn ⊢
    refine ⟨PositionStyle.concrete.written location, ?_, rfl⟩
    exact (mem_ofList_leaves_iff_written hw).mpr
      ⟨fun he => hn (collapse_eq_empty_iff.mpr he), location, leaf, hl, rfl⟩
  · rintro ⟨path, h, rfl⟩
    obtain ⟨hn, location, leaf, hl, rfl⟩ := (mem_ofList_leaves_iff_written hw).mp h
    refine (mem_ofList_leaves_iff_written hw).mpr
      ⟨fun he => hn (collapse_eq_empty_iff.mp he), location, leaf, hl, ?_⟩
    exact (Location.collapse_written (hb location leaf hl)).symm

theorem size_leafShapes_le_of_avoids : document.leafShapes.size ≤ document.leafPaths.size := by
  have hn : document.leafShapes.toList.Nodup := by
    refine Std.TreeSet.distinct_toList.imp fun hne he => hne ?_
    exact he ▸ Std.ReflCmp.compare_self
  have hs : document.leafShapes.toList ⊆ document.leafPaths.toList.map collapse := by
    intro shape hm
    obtain ⟨path, hp, he⟩ :=
      (mem_leafShapes_iff_of_avoids hw hb).mp (Std.TreeSet.mem_toList.mp hm)
    exact List.mem_map.mpr ⟨path, Std.TreeSet.mem_toList.mpr hp, he⟩
  have hl := (List.subperm_of_subset hn hs).length_le
  rwa [List.length_map, Std.TreeSet.length_toList, Std.TreeSet.length_toList] at hl

end Written

variable (hw : document.WellFormed) (hk : document.PlainKeys)
include hw hk

theorem mem_ofList_leaves_iff (style : PositionStyle) {text : String} :
    text ∈ Std.TreeSet.ofList ((document.leaves style).map Prod.fst) ↔
      ∃ location leaf, document.IsLeaf location leaf ∧ style.render location = text := by
  rw [mem_ofList_fst_iff, exists_comm]
  simp only [mem_leaves_iff hw hk style]

theorem mem_leafPaths_iff_isLeaf {text : String} :
    text ∈ document.leafPaths ↔
      ∃ location leaf, document.IsLeaf location leaf ∧ location.render = text := by
  rw [leafPaths, mem_ofList_leaves_iff hw hk .concrete]
  simp only [PositionStyle.render_concrete]

theorem mem_leafShapes_iff {text : String} :
    text ∈ document.leafShapes ↔ ∃ path ∈ document.leafPaths, collapse path = text :=
  mem_leafShapes_iff_of_avoids hw fun _ _ => IsLeaf.avoids_bracket hk

theorem size_leafShapes_le : document.leafShapes.size ≤ document.leafPaths.size :=
  size_leafShapes_le_of_avoids hw fun _ _ => IsLeaf.avoids_bracket hk

/-- The leaves of one shape, found by their path texts, are those found by their locations. -/
theorem filter_leaves_collapse {path : Path} (hp : path.WellFormed) :
    ((document.leaves .concrete).filter fun leaf => collapse leaf.1 = path.render).map Prod.snd =
      (document.locatedLeaves.filter fun leaf => Location.shape leaf.1 = path).map Prod.snd := by
  rw [leaves_eq .concrete hw hk, List.filter_map, List.filter_filter, List.map_map]
  have hf : ∀ leaf ∈ document.locatedLeaves,
      (collapse leaf.1.render = path.render ∧ leaf.1 ≠ [] ↔ Location.shape leaf.1 = path) := by
    intro leaf hm
    have hs := shapes_wellFormed_of_get? hk ((mem_locatedLeaves hw).mp hm).1
    rw [Location.collapse_render (Location.Avoids.of_wellFormed hs).2.1]
    constructor
    · rintro ⟨he, -⟩
      exact Path.eq_of_render_eq (List.forall_mem_map.mpr hs) hp.2 he
    · rintro rfl
      exact ⟨rfl, by simpa using hp.1⟩
  refine congrArg (List.map _) (List.filter_congr fun leaf hm => ?_)
  rw [Bool.eq_iff_iff]
  simpa using hf leaf hm

end Shapes

/-- The leaf paths of a document are the texts of its leaves, and its shapes are those of its leaf
paths. Every shape is read as a path. Of the values there the scalars, in the order in which they
are found, are the leaves of this shape in document order, and there is one at least. -/
theorem leafShapes_read_leaves {document : Json} (hw : document.WellFormed)
    (hk : document.PlainKeys) :
    (∀ text, text ∈ document.leafPaths ↔
      ∃ location leaf, document.IsLeaf location leaf ∧ location.render = text) ∧
    (∀ text, text ∈ document.leafShapes ↔ ∃ path ∈ document.leafPaths, collapse path = text) ∧
    document.leafShapes.size ≤ document.leafPaths.size ∧
    ∀ shape ∈ document.leafShapes, ∃ path values,
      Path.parse shape = .ok path ∧ document.valuesAt shape = .ok values ∧
      values.filter isScalar =
        ((document.leaves .concrete).filter fun leaf => collapse leaf.1 = shape).map Prod.snd ∧
      values.filter isScalar ≠ [] := by
  refine ⟨fun _ => mem_leafPaths_iff_isLeaf hw hk, fun _ => mem_leafShapes_iff hw hk,
    size_leafShapes_le hw hk, fun shape h => ?_⟩
  obtain ⟨location, leaf, hl, rfl⟩ := (mem_ofList_leaves_iff hw hk .collapsed).mp h
  have hs := hl.shape_wellFormed hk
  have hp : Path.parse location.shape.render = .ok location.shape := Path.parse_render hs
  have hv : ((locatedAlong location.shape document).map Prod.snd).filter isScalar =
      (document.locatedLeaves.filter fun leaf =>
        Location.shape leaf.1 = location.shape).map Prod.snd := by
    rw [← filter_locatedAlong, List.filter_map]
    rfl
  have hg : document.valuesAt location.shape.render =
      .ok ((locatedAlong location.shape document).map Prod.snd) := by
    rw [valuesAt, hp]
    exact Path.values_shape location hw
  refine ⟨_, _, hp, hg, ?_, ?_⟩
  · rw [hv]
    exact (filter_leaves_collapse hw hk hs).symm
  · rw [hv]
    have hm : (location, leaf) ∈ document.locatedLeaves.filter fun leaf =>
        Location.shape leaf.1 = location.shape :=
      List.mem_filter.mpr ⟨(mem_locatedLeaves hw).mpr hl.2, decide_eq_true rfl⟩
    exact List.ne_nil_of_mem (List.mem_map_of_mem hm)

def mixed : Json := .object [("a", .list [.null, .list [.bool true]])]

theorem leafShapes_read_leaves_mixed :
    mixed.WellFormed ∧ mixed.PlainKeys ∧ "a[]" ∈ mixed.leafShapes ∧
    ∃ values, mixed.valuesAt "a[]" = .ok values ∧ values.filter isScalar = [.null] := by
  have hw : mixed.WellFormed := by
    simp [mixed, Members.keys]
  have hk : mixed.PlainKeys := by
    simp [mixed, PlainKeys, keys, Members.keys]
  have hm : "a[]" ∈ mixed.leafShapes :=
    (mem_ofList_leaves_iff hw hk .collapsed).mpr
      ⟨[.key "a", .index 0], .null, ⟨by simp, rfl, rfl⟩, rfl⟩
  have hl : mixed.leaves .concrete = [("a[0]", .null), ("a[1][0]", .bool true)] := by
    simp only [mixed, leaves, leavesAt_object, leavesAt_list, List.zipIdx, List.flatMap_cons,
      List.flatMap_nil]
    rw [leavesAt_scalar .concrete _ rfl, leavesAt_scalar .concrete _ rfl]
    rfl
  obtain ⟨path, values, -, hv, he, -⟩ := (leafShapes_read_leaves hw hk).2.2.2 _ hm
  refine ⟨hw, hk, hm, values, hv, ?_⟩
  rw [he, hl]
  rfl

end Json

end DocPath
