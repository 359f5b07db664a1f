import DocPath.Proofs.Leaves.Reading
import DocPath.Proofs.Sort.Canonical
import DocPath.Proofs.Write.Parts

/-! # Rebuilding a document from its leaves

A document without empty objects and lists inside is determined by its leaves, up to the order of
keys. Writing the leaves to an empty root, in any order, keeps what is built a part of the document
and loses no leaf that is already there. At the end all leaves are there.
-/

namespace DocPath.Json

def FilledBelow (document : Json) : Prop :=
  ∀ e ∈ document.children, e.2.Everywhere fun value => value.isScalar = true ∨ value.children ≠ []

theorem IsLeaf.cons {value child leaf : Json} {step : Step} {rest : Location}
    (hc : value.child? step = some child) (h : rest.get? child = some leaf)
    (hs : leaf.isScalar = true) : value.IsLeaf (step :: rest) leaf := by
  refine ⟨List.cons_ne_nil _ _, ?_, hs⟩
  rw [Location.get?_cons, hc, Option.bind_some, h]

theorem exists_isLeaf {value : Json} (hw : value.WellFormed) (hs : value.isScalar = false)
    (h : value.Everywhere fun value => value.isScalar = true ∨ value.children ≠ []) :
    ∃ location leaf, value.IsLeaf location leaf := by
  induction value using induction_children with
  | h value ih =>
    have hn : value.children ≠ [] := h.here.resolve_left (by simp [hs])
    obtain ⟨⟨step, child⟩, hm⟩ := List.exists_mem_of_ne_nil _ hn
    have hc := (child?_eq_some_iff hw).mpr hm
    cases hsc : child.isScalar with
    | true => exact ⟨[step], child, .cons hc rfl hsc⟩
    | false =>
      obtain ⟨rest, leaf, -, hl, hls⟩ := ih _ hm (hw.of_mem hm) hsc (h.of_mem hm)
      exact ⟨step :: rest, leaf, .cons hc hl hls⟩

theorem IsLeaf.not_prefix {document leaf leaf' : Json} {location other : Location}
    (h : document.IsLeaf location leaf) (h' : document.IsLeaf other leaf')
    (hn : location ≠ other) : ¬ location <+: other := by
  rintro ⟨rest, rfl⟩
  obtain ⟨-, hg, hs⟩ := h
  obtain ⟨-, hg', -⟩ := h'
  rw [Location.get?_append, hg, Option.bind_some, get?_eq_some_iff_of_isScalar hs] at hg'
  simp [hg'.1] at hn

def Covers (part whole : Json) : Prop :=
  ∀ location leaf, whole.IsLeaf location leaf → location.get? part = some leaf

namespace Covers

variable {part whole original : Json} {step : Step}

theorem child?_eq (h : Covers part whole) (hc : whole.child? step = some original)
    (hs : original.isScalar = true) : part.child? step = some original := by
  obtain ⟨value, hv, hg⟩ := Option.bind_eq_some_iff.mp (h [step] original (.cons hc rfl hs))
  exact hv.trans hg

theorem child {value : Json} (h : Covers part whole) (hc : whole.child? step = some original)
    (hv : part.child? step = some value) : Covers value original := by
  rintro rest leaf ⟨-, hg, hs⟩
  have hp := h (step :: rest) leaf (.cons hc hg hs)
  rwa [Location.get?_cons, hv] at hp

theorem exists_child (h : Covers part whole) (hc : whole.child? step = some original)
    {location : Location} {leaf : Json} (hl : original.IsLeaf location leaf) :
    ∃ value, part.child? step = some value ∧ value.kind ≠ .null := by
  obtain ⟨hn, hg, hs⟩ := hl
  obtain ⟨value, hv, hg⟩ :=
    Option.bind_eq_some_iff.mp (h (step :: location) leaf (.cons hc hg hs))
  refine ⟨value, hv, ?_⟩
  cases value with
  | null =>
    cases location with
    | nil => exact absurd rfl hn
    | cons step rest => cases step <;> nomatch hg
  | _ => exact nofun

end Covers

/-- A part that covers the leaves is the whole, but for the order of keys. -/
theorem PartOf.sortAt_eq (order : ListOrder) (path : String) {part whole : Json}
    (h : PartOf part whole) (hp : part.WellFormed) (hw : whole.WellFormed)
    (hn : part.kind ≠ .null) (hs : whole.isScalar = false) (hf : whole.FilledBelow)
    (hc : Covers part whole) : part.sortAt order path = whole.sortAt order path := by
  induction whole using induction_children generalizing part path with
  | h whole ih =>
    refine sortAt_congr order path hs (h.kind_eq hn) hp hw fun step => ?_
    cases ho : whole.child? step with
    | none =>
      cases hv : part.child? step with
      | none => rfl
      | some value =>
        obtain ⟨original, ho', -⟩ := h.exists_child hv
        rw [ho] at ho'
        nomatch ho'
    | some original =>
      have hm := mem_children_of_child? ho
      cases hso : original.isScalar with
      | true => rw [hc.child?_eq ho hso]
      | false =>
        -- a leaf below shows that the part has a value here and has not left it null
        obtain ⟨location, leaf, hl⟩ := exists_isLeaf (hw.of_mem hm) hso (hf _ hm)
        obtain ⟨value, hv, hvn⟩ := hc.exists_child ho hl
        obtain ⟨original', ho', hpart⟩ := h.exists_child hv
        obtain rfl := Option.some.inj (ho.symm.trans ho')
        have hpw := hp.of_mem (mem_children_of_child? hv)
        have hfb : original.FilledBelow := fun e he => (hf _ hm).of_mem he
        rw [hv]
        exact congrArg some (ih _ hm _ hpart hpw (hw.of_mem hm) hvn hso hfb (hc.child ho hv))

def cleared : Json → Json
  | .list _ => .list []
  | .object _ => .object []
  | scalar => scalar

@[simp] theorem kind_cleared (document : Json) : document.cleared.kind = document.kind := by
  cases document <;> rfl

@[simp] theorem isScalar_cleared (document : Json) :
    document.cleared.isScalar = document.isScalar := by
  cases document <;> rfl

@[simp] theorem child?_cleared (document : Json) (step : Step) :
    document.cleared.child? step = none := by
  cases document <;> cases step <;> rfl

/-- What holds of a document while another one is rebuilt in it. -/
structure Rebuilding (document part : Json) : Prop where
  partOf : PartOf part document
  wellFormed : part.WellFormed
  kind_ne_null : part.kind ≠ .null

namespace Rebuilding

theorem cleared {document : Json} (hs : document.isScalar = false) :
    Rebuilding document document.cleared := by
  constructor
  · exact .intro (.inr ⟨by simp, by simp [hs]⟩) (by simp)
  · cases document with
    | list => exact .list nofun
    | object => exact .object .nil nofun
    | _ => nomatch hs
  · rw [kind_cleared]
    cases document with
    | null => nomatch hs
    | _ => exact nofun

variable {document part : Json} (hl : document.ShortLists) (hk : document.PlainKeys)
include hl

theorem assign (h : Rebuilding document part) {location : Location} {leaf : Json}
    (hi : document.IsLeaf location leaf) :
    Rebuilding document (location.assign leaf part).document := by
  obtain ⟨hn, hg, hs⟩ := hi
  have ho := h.partOf.opens hl hg
  constructor
  · exact h.partOf.assign hl hg
  · exact ho.wellFormed_assign h.wellFormed (.of_isScalar hs)
  · exact ho.kind_assign_ne_null hn leaf

theorem get?_assign (h : Rebuilding document part) {written location : Location}
    {value leaf : Json} (hi : document.IsLeaf written value)
    (hleaf : document.IsLeaf location leaf)
    (hm : location = written ∨ location.get? part = some leaf) :
    location.get? (written.assign value part).document = some leaf := by
  have ho := h.partOf.opens hl hi.2.1
  by_cases hn : location = written
  · subst hn
    obtain rfl := Option.some.inj (hi.2.1.symm.trans hleaf.2.1)
    exact ho.get?_assign value
  · exact ho.get?_assign_of_not_prefix value (hi.not_prefix hleaf (Ne.symm hn))
      (hleaf.not_prefix hi hn) (hm.resolve_left hn)

include hk

theorem write_leaf (h : Rebuilding document part) {location : Location} {leaf : Json}
    (hi : document.IsLeaf location leaf) :
    part.write location.render leaf = ⟨(location.assign leaf part).document, .ok 1⟩ :=
  (h.partOf.opens hl hi.2.1).write_render (hi.path_wellFormed hl.addressable hk) h.kind_ne_null leaf

/-- Leaves can be written in any order, and none that is there gets lost. -/
theorem writesInTurn (h : Rebuilding document part) {entries : List (String × Json)}
    (he : ∀ e ∈ entries, ∃ location, document.IsLeaf location e.2 ∧ location.render = e.1) :
    ∃ result, WritesInTurn entries part result ∧ Rebuilding document result ∧
      ∀ location leaf, document.IsLeaf location leaf →
        location.get? part = some leaf ∨ (location.render, leaf) ∈ entries →
          location.get? result = some leaf := by
  induction entries generalizing part with
  | nil => exact ⟨part, .nil part, h, fun _ _ _ hg => hg.resolve_right List.not_mem_nil⟩
  | cons e rest ih =>
    obtain ⟨text, value⟩ := e
    obtain ⟨⟨written, hi, rfl⟩, hrest⟩ := List.forall_mem_cons.mp he
    obtain ⟨result, hw, hr, hg⟩ := ih (h.assign hl hi) hrest
    refine ⟨result, .cons (h.write_leaf hl hk hi) hw, hr, fun location leaf hleaf hm => ?_⟩
    refine hg location leaf hleaf ?_
    -- what the first write leaves or puts there is held through the others by the hypothesis
    rcases hm with hm | hm
    · exact .inl (h.get?_assign hl hi hleaf (.inr hm))
    · rcases List.mem_cons.mp hm with heq | hm
      · have hn := Location.eq_of_render_eq (steps_wellFormed_of_get? hl.addressable hk hleaf.2.1)
          (steps_wellFormed_of_get? hl.addressable hk hi.2.1) (Prod.mk.inj heq).1
        exact .inl (h.get?_assign hl hi hleaf (.inl hn))
      · exact .inr hm

end Rebuilding

/-- The entries of a document, written in any order to its root with nothing in it, rebuild the
document up to the order of keys, each of them at one place. -/
theorem rebuild_from_leaves {document : Json} (hw : document.WellFormed) (hk : document.PlainKeys)
    (hl : document.ShortLists) (hf : document.FilledBelow) (hs : document.isScalar = false)
    {entries : List (String × Json)} (he : document.leafValues.toList.Perm entries) :
    ∃ result, WritesInTurn entries document.cleared result ∧
      result.sort ∅ = document.sort ∅ := by
  have entry_iff (text : String) (leaf : Json) : (text, leaf) ∈ entries ↔
      ∃ location, document.IsLeaf location leaf ∧ location.render = text := by
    rw [← he.mem_iff, Std.TreeMap.mem_toList_iff_getElem?_eq_some,
      leafValues_getElem?_iff hw hl.addressable hk]
  obtain ⟨result, hr, hd, hg⟩ := (Rebuilding.cleared hs).writesInTurn hl hk
    fun e hm => (entry_iff e.1 e.2).mp hm
  have hc : Covers result document := fun location leaf hi =>
    hg location leaf hi (.inr ((entry_iff _ _).mpr ⟨location, hi, rfl⟩))
  exact ⟨result, hr, hd.partOf.sortAt_eq ∅ "" hd.wellFormed hw hd.kind_ne_null hs hf hc⟩

def twoBranches : Json := .object [("b", .list [.null, .object [("c", .bool true)]]), ("a", .null)]

theorem rebuild_from_leaves_nested :
    twoBranches.PlainKeys ∧ twoBranches.ShortLists ∧ twoBranches.FilledBelow ∧
    ∃ result, WritesInTurn [("b[1].c", .bool true), ("a", .null), ("b[0]", .null)]
        (.object []) result ∧
      result.sort ∅ = twoBranches.sort ∅ := by
  have hw : twoBranches.WellFormed := by simp [twoBranches, Members.keys]
  have hk : twoBranches.PlainKeys := by simp [twoBranches, PlainKeys, keys, Members.keys]
  have hl : twoBranches.ShortLists := by simp [twoBranches, ShortLists, maxPadding]
  have hf : twoBranches.FilledBelow := by simp [twoBranches, FilledBelow, children, isScalar]
  have he : twoBranches.leaves .concrete =
      [("b[0]", .null), ("b[1].c", .bool true), ("a", .null)] := by
    simp only [twoBranches, leaves, leavesAt_object, leavesAt_list, List.flatMap_cons,
      List.zipIdx_cons]
    simp only [leavesAt]
    rfl
  have hp : twoBranches.leafValues.toList.Perm
        [("b[1].c", .bool true), ("a", .null), ("b[0]", .null)] := by
    rw [leafValues, he]
    exact @List.perm_append_comm _ [("a", Json.null), ("b[0]", Json.null)] [_]
  exact ⟨hk, hl, hf, rebuild_from_leaves hw hk hl hf rfl hp⟩

end DocPath.Json
