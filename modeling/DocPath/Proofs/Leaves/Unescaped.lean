import DocPath.Proofs.Leaves.Shapes
import Mathlib.Data.Set.Card

/-! # Leaves under keys of any kind

A key stands in a path text as it is. Where it has a dot or a bracket in it, two leaves may have one
text, and a text may be read as another path. Leaves have different texts when no key on the way
has a dot or an opening bracket, and those with plain keys on the way are read back whatever other
keys there are.
-/

namespace DocPath

theorem append_inj_of_head? {p : Char → Bool} {front other back rest : List Char}
    (hf : ∀ c ∈ front, p c = true) (ho : ∀ c ∈ other, p c = true)
    (hb : ∀ c ∈ back.head?, p c = false) (hr : ∀ c ∈ rest.head?, p c = false)
    (he : front ++ back = other ++ rest) : front = other ∧ back = rest := by
  induction front generalizing other with
  | nil =>
    cases other with
    | nil => exact ⟨rfl, he⟩
    | cons d other =>
      obtain rfl : back = d :: (other ++ rest) := he
      simp [ho d List.mem_cons_self] at hb
  | cons c front ih =>
    obtain ⟨hc, hf⟩ := List.forall_mem_cons.mp hf
    cases other with
    | nil =>
      obtain rfl : c :: (front ++ back) = rest := he
      simp [hc] at hr
    | cons d other =>
      obtain ⟨rfl, ht⟩ := List.cons.inj he
      obtain ⟨rfl, hb⟩ := ih hf (List.forall_mem_cons.mp ho).2 ht
      exact ⟨rfl, hb⟩

namespace Location

/-- Every key ends where the text goes on with another step. -/
structure Separable (location : Location) : Prop where
  dot : location.Avoids '.'
  bracket : location.Avoids '['

theorem separable_cons_iff {step : Step} {rest : Location} :
    Separable (step :: rest) ↔ Separable [step] ∧ Separable rest := by
  constructor
  · rintro ⟨hd, hb⟩
    rw [avoids_cons_iff] at hd hb
    exact ⟨⟨hd.1, hb.1⟩, ⟨hd.2, hb.2⟩⟩
  · rintro ⟨⟨hd, hb⟩, ⟨hd', hb'⟩⟩
    exact ⟨avoids_cons_iff.mpr ⟨hd, hd'⟩, avoids_cons_iff.mpr ⟨hb, hb'⟩⟩

theorem head?_flatMap_charsAfter {location : Location} {c : Char}
    (h : c ∈ (location.flatMap Step.charsAfter).head?) : c = '.' ∨ c = '[' := by
  cases location with
  | nil => nomatch h
  | cons step rest =>
    cases step with
    | key name => exact .inl (Option.some.inj h).symm
    | index position => exact .inr (Option.some.inj h).symm

variable {location other : Location}

theorem key_append_inj {name name' : String} (h : Separable [.key name])
    (h' : Separable [.key name'])
    (he : name.toList ++ location.flatMap Step.charsAfter =
      name'.toList ++ other.flatMap Step.charsAfter) :
    name = name' ∧ location.flatMap Step.charsAfter = other.flatMap Step.charsAfter := by
  have inside {name : String} (h : Separable [.key name]) :
      ∀ c ∈ name.toList, (c != '.' && c != '[') = true := by
    intro c hc
    simp only [Bool.and_eq_true, bne_iff_ne]
    exact ⟨fun he => h.dot name List.mem_cons_self (he ▸ hc),
      fun he => h.bracket name List.mem_cons_self (he ▸ hc)⟩
  have outside {location : Location} :
      ∀ c ∈ (location.flatMap Step.charsAfter).head?, (c != '.' && c != '[') = false := by
    intro c hc
    rcases head?_flatMap_charsAfter hc with rfl | rfl <;> rfl
  obtain ⟨hn, hr⟩ := append_inj_of_head? (inside h) (inside h') outside outside he
  exact ⟨String.toList_inj.mp hn, hr⟩

theorem index_append_inj {position position' : Nat}
    (he : Step.chars (.index position) ++ location.flatMap Step.charsAfter =
      Step.chars (.index position') ++ other.flatMap Step.charsAfter) :
    position = position' ∧ location.flatMap Step.charsAfter = other.flatMap Step.charsAfter := by
  have hd (n : Nat) : ∀ c ∈ Nat.toDigits 10 n, c.isDigit = true := fun c hc =>
    Nat.isDigit_of_mem_toDigits (b := 10) (by decide) (by decide) hc
  have hc (rest : List Char) : ∀ c ∈ (']' :: rest).head?, c.isDigit = false := by simp
  have ht : Nat.toDigits 10 position ++ ']' :: location.flatMap Step.charsAfter =
      Nat.toDigits 10 position' ++ ']' :: other.flatMap Step.charsAfter := by
    simpa [Step.chars] using he
  obtain ⟨hp, hr⟩ := append_inj_of_head? (hd position) (hd position') (hc _) (hc _) ht
  have hv := congrArg digitsValue hp
  rw [digitsValue_toDigits, digitsValue_toDigits] at hv
  exact ⟨hv, (List.cons.inj hr).2⟩

/-- Behind the front every step starts with a dot or a bracket, which are in no key. -/
theorem Separable.flatMap_charsAfter_inj (h : location.Separable) (h' : other.Separable)
    (he : location.flatMap Step.charsAfter = other.flatMap Step.charsAfter) :
    location = other := by
  induction location generalizing other with
  | nil =>
    cases other with
    | nil => rfl
    | cons step other => cases step <;> nomatch he
  | cons step location ih =>
    obtain ⟨hs, hr⟩ := separable_cons_iff.mp h
    cases other with
    | nil => cases step <;> nomatch he
    | cons step' other =>
      obtain ⟨hs', hr'⟩ := separable_cons_iff.mp h'
      rw [List.flatMap_cons, List.flatMap_cons] at he
      cases step with
      | key name =>
        cases step' with
        | key name' =>
          obtain ⟨rfl, ht⟩ := key_append_inj hs hs' (List.cons.inj he).2
          rw [ih hr hr' ht]
        | index position' => cases (List.cons.inj he).1
      | index position =>
        cases step' with
        | key name' => cases (List.cons.inj he).1
        | index position' =>
          obtain ⟨rfl, ht⟩ := index_append_inj he
          rw [ih hr hr' ht]

theorem Separable.append_ne_bracket {name : String} (h : Separable [.key name]) (hn : name ≠ "")
    (front back : List Char) : name.toList ++ front ≠ '[' :: back := by
  intro he
  cases ht : name.toList with
  | nil => exact hn (String.toList_eq_nil_iff.mp ht)
  | cons c rest =>
    rw [ht] at he
    obtain rfl : c = '[' := (List.cons.inj he).1
    exact h.bracket name List.mem_cons_self (ht ▸ List.mem_cons_self)

theorem ne_empty_of_head? {name : String} {rest : Location}
    (h : List.head? (.key name :: rest) ≠ some (Step.key "")) : name ≠ "" := by
  rintro rfl
  exact h rfl

theorem Separable.chars_inj (h : location.Separable) (h' : other.Separable)
    (hh : location.head? ≠ some (.key "")) (hh' : other.head? ≠ some (.key ""))
    (he : location.chars = other.chars) : location = other := by
  match location, other with
  | [], [] => rfl
  | [], .key _ :: _ =>
    have hn := (List.append_eq_nil_iff.mp he.symm).1
    exact absurd (String.toList_eq_nil_iff.mp hn) (ne_empty_of_head? hh')
  | .key _ :: _, [] =>
    have hn := (List.append_eq_nil_iff.mp he).1
    exact absurd (String.toList_eq_nil_iff.mp hn) (ne_empty_of_head? hh)
  | [], .index _ :: _ => nomatch he
  | .index _ :: _, [] => nomatch he
  | .key _ :: _, .key _ :: _ => exact h.flatMap_charsAfter_inj h' (congrArg ('.' :: ·) he)
  | .index _ :: _, .index _ :: _ => exact h.flatMap_charsAfter_inj h' he
  | .key _ :: _, .index _ :: _ =>
    have hs := (separable_cons_iff.mp h).1
    exact absurd he (hs.append_ne_bracket (ne_empty_of_head? hh) _ _)
  | .index _ :: _, .key _ :: _ =>
    have hs := (separable_cons_iff.mp h').1
    exact absurd he.symm (hs.append_ne_bracket (ne_empty_of_head? hh') _ _)

theorem Separable.render_inj (h : location.Separable) (h' : other.Separable)
    (hh : location.head? ≠ some (.key "")) (hh' : other.head? ≠ some (.key ""))
    (he : location.render = other.render) : location = other :=
  h.chars_inj h' hh hh' (String.ofList_injective he)

end Location

namespace Json

variable {document : Json}

theorem ncard_isLeaf (hw : document.WellFormed) :
    {location | ∃ leaf, document.IsLeaf location leaf}.ncard =
      (document.locatedLeaves.filter fun leaf => leaf.1 ≠ []).length := by
  have hs : {location | ∃ leaf, document.IsLeaf location leaf} =
      ↑((document.locatedLeaves.filter fun leaf => leaf.1 ≠ []).map Prod.fst).toFinset := by
    ext location
    rw [Finset.mem_coe, List.mem_toFinset]
    exact (mem_leafLocations_iff hw).symm
  rw [hs, Set.ncard_coe_finset, List.toFinset_card_of_nodup (nodup_leafLocations hw),
    List.length_map]

section Separable

variable (hw : document.WellFormed)
  (hs : ∀ location leaf, document.IsLeaf location leaf → location.Separable)
  (hh : ∀ location leaf, document.IsLeaf location leaf → location.head? ≠ some (.key ""))
include hw hs hh

theorem nodup_leaves_of_separable : ((document.leaves .concrete).map Prod.fst).Nodup := by
  refine nodup_leaves_of_injOn hw hh ?_
  rintro location ⟨leaf, h⟩ other ⟨leaf', h'⟩ he
  exact (hs location leaf h).render_inj (hs other leaf' h') (hh location leaf h)
    (hh other leaf' h') he

theorem size_leafValues :
    document.leafValues.size = {location | ∃ leaf, document.IsLeaf location leaf}.ncard := by
  have hd : (document.leaves .concrete).Pairwise fun a b => ¬compare a.1 b.1 = .eq :=
    (List.pairwise_map.mp (nodup_leaves_of_separable hw hs hh)).imp
      fun hne he => hne (Std.LawfulEqCmp.eq_of_compare he)
  rw [leafValues, Std.TreeMap.size_ofList hd, leaves_eq_of_head? .concrete hw hh,
    List.length_map, ncard_isLeaf hw]

theorem leafValues_getElem?_written {location : Location} {leaf : Json}
    (h : document.IsLeaf location leaf) :
    document.leafValues[PositionStyle.concrete.written location]? = some leaf := by
  refine leafValues_getElem?_of_mem (nodup_leaves_of_separable hw hs hh) ?_
  refine (mem_leaves_iff_written hw).mpr ⟨fun he => h.1 ?_, location, h, rfl⟩
  rw [Location.written_eq_render _ (hh location leaf h)] at he
  exact (Location.render_eq_empty_iff _ (hh location leaf h)).mp he

end Separable

/-- Leaves have different texts, and a document has an entry for each of them, when no key on the
way has a dot or an opening bracket and the first one is not empty. Without opening brackets in keys
there are no more shapes than paths. Every path is the text of a leaf, and if it has plain keys on
the way, the text is read as the path to it and finds it, whatever keys other leaves have. -/
theorem leaves_unescaped {document : Json} (hw : document.WellFormed) (ha : document.Addressable) :
    Set.InjOn PositionStyle.concrete.written {location | (∃ leaf, document.IsLeaf location leaf) ∧
      location.Separable ∧ location.head? ≠ some (.key "")} ∧
    ((∀ location leaf, document.IsLeaf location leaf →
        location.Separable ∧ location.head? ≠ some (.key "")) →
      document.leafValues.size = {location | ∃ leaf, document.IsLeaf location leaf}.ncard ∧
        ∀ location leaf, document.IsLeaf location leaf →
          document.leafValues[PositionStyle.concrete.written location]? = some leaf) ∧
    ((∀ location leaf, document.IsLeaf location leaf → location.Avoids '[') →
      document.leafShapes.size ≤ document.leafPaths.size) ∧
    (∀ text ∈ document.leafPaths, ∃ location leaf,
      document.IsLeaf location leaf ∧ PositionStyle.concrete.written location = text) ∧
    ∀ location leaf, document.IsLeaf location leaf → (∀ step ∈ location, step.shape.WellFormed) →
      PositionStyle.concrete.written location ∈ document.leafPaths ∧
        Path.parse (PositionStyle.concrete.written location) = .ok location.path ∧
        document.valueAt (PositionStyle.concrete.written location) = .ok (some leaf) := by
  refine ⟨?_, fun h => ?_, size_leafShapes_le_of_avoids hw, fun text h => ?_,
    fun location leaf h hs => ?_⟩
  · rintro location ⟨-, h, hh⟩ other ⟨-, h', hh'⟩ he
    rw [Location.written_eq_render _ hh, Location.written_eq_render _ hh',
      PositionStyle.render_concrete, PositionStyle.render_concrete] at he
    exact h.render_inj h' hh hh' he
  · have hs := fun location leaf hl => (h location leaf hl).1
    have hh := fun location leaf hl => (h location leaf hl).2
    exact ⟨size_leafValues hw hs hh, fun _ _ => leafValues_getElem?_written hw hs hh⟩
  · exact ((mem_ofList_leaves_iff_written hw).mp h).2
  · have hp : location.path.WellFormed := Location.path_wellFormed_iff.mpr
      ⟨h.1, segments_wellFormed_of_get? ha hs h.2.1⟩
    have ht : PositionStyle.concrete.written location = location.render := by
      rw [Location.written_eq_render _ (Location.head?_ne_of_wellFormed hs),
        PositionStyle.render_concrete]
    refine ⟨(mem_ofList_leaves_iff_written hw).mpr ⟨?_, location, leaf, h, rfl⟩, ?_, ?_⟩
    · rw [ht, ← Location.render_path]
      exact hp.render_ne_empty
    · rw [ht]
      exact Location.parse_render hp
    · rw [ht]
      exact valueAt_render hp h.2.1

def closingKey : Json :=
  .object [("a]", .list [.null]), ("b", .object [("", .null), ("c", .bool true)])]

theorem leaves_unescaped_brackets :
    closingKey.WellFormed ∧ closingKey.Addressable ∧
    closingKey.leafValues.size = {location | ∃ leaf, closingKey.IsLeaf location leaf}.ncard ∧
    closingKey.leafShapes.size ≤ closingKey.leafPaths.size ∧
    Path.parse "b.c" = .ok [.field "b", .field "c"] ∧
    closingKey.valueAt "b.c" = .ok (some (.bool true)) := by
  have hw : closingKey.WellFormed := by
    simp [closingKey, Members.keys]
  have ha : closingKey.Addressable := by
    simp [closingKey, positionLimit, UInt64.size]
  have hl : closingKey.locatedLeaves =
      [([.key "a]", .index 0], .null), ([.key "b", .key ""], .null),
        ([.key "b", .key "c"], .bool true)] := by
    simp [closingKey, @locatedLeaves_children (.object _) rfl,
      @locatedLeaves_children (.list _) rfl, @locatedLeaves_scalar .null rfl,
      @locatedLeaves_scalar (.bool _) rfl, children]
  have hs : ∀ location leaf, closingKey.IsLeaf location leaf →
      location.Separable ∧ location.head? ≠ some (.key "") := by
    intro location leaf h
    have hm := (mem_locatedLeaves hw).mpr h.2
    rw [hl] at hm
    simp only [List.mem_cons, List.not_mem_nil, or_false, Prod.mk.injEq] at hm
    rcases hm with ⟨rfl, -⟩ | ⟨rfl, -⟩ | ⟨rfl, -⟩
    all_goals exact ⟨⟨by simp [Location.Avoids], by simp [Location.Avoids]⟩, by simp⟩
  have hc : closingKey.IsLeaf [.key "b", .key "c"] (.bool true) := ⟨by simp, rfl, rfl⟩
  obtain ⟨-, hn, hb, -, hr⟩ := leaves_unescaped hw ha
  obtain ⟨-, hp, hv⟩ := hr _ _ hc (by simp [Step.shape, Segment.WellFormed])
  exact ⟨hw, ha, (hn hs).1, hb fun location leaf h => (hs location leaf h).1.bracket, hp, hv⟩

/-- A document with leaves that have one path text, and with path texts that do not lead back. -/
def entangled : Json :=
  .object [("a", .list [.bool true]), ("a[0]", .null), ("b", .object [("c", .bool true)]),
    ("b.c", .null), ("d.e", .null), ("f]", .null), ("g", .object [("", .null)])]

/-- With dots and brackets in keys, two leaves may have one text, and there may be more shapes than
paths; and with an empty key also, a path text may lead nowhere or be none. -/
theorem leaf_texts_meet :
    entangled.WellFormed ∧
    (entangled.IsLeaf [.key "a", .index 0] (.bool true) ∧ entangled.IsLeaf [.key "a[0]"] .null ∧
      PositionStyle.concrete.written [.key "a", .index 0] = "a[0]" ∧
      PositionStyle.concrete.written [.key "a[0]"] = "a[0]") ∧
    (entangled.IsLeaf [.key "b", .key "c"] (.bool true) ∧ entangled.IsLeaf [.key "b.c"] .null ∧
      PositionStyle.concrete.written [.key "b", .key "c"] = "b.c" ∧
      PositionStyle.concrete.written [.key "b.c"] = "b.c") ∧
    (entangled.leafValues.size = 5 ∧
      {location | ∃ leaf, entangled.IsLeaf location leaf}.ncard = 7) ∧
    (entangled.leafPaths.size = 5 ∧ entangled.leafShapes.size = 6) ∧
    (∀ text ∈ ["d.e", "f]", "g."], text ∈ entangled.leafPaths) ∧
    entangled.valueAt "d.e" = .ok none ∧
    entangled.valueAt "f]" = .error (.malformed "f]" (.unmatchedBracket 1)) ∧
    entangled.valueAt "g." = .error (.malformed "g." .emptySegment) := by
  have hw : entangled.WellFormed := by
    simp [entangled, Members.keys]
  have hl : entangled.locatedLeaves = [([.key "a", .index 0], .bool true), ([.key "a[0]"], .null),
      ([.key "b", .key "c"], .bool true), ([.key "b.c"], .null), ([.key "d.e"], .null),
      ([.key "f]"], .null), ([.key "g", .key ""], .null)] := by
    simp [entangled, @locatedLeaves_children (.object _) rfl,
      @locatedLeaves_children (.list _) rfl, @locatedLeaves_scalar .null rfl,
      @locatedLeaves_scalar (.bool _) rfl, children]
  have hd : Path.parse "d.e" = .ok [.field "d", .field "e"] :=
    @Path.parse_render [.field "d", .field "e"] (by simp [Path.WellFormed, Segment.WellFormed])
  have hf : Path.parse "f]" = .error (.malformed "f]" (.unmatchedBracket 1)) := by decide +kernel
  have hg : Path.parse "g." = .error (.malformed "g." .emptySegment) := by decide +kernel
  have listed {location : Location} {leaf : Json} {text : String}
      (h : entangled.IsLeaf location leaf) (hn : text ≠ "")
      (ht : PositionStyle.concrete.written location = text) : text ∈ entangled.leafPaths :=
    (mem_ofList_leaves_iff_written hw).mpr ⟨hn, location, leaf, h, ht⟩
  refine ⟨hw, ⟨⟨by simp, rfl, rfl⟩, ⟨by simp, rfl, rfl⟩, by decide, by decide⟩,
    ⟨⟨by simp, rfl, rfl⟩, ⟨by simp, rfl, rfl⟩, by decide, by decide⟩, ⟨?_, ?_⟩, ⟨?_, ?_⟩, ?_,
    by rw [valueAt, hd]; rfl, by rw [valueAt, hf]; rfl, by rw [valueAt, hg]; rfl⟩
  · rw [leafValues, leaves, leavesAt_eq_map_locatedLeaves, hl]
    decide +kernel
  · rw [ncard_isLeaf hw, hl]
    rfl
  · rw [leafPaths, leaves, leavesAt_eq_map_locatedLeaves, hl]
    decide +kernel
  · rw [leafShapes, leaves, leavesAt_eq_map_locatedLeaves, hl]
    decide +kernel
  · simp only [List.forall_mem_cons, List.not_mem_nil, false_imp_iff, implies_true, and_true]
    exact ⟨@listed [.key "d.e"] .null _ ⟨by simp, rfl, rfl⟩ (by simp) rfl,
      @listed [.key "f]"] .null _ ⟨by simp, rfl, rfl⟩ (by simp) rfl,
      @listed [.key "g", .key ""] .null _ ⟨by simp, rfl, rfl⟩ (by simp) rfl⟩

end Json

end DocPath
