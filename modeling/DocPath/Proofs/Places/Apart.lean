import DocPath.Proofs.Places.Order

/-! # Locations apart

Two locations of a path go through different elements of one list, which both exist in the document.
This is what it means for them to be apart.
-/

namespace DocPath

namespace Location

/-- Two locations that go through different elements of one existing list. -/
inductive Apart : Location → Location → Json → Prop where
  | here {items : List Json} {i j : Nat} {rest rest' : Location} : i ≠ j → i < items.length →
      j < items.length → Apart (.index i :: rest) (.index j :: rest') (.list items)
  | deeper {document child : Json} {step : Step} {rest rest' : Location} :
      document.child? step = some child → Apart rest rest' child →
        Apart (step :: rest) (step :: rest') document

namespace Apart

variable {location other front back back' : Location} {document : Json}

theorem symm (h : Apart location other document) : Apart other location document := by
  induction h with
  | here hn hi hj => exact .here hn.symm hj hi
  | deeper hc _ ih => exact .deeper hc ih

theorem under {value : Json} (hf : front.get? document = some value)
    (h : Apart location other value) : Apart (front ++ location) (front ++ other) document := by
  induction front generalizing document with
  | nil =>
    obtain rfl := Option.some.inj hf
    exact h
  | cons step rest ih =>
    obtain ⟨child, hc, hf⟩ := Option.bind_eq_some_iff.mp hf
    exact .deeper hc (ih hf)

theorem exists_child (h : Apart location other document) :
    ∃ step rest child, location = step :: rest ∧ document.child? step = some child := by
  cases h with
  | here _ hi _ => exact ⟨_, _, _, rfl, List.getElem?_eq_getElem hi⟩
  | deeper hc _ => exact ⟨_, _, _, rfl, hc⟩

theorem of_append (h : Apart (front ++ back) (front ++ back') document) :
    ∃ value, front.get? document = some value ∧ Apart back back' value := by
  induction front generalizing document with
  | nil => exact ⟨document, rfl, h⟩
  | cons step rest ih =>
    cases h with
    | here hn => exact absurd rfl hn
    | deeper hc h =>
      obtain ⟨value, hg, hb⟩ := ih h
      exact ⟨value, by rw [get?_cons, hc, Option.bind_some, hg], hb⟩

theorem not_prefix (h : Apart location other document) : ¬ location <+: other := by
  rintro ⟨back, rfl⟩
  have hb : Apart (location ++ []) (location ++ back) document := by rwa [List.append_nil]
  obtain ⟨value, -, hb⟩ := hb.of_append
  obtain ⟨_, _, _, he, -⟩ := hb.exists_child
  nomatch he

end Apart

theorem PartAt.apart {location other : Location} {document : Json} {depth : Nat}
    {test : Json → Bool} (h : location.PartAt document depth test other) :
    location.Apart other document := by
  obtain ⟨-, hg, hlt, hi, -, hj, -⟩ := h
  exact .under hg (.here hlt.ne (List.getElem?_eq_some_iff.mp hi).1
    (List.getElem?_eq_some_iff.mp hj).1)

end Location

/-- The locations of a path are apart from each other. -/
theorem Path.pairwise_apart {access : Access} {path : Path} {document : Json} {places : List Place}
    (h : path.places access document = .ok places) :
    places.Pairwise fun p q => p.location.Apart q.location document := by
  refine (pairwise_parts h).imp ?_
  rintro p q ⟨_, _, _, _, -, -, hpart⟩
  exact hpart.apart

end DocPath
