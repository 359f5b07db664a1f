import DocPath.Proofs.Places.Read
import DocPath.Proofs.Write.Single

/-! # Writes through concrete paths

A concrete path has fields and positions only. It leads to one location, which a write reaches
exactly when every step to it can be taken. There reading and writing obey the laws of a lens: what
was put is read, putting what is read changes nothing, and of two writes the second one stays.
-/

namespace DocPath

open Location

def Path.Concrete (path : Path) : Prop :=
  ∀ segment ∈ path, (∃ name, segment = .field name) ∨ ∃ position, segment = .index position

theorem Path.Concrete.exists_location {path : Path} (h : path.Concrete) :
    ∃ location : Location, location.path = path := by
  induction path with
  | nil => exact ⟨[], rfl⟩
  | cons segment rest ih =>
    obtain ⟨hs, hr⟩ := List.forall_mem_cons.mp h
    obtain ⟨location, rfl⟩ := ih hr
    obtain ⟨name, rfl⟩ | ⟨position, rfl⟩ := hs
    · exact ⟨.key name :: location, rfl⟩
    · exact ⟨.index position :: location, rfl⟩

theorem Members.put_of_get? {members : Members} {key : String} {value : Json}
    (h : members.get? key = some value) : members.put key value = members := by
  induction members with
  | nil => nomatch h
  | cons m rest ih =>
    obtain ⟨k, v⟩ := m
    rw [get?_cons] at h
    rw [put]
    split at h
    · next hk => rw [if_pos hk, Option.some.inj h]
    · next hk => rw [if_neg hk, ih h]

theorem around_child? {document child : Json} {step : Step} {slot : Slot}
    (h : document.slot? step = some slot) (hc : document.child? step = some child) :
    slot.around child = document := by
  obtain ⟨name, members, rfl, hm, rfl⟩ | ⟨position, items, rfl, hi, rfl⟩ := slot?_eq_some h
  · obtain ⟨rfl, rfl⟩ | rfl := orEmptyObject_eq hm
    · nomatch hc
    · exact congrArg Json.object (Members.put_of_get? hc)
  · obtain ⟨rfl, rfl⟩ | rfl := orEmptyList_eq hi
    · nomatch hc
    · obtain ⟨hlt, rfl⟩ := List.getElem?_eq_some_iff.mp hc
      simp [padTo_of_lt hlt]

namespace Location

variable {location : Location} {document value : Json}

theorem opens_of_get? (h : location.get? document = some value) :
    Opens .write location (some document) := by
  induction location generalizing document with
  | nil => trivial
  | cons step rest ih =>
    obtain ⟨child, hc, h⟩ := Option.bind_eq_some_iff.mp h
    refine opens_write_cons.mpr ⟨Access.opens_of_child? .write hc, ?_⟩
    rw [hc]
    exact ih h

theorem opens_of_places_path {places : List Place}
    (h : location.path.places .write document = .ok places) :
    Opens .write location (some document) := by
  induction location using List.reverseRecOn generalizing places with
  | nil => trivial
  | append_singleton front step ih =>
    have hp : path (front ++ [step]) = path front ++ [step.segment] := path_append front [step]
    rw [hp, Path.places_append_singleton, bind_eq_ok_iff] at h
    obtain ⟨before, hb, h⟩ := h
    have ho := ih hb
    rw [places_path ho] at hb
    cases hb
    obtain ⟨next, -, hf, -⟩ := Segment.advance_cons_eq_ok_iff.mp h
    exact opens_append.mpr ⟨ho, Place.opens_of_follow_segment hf, trivial⟩

theorem assign_of_get? (h : location.get? document = some value) :
    location.assign value document = ⟨document, none⟩ := by
  induction location generalizing document with
  | nil =>
    obtain rfl := Option.some.inj h
    rfl
  | cons step rest ih =>
    obtain ⟨slot, hs, -, hc, ha⟩ := (opens_of_get? h).cons_assign value
    obtain ⟨child, hd, h⟩ := Option.bind_eq_some_iff.mp h
    rw [hd, Option.getD_some] at hc
    rw [ha, hc, ih h, Slot.fill, around_child? hs hd]

theorem Opens.assign_assign (h : Opens .write location (some document)) (value value' : Json) :
    location.assign value' (location.assign value document).document =
      location.assign value' document := by
  induction location generalizing document with
  | nil => rfl
  | cons step rest ih =>
    obtain ⟨slot, hs, hr, -, ha⟩ := h.cons_assign value
    rw [ha, Slot.fill, assign_cons value' (slot?_around hs _), assign_cons value' hs, ih hr]
    rfl

/-- A write through the concrete path of a location is one assignment there, and succeeds where the
way is open. -/
theorem write_path_eq_ok_iff {result : Json} {n : Nat} :
    location.path.write value document = ⟨result, .ok n⟩ ↔
      document.kind ≠ .null ∧ location ≠ [] ∧ Opens .write location (some document) ∧
        n = 1 ∧ (location.assign value document).document = result := by
  have hne : location.path ≠ [] ↔ location ≠ [] := by simp [path]
  rw [Path.write_eq_ok_iff, hne]
  constructor
  · rintro ⟨hd, hn, -, locations, hl, rfl, ha⟩
    obtain ⟨places, hp, -⟩ := Path.locations_eq_ok_iff.mp hl
    have ho := opens_of_places_path hp
    obtain rfl := Except.ok.inj ((locations_path ho).symm.trans hl)
    rw [ho.assignAll_singleton value] at ha
    exact ⟨hd, hn, ho, rfl, congrArg Assigned.document ha⟩
  · rintro ⟨hd, hn, ho, rfl, rfl⟩
    exact ⟨hd, hn, endsInFilter_path location, [location], locations_path ho, rfl,
      ho.assignAll_singleton value⟩

theorem firstValue_path (location : Location) (document : Json) :
    location.path.firstValue document = .ok (location.get? document) := by
  rw [Path.firstValue, values_path]
  cases location.get? document <;> rfl

end Location

/-- The laws of a lens for a concrete path. After a write the path has the new value and no other
one; writing the value that is there changes nothing; and a second write gives what it would have
given without the first one. -/
theorem concrete_lens {path : Path} (hc : path.Concrete) (hn : path ≠ [])
    (document value value' : Json) :
    (∀ result n, path.write value document = ⟨result, .ok n⟩ →
      n = 1 ∧ path.values result = .ok [value]) ∧
    (path.firstValue document = .ok (some value) →
      path.write value document = ⟨document, .ok 1⟩) ∧
    ∀ result n, path.write value document = ⟨result, .ok n⟩ →
      ∃ last, path.write value' result = ⟨last, .ok 1⟩ ∧
        path.write value' document = ⟨last, .ok 1⟩ := by
  obtain ⟨location, rfl⟩ := hc.exists_location
  have hn : location ≠ [] := fun h => hn (by rw [h]; rfl)
  refine ⟨?_, ?_, ?_⟩
  · intro result n h
    obtain ⟨-, -, ho, rfl, rfl⟩ := write_path_eq_ok_iff.mp h
    rw [values_path, ho.get?_assign value]
    exact ⟨rfl, rfl⟩
  · intro h
    have hg : location.get? document = some value := by
      rw [firstValue_path] at h
      exact Except.ok.inj h
    have ho := opens_of_get? hg
    have hd := ho.kind_assign_ne_null hn value
    rw [assign_of_get? hg] at hd
    exact write_path_eq_ok_iff.mpr ⟨hd, hn, ho, rfl, by rw [assign_of_get? hg]⟩
  · intro result n h
    obtain ⟨hd, -, ho, rfl, rfl⟩ := write_path_eq_ok_iff.mp h
    refine ⟨(location.assign value' document).document, ?_, ?_⟩
    · refine write_path_eq_ok_iff.mpr ⟨ho.kind_assign_ne_null hn value, hn,
        opens_of_get? (ho.get?_assign value), rfl, ?_⟩
      rw [ho.assign_assign]
    · exact write_path_eq_ok_iff.mpr ⟨hd, hn, ho, rfl, rfl⟩

theorem concrete_lens_padding :
    Path.Concrete [.field "a", .index 2] ∧
    Path.values [.field "a", .index 2] (.object [("a", .list [.bool true, .null, .null])]) =
      .ok [.null] ∧
    ∃ last, Path.write [.field "a", .index 2] (.string "x")
        (.object [("a", .list [.bool true, .null, .null])]) = ⟨last, .ok 1⟩ ∧
      Path.write [.field "a", .index 2] (.string "x") (.object [("a", .list [.bool true])]) =
        ⟨last, .ok 1⟩ := by
  have hc : Path.Concrete [.field "a", .index 2] := by simp [Path.Concrete]
  obtain ⟨hg, -, hp⟩ := concrete_lens hc (by simp) (.object [("a", .list [.bool true])]) .null
    (.string "x")
  have hw : Path.write [.field "a", .index 2] .null (.object [("a", .list [.bool true])]) =
      ⟨.object [("a", .list [.bool true, .null, .null])], .ok 1⟩ := rfl
  exact ⟨hc, (hg _ _ hw).2, hp _ _ hw⟩

end DocPath
