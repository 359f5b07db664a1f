import DocPath.Proofs.Places.Reached
import DocPath.Proofs.Write.Assignment

/-! # Writes at one location

Where the way to a location is open, an assignment succeeds, the location then has the value, and a
value that lies neither on the way nor below keeps its place. So a write through the text of the
location is that assignment. Such writes may follow each other through a list of texts and values.
-/

namespace DocPath

theorem slot?_eq_some {document : Json} {step : Step} {slot : Slot}
    (h : document.slot? step = some slot) :
    (∃ name members, step = .key name ∧ document.orEmptyObject = .object members ∧
      slot = ⟨(Members.get? members name).getD .null,
        fun child => .object (Members.put name child members)⟩) ∨
    ∃ position items, step = .index position ∧ document.orEmptyList = .list items ∧
      slot = ⟨items[position]?.getD .null,
        fun child => .list ((padTo position items).set position child)⟩ := by
  cases step with
  | key name =>
    simp only [Json.slot?] at h
    split at h
    · next members hm => exact .inl ⟨name, members, rfl, hm, (Option.some.inj h).symm⟩
    · cases h
  | index position =>
    simp only [Json.slot?] at h
    split at h
    · next items hi =>
      split at h
      · cases h
      · exact .inr ⟨position, items, rfl, hi, (Option.some.inj h).symm⟩
    · cases h

theorem orEmptyObject_eq {document : Json} {members : Members}
    (h : document.orEmptyObject = .object members) :
    document = .null ∧ members = [] ∨ document = .object members := by
  cases document with
  | null =>
    cases h
    exact .inl ⟨rfl, rfl⟩
  | object =>
    cases h
    exact .inr rfl
  | _ => nomatch h

theorem orEmptyList_eq {document : Json} {items : List Json}
    (h : document.orEmptyList = .list items) :
    document = .null ∧ items = [] ∨ document = .list items := by
  cases document with
  | null =>
    cases h
    exact .inl ⟨rfl, rfl⟩
  | list =>
    cases h
    exact .inr rfl
  | _ => nomatch h

theorem child?_key_of_orEmptyObject {document : Json} {members : Members} (name : String)
    (h : document.orEmptyObject = .object members) :
    document.child? (.key name) = members.get? name := by
  obtain ⟨rfl, rfl⟩ | rfl := orEmptyObject_eq h <;> rfl

theorem child?_index_of_orEmptyList {document : Json} {items : List Json} (position : Nat)
    (h : document.orEmptyList = .list items) :
    document.child? (.index position) = items[position]? := by
  obtain ⟨rfl, rfl⟩ | rfl := orEmptyList_eq h <;> rfl

theorem child_of_slot? {document : Json} {step : Step} {slot : Slot}
    (h : document.slot? step = some slot) :
    slot.child = (document.child? step).getD .null := by
  obtain ⟨name, members, rfl, hm, rfl⟩ | ⟨position, items, rfl, hi, rfl⟩ := slot?_eq_some h
  · rw [child?_key_of_orEmptyObject name hm]
  · rw [child?_index_of_orEmptyList position hi]

theorem Json.Admits.exists_slot {document : Json} {step : Step} (h : document.Admits step) :
    ∃ slot, document.slot? step = some slot ∧ slot.child = (document.child? step).getD .null := by
  cases step with
  | key name =>
    obtain ⟨members, hm⟩ := h
    have hs := slot?_key name hm
    exact ⟨_, hs, child_of_slot? hs⟩
  | index position =>
    obtain ⟨items, hi, hp⟩ := h
    have hs := slot?_index hi (hp.imp_right lt_positionLimit_of_paddingAllowed)
    exact ⟨_, hs, child_of_slot? hs⟩

section Around

variable {document : Json} {step : Step} {slot : Slot} (h : document.slot? step = some slot)
  (child : Json)
include h

theorem child?_around : (slot.around child).child? step = some child := by
  obtain ⟨name, members, rfl, -, rfl⟩ | ⟨position, items, rfl, -, rfl⟩ := slot?_eq_some h
  · change Members.get? (Members.put ..) name = _
    simp [Members.get?_put]
  · change (List.set ..)[position]? = _
    simp [lt_length_padTo]

theorem kind_around_ne_null : (slot.around child).kind ≠ .null := by
  obtain ⟨name, members, rfl, -, rfl⟩ | ⟨position, items, rfl, -, rfl⟩ := slot?_eq_some h <;>
    exact nofun

theorem child?_around_of_ne {other : Step} (hn : other ≠ step) {value : Json}
    (hc : document.child? other = some value) :
    (slot.around child).child? other = some value := by
  obtain ⟨name, members, rfl, hm, rfl⟩ | ⟨position, items, rfl, hi, rfl⟩ := slot?_eq_some h
  · cases other with
    | key key =>
      rw [child?_key_of_orEmptyObject key hm] at hc
      change Members.get? (Members.put ..) key = _
      rw [Members.get?_put, if_neg fun he => hn (congrArg Step.key he), hc]
    | index position =>
      obtain ⟨rfl, rfl⟩ | rfl := orEmptyObject_eq hm <;> nomatch hc
  · cases other with
    | key key => obtain ⟨rfl, rfl⟩ | rfl := orEmptyList_eq hi <;> nomatch hc
    | index index =>
      rw [child?_index_of_orEmptyList index hi] at hc
      have hlt := (List.getElem?_eq_some_iff.mp hc).1
      change (List.set ..)[index]? = _
      rw [List.getElem?_set_ne fun he => hn (congrArg Step.index he.symm), padTo,
        List.getElem?_append_left hlt, hc]

theorem admits_around : (slot.around child).Admits step := by
  obtain ⟨name, members, rfl, -, rfl⟩ | ⟨position, items, rfl, -, rfl⟩ := slot?_eq_some h
  · exact ⟨_, rfl⟩
  · exact ⟨_, rfl, .inl (by simpa using lt_length_padTo position items)⟩

end Around

namespace Location

variable {location : Location} {document : Json}

theorem opens_write_getD (location : Location) (node : Option Json) :
    Opens .write location (some (node.getD .null)) ↔ Opens .write location node := by
  rcases node with _ | value
  · cases location with
    | nil => exact Iff.rfl
    | cons step rest => cases step <;> exact Iff.rfl
  · exact Iff.rfl

theorem opens_write_cons {step : Step} {rest : Location} :
    Opens .write (step :: rest) (some document) ↔
      document.Admits step ∧ Opens .write rest (some ((document.child? step).getD .null)) := by
  rw [opens_write_getD]
  exact Iff.rfl

/-- An assignment along an open way happens in the slot of the first step. -/
theorem Opens.cons_assign {step : Step} {rest : Location}
    (h : Opens .write (step :: rest) (some document)) (value : Json) :
    ∃ slot, document.slot? step = some slot ∧ Opens .write rest (some slot.child) ∧
      slot.child = (document.child? step).getD .null ∧
      assign value (step :: rest) document = slot.fill (assign value rest slot.child) := by
  obtain ⟨ha, hr⟩ := opens_write_cons.mp h
  obtain ⟨slot, hs, hc⟩ := ha.exists_slot
  exact ⟨slot, hs, hc ▸ hr, hc, assign_cons value hs rest⟩

theorem Opens.assign_fault (h : Opens .write location (some document)) (value : Json) :
    (location.assign value document).fault = none := by
  induction location generalizing document with
  | nil => rfl
  | cons step rest ih =>
    obtain ⟨slot, -, hr, -, ha⟩ := h.cons_assign value
    rw [ha]
    exact ih hr

theorem Opens.assign_eq (h : Opens .write location (some document)) (value : Json) :
    location.assign value document = ⟨(location.assign value document).document, none⟩ := by
  rw [← h.assign_fault value]

theorem Opens.get?_assign (h : Opens .write location (some document)) (value : Json) :
    location.get? (location.assign value document).document = some value := by
  induction location generalizing document with
  | nil => rfl
  | cons step rest ih =>
    obtain ⟨slot, hs, hr, -, ha⟩ := h.cons_assign value
    rw [ha, get?_cons, Slot.fill, child?_around hs]
    exact ih hr

theorem Opens.get?_assign_of_not_prefix {other : Location} {found : Json}
    (h : Opens .write location (some document)) (value : Json) (hb : ¬ location <+: other)
    (ha : ¬ other <+: location) (hf : other.get? document = some found) :
    other.get? (location.assign value document).document = some found := by
  induction location generalizing document other with
  | nil => exact absurd List.nil_prefix hb
  | cons step rest ih =>
    obtain ⟨slot, hs, hr, hc, he⟩ := h.cons_assign value
    rw [he, Slot.fill]
    cases other with
    | nil => exact absurd List.nil_prefix ha
    | cons first others =>
      obtain ⟨child, hfirst, hf⟩ := Option.bind_eq_some_iff.mp hf
      by_cases hn : first = step
      · subst hn
        rw [hfirst] at hc
        rw [get?_cons, child?_around hs]
        refine ih hr (fun hp => hb ?_) (fun hp => ha ?_) (hc ▸ hf)
        · exact List.cons_prefix_cons.mpr ⟨rfl, hp⟩
        · exact List.cons_prefix_cons.mpr ⟨rfl, hp⟩
      · rw [get?_cons, child?_around_of_ne hs _ hn hfirst]
        exact hf

theorem Opens.kind_assign_ne_null (h : Opens .write location (some document))
    (hl : location ≠ []) (value : Json) :
    (location.assign value document).document.kind ≠ .null := by
  cases location with
  | nil => exact absurd rfl hl
  | cons step rest =>
    obtain ⟨slot, hs, -, -, ha⟩ := h.cons_assign value
    rw [ha]
    exact kind_around_ne_null hs _

theorem endsInFilter_path (location : Location) : location.path.endsInFilter = false := by
  rw [Path.endsInFilter, path, List.getLast?_map]
  cases location.getLast? with
  | none => rfl
  | some step => cases step <;> rfl

theorem Opens.assignAll_singleton (h : Opens .write location (some document)) (value : Json) :
    assignAll value [location] document = ⟨(location.assign value document).document, none⟩ := by
  rw [assignAll_cons, h.assign_eq value]
  rfl

theorem Opens.write_render (h : Opens .write location (some document))
    (hw : location.path.WellFormed) (hd : document.kind ≠ .null) (value : Json) :
    document.write location.render value =
      ⟨(location.assign value document).document, .ok 1⟩ := by
  rw [Json.write, parse_render hw]
  exact Path.write_of_locations_ok hd hw.1 (endsInFilter_path location) (locations_path h)
    (h.assignAll_singleton value)

end Location

/-- Writes through texts one after the other, each at a single location, and the document after
the last one. -/
inductive Json.WritesInTurn : List (String × Json) → Json → Json → Prop where
  | nil (document : Json) : WritesInTurn [] document document
  | cons {text : String} {value document next result : Json} {rest : List (String × Json)} :
      document.write text value = ⟨next, .ok 1⟩ → WritesInTurn rest next result →
        WritesInTurn ((text, value) :: rest) document result

end DocPath
