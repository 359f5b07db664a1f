import DocPath.Write

/-! # Assignments below one step

Assignments at several locations run up to the first fault. When all of the locations begin with
the same step, they are the assignments below that step, done to the member or element there; the
rest of the object or list stays, and is made once if it was null or too short.
-/

namespace DocPath

theorem Members.put_put (key : String) (first last : Json) (members : Members) :
    put key last (put key first members) = put key last members := by
  induction members with
  | nil => simp [put]
  | cons m rest ih =>
    obtain ⟨k, v⟩ := m
    simp only [put]
    split
    · next h => simp [put, h]
    · next h => simp [put, h, ih]

section Padding

variable {position : Nat} {items : List Json}

theorem padTo_of_lt (h : position < items.length) : padTo position items = items := by
  simp [padTo, Nat.sub_eq_zero_of_le (Nat.succ_le_of_lt h)]

theorem length_padTo (position : Nat) (items : List Json) :
    (padTo position items).length = max items.length (position + 1) := by
  simp only [padTo, List.length_append, List.length_replicate]
  omega

theorem lt_length_padTo (position : Nat) (items : List Json) :
    position < (padTo position items).length := by
  rw [length_padTo]
  omega

theorem getElem?_padTo (position index : Nat) (items : List Json) :
    (padTo position items)[index]? =
      if index < items.length then items[index]?
      else if index ≤ position then some .null else none := by
  unfold padTo
  split
  · next h => rw [List.getElem?_append_left h]
  · next h =>
    rw [List.getElem?_append_right (Nat.not_lt.mp h), List.getElem?_replicate]
    congr 1
    apply propext
    omega

theorem getD_padTo (position index : Nat) (items : List Json) :
    (padTo position items)[index]?.getD .null = items[index]?.getD .null := by
  rw [getElem?_padTo]
  split
  · rfl
  · next h =>
    rw [List.getElem?_eq_none (Nat.not_lt.mp h)]
    split <;> rfl

theorem set_padTo (h : items.length ≤ position) (value : Json) :
    (padTo position items).set position value =
      items ++ List.replicate (position - items.length) .null ++ [value] := by
  have hs : position + 1 - items.length = position - items.length + 1 := by omega
  rw [padTo, hs, List.replicate_succ', ← List.append_assoc]
  rw [List.set_append_right _ _ (by simp; omega)]
  simp [Nat.add_sub_cancel' h]

end Padding

def Assigned.andThen (first : Assigned) (next : Json → Assigned) : Assigned :=
  match first with
  | ⟨document, none⟩ => next document
  | stopped => stopped

@[simp] theorem Assigned.andThen_none (document : Json) (next : Json → Assigned) :
    andThen ⟨document, none⟩ next = next document := rfl

@[simp] theorem Assigned.andThen_some (document : Json) (fault : TargetFault)
    (next : Json → Assigned) : andThen ⟨document, some fault⟩ next = ⟨document, some fault⟩ := rfl

/-- What an assignment finds one step inside a document: the value there, or null where it creates
one, and the document around another value in its place. -/
structure Slot where
  child : Json
  around : Json → Json

def Slot.fill (slot : Slot) (inner : Assigned) : Assigned :=
  ⟨slot.around inner.document, inner.fault⟩

/-- The slot of a step; there is none where the document has no place for the step. -/
def Json.slot? (document : Json) : Step → Option Slot
  | .key name =>
    match document.orEmptyObject with
    | .object members =>
      some ⟨(Members.get? members name).getD .null,
        fun child => .object (Members.put name child members)⟩
    | _ => none
  | .index position =>
    match document.orEmptyList with
    | .list items =>
      if items.length ≤ position ∧ positionLimit ≤ position + 1 then none
      else some ⟨items[position]?.getD .null,
        fun child => .list ((padTo position items).set position child)⟩
    | _ => none

theorem slot?_key {document : Json} {members : Members} (name : String)
    (h : document.orEmptyObject = .object members) :
    document.slot? (.key name) = some ⟨(members.get? name).getD .null,
      fun child => .object (Members.put name child members)⟩ := by
  simp [Json.slot?, h]

theorem slot?_index {document : Json} {items : List Json} {position : Nat}
    (h : document.orEmptyList = .list items)
    (hp : position < items.length ∨ position + 1 < positionLimit) :
    document.slot? (.index position) = some ⟨items[position]?.getD .null,
      fun child => .list ((padTo position items).set position child)⟩ := by
  have hn : ¬ (items.length ≤ position ∧ positionLimit ≤ position + 1) := by omega
  simp only [Json.slot?, h, if_neg hn]

theorem slot?_around {document : Json} {step : Step} {slot : Slot}
    (h : document.slot? step = some slot) (child : Json) :
    (slot.around child).slot? step = some ⟨child, slot.around⟩ := by
  cases step with
  | key name =>
    simp only [Json.slot?] at h
    split at h
    · obtain rfl := Option.some.inj h
      rw [slot?_key name rfl]
      simp [Members.get?_put, Members.put_put]
    · simp at h
  | index position =>
    simp only [Json.slot?] at h
    split at h
    · split at h
      · simp at h
      · obtain rfl := Option.some.inj h
        have hlt := lt_length_padTo position ‹List Json›
        rw [slot?_index rfl (.inl (by simpa using hlt))]
        simp [padTo_of_lt, hlt]
    · simp at h

namespace Location

variable (value : Json)

theorem assign_cons {document : Json} {step : Step} {slot : Slot}
    (h : document.slot? step = some slot) (rest : Location) :
    assign value (step :: rest) document = slot.fill (assign value rest slot.child) := by
  cases step with
  | key name =>
    simp only [Json.slot?] at h
    split at h
    · next hd =>
      obtain rfl := Option.some.inj h
      simp only [assign, hd, Slot.fill]
    · simp at h
  | index position =>
    simp only [Json.slot?] at h
    split at h
    · next hd =>
      split at h
      · simp at h
      · next hp =>
        obtain rfl := Option.some.inj h
        simp only [assign, hd, if_neg hp, Slot.fill, getD_padTo]
    · simp at h

theorem assignAll_cons (location : Location) (rest : List Location) (document : Json) :
    assignAll value (location :: rest) document =
      (location.assign value document).andThen (assignAll value rest) := by
  rcases h : location.assign value document with ⟨next, _ | fault⟩ <;> simp [assignAll, h]

theorem assignAll_singleton (location : Location) (document : Json) :
    assignAll value [location] document = location.assign value document := by
  rw [assignAll_cons]
  rcases location.assign value document with ⟨next, _ | fault⟩ <;> rfl

theorem assignAll_append (front back : List Location) (document : Json) :
    assignAll value (front ++ back) document =
      (assignAll value front document).andThen (assignAll value back) := by
  induction front generalizing document with
  | nil => rfl
  | cons location front ih =>
    rw [List.cons_append, assignAll_cons, assignAll_cons]
    rcases location.assign value document with ⟨next, _ | fault⟩
    · exact ih next
    · rfl

theorem assignAll_map_cons {document : Json} {step : Step} {slot : Slot}
    (h : document.slot? step = some slot) {locations : List Location} (hn : locations ≠ []) :
    assignAll value (locations.map (step :: ·)) document =
      slot.fill (assignAll value locations slot.child) := by
  induction locations generalizing document slot with
  | nil => exact absurd rfl hn
  | cons location rest ih =>
    rw [List.map_cons, assignAll_cons, assignAll_cons, assign_cons value h]
    rcases assign value location slot.child with ⟨child, _ | fault⟩
    · cases rest with
      | nil => rfl
      | cons next rest => exact ih (slot?_around h child) (by simp)
    · rfl

end Location

end DocPath
