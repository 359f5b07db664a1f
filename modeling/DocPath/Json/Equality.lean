import DocPath.Json.Basic

/-! # Equality of JSON values

Two values are compared part by part, which decides whether they are equal. Objects with the same
members in different orders differ.
-/

namespace DocPath.Json

mutual

def sameValue : Json → Json → Bool
  | .null, .null => true
  | .bool a, .bool b => a == b
  | .number a, .number b => a == b
  | .string a, .string b => a == b
  | .list a, .list b => sameItems a b
  | .object a, .object b => sameMembers a b
  | _, _ => false

def sameItems : List Json → List Json → Bool
  | [], [] => true
  | a :: as, b :: bs => sameValue a b && sameItems as bs
  | _, _ => false

def sameMembers : List (String × Json) → List (String × Json) → Bool
  | [], [] => true
  | (k, a) :: as, (l, b) :: bs => k == l && sameValue a b && sameMembers as bs
  | _, _ => false

end

theorem sameItems_iff {as bs : List Json}
    (ih : ∀ a ∈ as, ∀ b, sameValue a b = true ↔ a = b) : sameItems as bs = true ↔ as = bs := by
  induction as generalizing bs with
  | nil => cases bs <;> simp [sameItems]
  | cons a as ihs =>
    cases bs with
    | nil => simp [sameItems]
    | cons b bs =>
      simp [sameItems, ih a (List.mem_cons_self ..),
        ihs fun x hx => ih x (List.mem_cons_of_mem _ hx)]

theorem sameMembers_iff {as bs : List (String × Json)}
    (ih : ∀ m ∈ as, ∀ b, sameValue m.2 b = true ↔ m.2 = b) :
    sameMembers as bs = true ↔ as = bs := by
  induction as generalizing bs with
  | nil => cases bs <;> simp [sameMembers]
  | cons m as ihs =>
    obtain ⟨k, a⟩ := m
    cases bs with
    | nil => simp [sameMembers]
    | cons n bs =>
      obtain ⟨l, b⟩ := n
      simp [sameMembers, ih (k, a) (List.mem_cons_self ..),
        ihs fun x hx => ih x (List.mem_cons_of_mem _ hx)]

theorem sameValue_iff (a b : Json) : sameValue a b = true ↔ a = b := by
  induction a generalizing b with
  | null => cases b <;> simp [sameValue]
  | bool => cases b <;> simp [sameValue]
  | number => cases b <;> simp [sameValue]
  | string => cases b <;> simp [sameValue]
  | list items ih => cases b <;> simp [sameValue, sameItems_iff ih]
  | object members ih => cases b <;> simp [sameValue, sameMembers_iff ih]

instance : DecidableEq Json := fun a b => decidable_of_iff _ (sameValue_iff a b)

end DocPath.Json
