import DocPath.Decimal.Notation

/-! # JSON values

A JSON value is null, a boolean, a number, a string, a list or an object. An object is its members
in insertion order; `get?` and `put` work on the first member with a key, and a value is well
formed when no object in it repeats a key.
-/

namespace DocPath

/-- A JSON number: an integer, or a double for all that is written with a fraction or
an exponent. -/
inductive Number where
  | int (value : Int)
  | double (value : Binary64)
deriving DecidableEq

def Number.text : Number → String
  | .int value => toString value
  | .double value => value.text

inductive Json where
  | null
  | bool (value : Bool)
  | number (value : Number)
  | string (value : String)
  | list (items : List Json)
  | object (members : List (String × Json))

/-- The members of an object, in insertion order. -/
abbrev Members := List (String × Json)

inductive Kind where
  | null
  | boolean
  | number
  | string
  | list
  | object
deriving DecidableEq

def Kind.describe : Kind → String
  | .null => "null"
  | .boolean => "a boolean"
  | .number => "a number"
  | .string => "a string"
  | .list => "a list"
  | .object => "an object"

namespace Members

variable (members : Members)

def keys : List String :=
  members.map Prod.fst

def get? (key : String) : Option Json :=
  List.lookup key members

/-- Replaces the value of the first member with this key, or adds the member last. -/
def put (key : String) (value : Json) : Members → Members
  | [] => [(key, value)]
  | (k, v) :: rest => if key = k then (k, value) :: rest else (k, v) :: put key value rest

@[simp] theorem get?_nil (key : String) : get? [] key = none := rfl

theorem get?_cons (key k : String) (v : Json) (rest : Members) :
    get? ((k, v) :: rest) key = if key = k then some v else get? rest key := by
  by_cases h : key = k
  · simp [get?, h]
  · simp [get?, List.lookup_cons, h, beq_eq_false_iff_ne.2 h]

theorem mem_of_get? {members : Members} {key : String} {value : Json}
    (h : members.get? key = some value) : (key, value) ∈ members := by
  induction members with
  | nil => simp at h
  | cons m rest ih =>
    obtain ⟨k, v⟩ := m
    rw [get?_cons] at h
    split at h
    · simp_all
    · exact List.mem_cons_of_mem _ (ih h)

theorem get?_of_mem {members : Members} {key : String} {value : Json} (hn : members.keys.Nodup)
    (h : (key, value) ∈ members) : members.get? key = some value := by
  induction members with
  | nil => simp at h
  | cons m rest ih =>
    obtain ⟨k, v⟩ := m
    obtain ⟨hk, hn⟩ := List.nodup_cons.mp hn
    rw [get?_cons]
    rcases List.mem_cons.mp h with he | hr
    · cases he
      simp
    · rw [if_neg, ih hn hr]
      rintro rfl
      exact hk (List.mem_map.mpr ⟨_, hr, rfl⟩)

theorem get?_put (key other : String) (value : Json) :
    (put key value members).get? other =
      if other = key then some value else members.get? other := by
  induction members with
  | nil => simp [put, get?_cons]
  | cons m rest ih =>
    obtain ⟨k, v⟩ := m
    simp only [put]
    split
    · subst key
      by_cases h : other = k <;> simp [get?_cons, h]
    · next hk =>
      by_cases h : other = k
      · subst h
        simp [get?_cons, Ne.symm hk]
      · simp [get?_cons, h, ih]

theorem keys_put (key : String) (value : Json) :
    (put key value members).keys =
      if key ∈ members.keys then members.keys else members.keys ++ [key] := by
  induction members with
  | nil => simp [put, keys]
  | cons m rest ih =>
    obtain ⟨k, v⟩ := m
    simp only [put]
    split
    · simp_all [keys]
    · next hk =>
      by_cases hmem : key ∈ rest.map Prod.fst <;> simp_all [keys]

end Members

namespace Json

instance : Inhabited Json := ⟨.null⟩

def kind : Json → Kind
  | .null => .null
  | .bool _ => .boolean
  | .number _ => .number
  | .string _ => .string
  | .list _ => .list
  | .object _ => .object

def member? (key : String) : Json → Option Json
  | .object members => Members.get? members key
  | _ => none

def item? (index : Nat) : Json → Option Json
  | .list items => items[index]?
  | _ => none

def isScalar : Json → Bool
  | .list _ | .object _ => false
  | _ => true

theorem sizeOf_item_lt {item : Json} {items : List Json} (h : item ∈ items) :
    sizeOf item < sizeOf (list items) := by
  have := List.sizeOf_lt_of_mem h
  simp only [list.sizeOf_spec]
  omega

theorem sizeOf_member_lt {m : String × Json} {members : Members} (h : m ∈ members) :
    sizeOf m.2 < sizeOf (object members) := by
  have := List.sizeOf_lt_of_mem h
  obtain ⟨key, value⟩ := m
  simp only [object.sizeOf_spec, Prod.mk.sizeOf_spec] at this ⊢
  omega

/-- Induction on a value in which every element of a list and every member of an object may
be used. -/
@[elab_as_elim, induction_eliminator]
theorem induct {motive : Json → Prop} (null : motive .null) (bool : ∀ value, motive (.bool value))
    (number : ∀ value, motive (.number value)) (string : ∀ value, motive (.string value))
    (list : ∀ items, (∀ item ∈ items, motive item) → motive (.list items))
    (object : ∀ members, (∀ m ∈ members, motive m.2) → motive (.object members)) :
    ∀ value, motive value
  | .null => null
  | .bool value => bool value
  | .number value => number value
  | .string value => string value
  | .list items => list items fun item _ => induct null bool number string list object item
  | .object members => object members fun m _ => induct null bool number string list object m.2
termination_by value => sizeOf value
decreasing_by
  · exact sizeOf_item_lt ‹_›
  · exact sizeOf_member_lt ‹_›

/-- No object in the value, at any depth, has the same key twice. -/
inductive WellFormed : Json → Prop where
  | null : WellFormed .null
  | bool (value : Bool) : WellFormed (.bool value)
  | number (value : Number) : WellFormed (.number value)
  | string (value : String) : WellFormed (.string value)
  | list {items : List Json} : (∀ item ∈ items, WellFormed item) → WellFormed (.list items)
  | object {members : Members} :
      members.keys.Nodup → (∀ m ∈ members, WellFormed m.2) → WellFormed (.object members)

end Json

end DocPath
