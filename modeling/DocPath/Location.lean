import DocPath.Json.Pointer

/-! # Locations

A location is the sequence of steps from the root of a document to one place in it, which need not
exist yet. It is written in the style of paths and as a JSON pointer.
-/

namespace DocPath

inductive Step where
  | key (name : String)
  | index (position : Nat)
deriving DecidableEq, Repr

abbrev Location := List Step

def Json.child? (value : Json) : Step → Option Json
  | .key name => value.member? name
  | .index position => value.item? position

def Step.token : Step → List Char
  | .key name => Pointer.escape name.toList
  | .index position => Nat.toDigits 10 position

def Step.chars : Step → List Char
  | .key name => name.toList
  | .index position => '[' :: (Nat.toDigits 10 position ++ [']'])

def Step.charsAfter : Step → List Char
  | .key name => '.' :: name.toList
  | .index position => Step.chars (.index position)

namespace Location

def chars : Location → List Char
  | [] => []
  | first :: rest => first.chars ++ rest.flatMap Step.charsAfter

/-- The text of a location, such as `friends[0].name`. -/
def render (location : Location) : String :=
  String.ofList location.chars

def pointer (location : Location) : String :=
  String.ofList (location.flatMap fun step => '/' :: step.token)

def get? (location : Location) (document : Json) : Option Json :=
  location.foldlM Json.child? document

/-- The value at a location, found through its pointer. A key of digits then also finds an element
of a list, and a position a member of an object. -/
def find? (location : Location) (document : Json) : Option Json :=
  document.atPointer? location.pointer

@[simp] theorem get?_nil (document : Json) : get? [] document = some document := rfl

theorem get?_cons (step : Step) (rest : Location) (document : Json) :
    get? (step :: rest) document = (document.child? step).bind (get? rest) := rfl

theorem get?_append (front back : Location) (document : Json) :
    get? (front ++ back) document = (get? front document).bind (get? back) := by
  simp only [get?, List.foldlM_append]
  rfl

theorem get?_append_singleton (front : Location) (step : Step) (document : Json) :
    get? (front ++ [step]) document = (get? front document).bind (·.child? step) := by
  rw [get?_append]
  exact congrArg _ (funext fun value => Option.bind_fun_some (value.child? step))

end Location

end DocPath
