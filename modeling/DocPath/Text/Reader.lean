/-! # Readers

A reader takes a value off the front of a text. What it leaves is shorter than what it was given, so
a reader may be repeated until it fails or the text ends.
-/

namespace DocPath

/-- A value taken off the front of `text`, and the rest, which is shorter. -/
structure Reading (α : Type) (text : List Char) where
  value : α
  rest : List Char
  rest_lt : rest.length < text.length

/-- A reader answers `none` when the text does not start with what it reads. -/
abbrev Reader (α : Type) := (text : List Char) → Option (Reading α text)

namespace Reading

variable {α β : Type} {text : List Char}

def map (f : α → β) (r : Reading α text) : Reading β text :=
  ⟨f r.value, r.rest, r.rest_lt⟩

/-- Regards a reading of a text as one of a longer text that ends with it. -/
def widen {longer : List Char} (r : Reading α text) (h : text.length ≤ longer.length) :
    Reading α longer :=
  ⟨r.value, r.rest, Nat.lt_of_lt_of_le r.rest_lt h⟩

end Reading

theorem length_dropWhile_le (p : Char → Bool) (text : List Char) :
    (text.dropWhile p).length ≤ text.length :=
  (List.dropWhile_sublist p).length_le

theorem length_lt_of_dropWhile {p : Char → Bool} {text rest : List Char} {c : Char}
    (h : text.dropWhile p = c :: rest) : rest.length < text.length := by
  have := length_dropWhile_le p text
  rwa [h, List.length_cons] at this

end DocPath
