/-! # Paths

A path is a sequence of segments, each of which leads from one value to some values inside it. Its
text is such as `friends[{name=Ann}].addresses[0].city`.
-/

namespace DocPath

/-- One test of a filter: a field, possibly dotted, and the text expected there. -/
structure Constraint where
  key : String
  expected : String
deriving DecidableEq, Repr

inductive Segment where
  | field (name : String)
  | index (position : Nat)
  /-- Every element of a list, or for writing the place after the last one. -/
  | append
  /-- The elements of a list that satisfy every constraint. -/
  | filter (constraints : List Constraint)
deriving DecidableEq, Repr

abbrev Path := List Segment

def Constraint.chars (c : Constraint) : List Char :=
  '\x7b' :: (c.key.toList ++ '=' :: (c.expected.toList ++ ['\x7d']))

def Segment.chars : Segment → List Char
  | .field name => name.toList
  | .index position => '[' :: (Nat.toDigits 10 position ++ [']'])
  | .append => ['[', ']']
  | .filter constraints =>
    '[' :: (List.intercalate [','] (constraints.map Constraint.chars) ++ [']'])

def Segment.charsAfter : Segment → List Char
  | .field name => '.' :: name.toList
  | segment => segment.chars

namespace Path

def chars : Path → List Char
  | [] => []
  | first :: rest => first.chars ++ rest.flatMap Segment.charsAfter

def render (path : Path) : String :=
  String.ofList path.chars

/-- Whether the last segment is a filter, so that the path names elements and no place
inside them. -/
def endsInFilter (path : Path) : Bool :=
  match path.getLast? with
  | some (.filter _) => true
  | _ => false

end Path

end DocPath
