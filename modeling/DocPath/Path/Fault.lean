import DocPath.Location
import DocPath.Path.Basic

/-! # Faults of paths

What can be wrong with the text of a path, and with a path as the target of a write, and how
messages say it.
-/

namespace DocPath

inductive TextFault where
  /-- A closing bracket that nothing opens, after so many bytes of UTF-8. -/
  | unmatchedBracket (offset : Nat)
  | unclosedBracket
  | emptySegment
  | trailingText (rest token : String)
  | indexOutOfRange (group : String)
  | notAnIndex (group : String)
  | braceExpected (group : String)
  | unclosedBrace (group : String)
  | missingSeparator (predicate : String)
  | emptyKey (predicate : String)
  | unexpectedBetween (char : Char) (group : String)
deriving DecidableEq, Repr

inductive TargetFault where
  /-- The path names elements of a list and no place inside them. -/
  | elementWithoutKey
  | objectExpected (location : Location) (found : Kind)
  | listExpected (location : Location) (found : Kind)
  /-- A position so far past the end that too many nulls would have to fill the list. -/
  | tooMuchPadding (position : Nat) (location : Location)
  | cannotSetKey (key : String) (found : Kind)
  | cannotSetIndex (position : Nat) (found : Kind)
  | positionOutOfRange (position : Nat)
deriving DecidableEq

inductive Argument where
  | path
  | document
deriving DecidableEq, Repr

inductive PathError where
  | malformed (text : String) (fault : TextFault)
  | untargetable (path : Path) (fault : TargetFault)
  | missing (argument : Argument)
deriving DecidableEq

/-- Positions are counted in 64 bits. -/
abbrev positionLimit : Nat := UInt64.size

/-- The most nulls that one segment of a write may add in front of the value. -/
def maxPadding : Nat := 65536

def TextFault.message : TextFault → String
  | .unmatchedBracket offset => "unmatched `]` at " ++ toString offset
  | .unclosedBracket => "unclosed `[`"
  | .emptySegment => "empty segment"
  | .trailingText rest token => "unexpected `" ++ rest ++ "` after `]` in `" ++ token ++ "`"
  | .indexOutOfRange group => "index `" ++ group ++ "` is out of range"
  | .notAnIndex group => "index `" ++ group ++ "` is not a non-negative integer"
  | .braceExpected group => "expected `\x7b` in filter `[" ++ group ++ "]`"
  | .unclosedBrace group => "missing closing `\x7d` in filter `[" ++ group ++ "]`"
  | .missingSeparator predicate =>
    "predicate `\x7b" ++ predicate ++ "\x7d` has no `=` or `:` separator"
  | .emptyKey predicate => "predicate `\x7b" ++ predicate ++ "\x7d` has an empty key"
  | .unexpectedBetween char group =>
    "unexpected `" ++ String.singleton char ++ "` between predicates in `[" ++ group ++ "]`"

def Location.describe (location : Location) : String :=
  if location.isEmpty then "the document root" else "`" ++ location.render ++ "`"

def TargetFault.message : TargetFault → String
  | .elementWithoutKey => "found the element in this path, but assigning a value also needs a key"
  | .objectExpected location found =>
    "expected an object at " ++ location.describe ++ ", found " ++ found.describe
  | .listExpected location found =>
    "expected a list at " ++ location.describe ++ ", found " ++ found.describe
  | .tooMuchPadding position location =>
    "index " ++ toString position ++ " at `" ++ location.render ++
      "` would pad the list by more than " ++ toString maxPadding ++ " elements"
  | .cannotSetKey key found => "cannot set key `" ++ key ++ "` on " ++ found.describe
  | .cannotSetIndex position found =>
    "cannot set index " ++ toString position ++ " on " ++ found.describe
  | .positionOutOfRange position => "index " ++ toString position ++ " is out of range"

def Argument.name : Argument → String
  | .path => "path"
  | .document => "document"

def Argument.missingMessage (argument : Argument) : String :=
  "missing required argument: " ++ argument.name

def PathError.message : PathError → String
  | .malformed text fault => "invalid path syntax in `" ++ text ++ "`: " ++ fault.message
  | .untargetable path fault => "invalid target path `" ++ path.render ++ "`: " ++ fault.message
  | .missing argument => argument.missingMessage

end DocPath
