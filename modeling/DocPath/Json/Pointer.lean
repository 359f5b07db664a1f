import DocPath.Decimal.Digits
import DocPath.Json.Basic
import DocPath.Text.Split

/-! # JSON pointers

A pointer is empty or a sequence of tokens with a slash in front of each. A token writes
`~0` for a tilde and `~1` for a slash; it names a member of an object, and an element of a list when
it is a decimal without a leading zero.
-/

namespace DocPath

namespace Pointer

def escape (key : List Char) : List Char :=
  key.flatMap fun c => if c = '~' then ['~', '0'] else if c = '/' then ['~', '1'] else [c]

def unescape : List Char → List Char
  | '~' :: '0' :: rest => '~' :: unescape rest
  | '~' :: '1' :: rest => '/' :: unescape rest
  | c :: rest => c :: unescape rest
  | [] => []

theorem unescape_cons_of_ne {c : Char} (rest : List Char) (h : c ≠ '~') :
    unescape (c :: rest) = c :: unescape rest := by
  rw [unescape] <;> simp_all

theorem unescape_escape (key : List Char) : unescape (escape key) = key := by
  induction key with
  | nil => rfl
  | cons c rest ih =>
    simp only [escape, List.flatMap_cons] at ih ⊢
    split
    · subst c
      simp [unescape, ih]
    · split
      · subst c
        simp [unescape, ih]
      · next h _ => simp [unescape_cons_of_ne _ h, ih]

theorem slash_not_mem_escape (key : List Char) : '/' ∉ escape key := by
  simp only [escape, List.mem_flatMap, not_exists, not_and]
  intro c _
  split
  · decide
  · split
    · decide
    · next h => simpa using Ne.symm h

/-- The position that a token names: decimal digits, without a leading zero. -/
def index? (token : List Char) : Option Nat :=
  if isDigits token && (token.length == 1 || token.head? != some '0') then some (digitsValue token)
  else none

end Pointer

namespace Json

def atToken? (value : Json) (token : List Char) : Option Json :=
  match value with
  | .object members => Members.get? members (String.ofList (Pointer.unescape token))
  | .list items => (Pointer.index? token).bind (items[·]?)
  | _ => none

def atPointer? (value : Json) (pointer : String) : Option Json :=
  match pointer.toList with
  | [] => some value
  | '/' :: tokens => (Text.splitAt '/' tokens).foldlM atToken? value
  | _ => none

end Json

end DocPath
