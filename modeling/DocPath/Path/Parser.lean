import DocPath.Decimal.Digits
import DocPath.Path.Fault
import DocPath.Text.Blank
import DocPath.Text.Reader

/-! # Reading paths

The text of a path is a sequence of tokens with dots between them. A token is a field, which may be
missing, and groups in brackets: an empty group appends, digits are a position, and constraints in
braces are a filter. Brackets are checked over the whole text before anything else.
-/

namespace DocPath

namespace PathText

/-- The depth of brackets at the end of a text that starts at `depth`, `offset` bytes into the
whole. -/
def bracketDepth (offset depth : Nat) : List Char → Except TextFault Nat
  | [] => .ok depth
  | c :: rest =>
    if c = '[' then bracketDepth (offset + c.utf8Size) (depth + 1) rest
    else if c = ']' then
      match depth with
      | 0 => .error (.unmatchedBracket offset)
      | depth + 1 => bracketDepth (offset + c.utf8Size) depth rest
    else bracketDepth (offset + c.utf8Size) depth rest

def checkBrackets (text : List Char) : Except TextFault Unit :=
  match bracketDepth 0 0 text with
  | .error fault => .error fault
  | .ok 0 => .ok ()
  | .ok _ => .error .unclosedBracket

def depthAfter (depth : Nat) (c : Char) : Nat :=
  if c = '[' then depth + 1 else if c = ']' then depth - 1 else depth

/-- The parts of a text between the dots outside of brackets; there is always at least one. -/
def tokensAt (depth : Nat) : List Char → List (List Char)
  | [] => [[]]
  | c :: rest =>
    if c = '.' ∧ depth = 0 then [] :: tokensAt 0 rest
    else match tokensAt (depthAfter depth c) rest with
      | [] => [[c]]
      | token :: tokens => (c :: token) :: tokens

def tokens (text : List Char) : List (List Char) :=
  tokensAt 0 text

/-- The text up to the bracket that closes a group and the text after it, read inside the group at
the given depth of inner groups. -/
def closeGroup? (depth : Nat) : List Char → Option (List Char × List Char)
  | [] => none
  | c :: rest =>
    if c = '[' then (closeGroup? (depth + 1) rest).map fun p => (c :: p.1, p.2)
    else if c = ']' then
      match depth with
      | 0 => some ([], rest)
      | depth + 1 => (closeGroup? depth rest).map fun p => (c :: p.1, p.2)
    else (closeGroup? depth rest).map fun p => (c :: p.1, p.2)

theorem closeGroup?_eq_append {depth : Nat} {text inner after : List Char}
    (h : closeGroup? depth text = some (inner, after)) : text = inner ++ ']' :: after := by
  induction text generalizing depth inner with
  | nil => simp [closeGroup?] at h
  | cons c rest ih =>
    simp only [closeGroup?] at h
    split at h
    · obtain ⟨p, hp, he⟩ := Option.map_eq_some_iff.1 h
      simp only [Prod.mk.injEq] at he
      obtain ⟨rfl, rfl⟩ := he
      simp [ih hp]
    · split at h
      · next hc =>
        split at h
        · simp_all
        · obtain ⟨p, hp, he⟩ := Option.map_eq_some_iff.1 h
          simp only [Prod.mk.injEq] at he
          obtain ⟨rfl, rfl⟩ := he
          simp [ih hp]
      · obtain ⟨p, hp, he⟩ := Option.map_eq_some_iff.1 h
        simp only [Prod.mk.injEq] at he
        obtain ⟨rfl, rfl⟩ := he
        simp [ih hp]

theorem length_closeGroup?_lt {depth : Nat} {text inner after : List Char}
    (h : closeGroup? depth text = some (inner, after)) : after.length < text.length := by
  rw [closeGroup?_eq_append h]
  simp only [List.length_append, List.length_cons]
  omega

def isSeparator (c : Char) : Bool :=
  c = '=' || c = ':'

/-- The constraint between two braces. All characters count, blanks too. -/
def constraint (predicate : List Char) : Except TextFault Constraint :=
  match predicate.dropWhile (!isSeparator ·) with
  | [] => .error (.missingSeparator (String.ofList predicate))
  | _ :: expected =>
    let key := predicate.takeWhile (!isSeparator ·)
    if key.isEmpty then .error (.emptyKey (String.ofList predicate))
    else .ok ⟨String.ofList key, String.ofList expected⟩

/-- The constraints of a filter, read from `text` to the end of `group`: each in braces, with blanks
around it and a comma between two of them. -/
def constraints (group : List Char) (text : List Char) : Except TextFault (List Constraint) :=
  match h₁ : text.dropWhile isBlank with
  | '\x7b' :: inside =>
    match h₂ : inside.dropWhile (· ≠ '\x7d') with
    | [] => .error (.unclosedBrace (String.ofList group))
    | _ :: after => do
      let first ← constraint (inside.takeWhile (· ≠ '\x7d'))
      match h₃ : after.dropWhile isBlank with
      | [] => return [first]
      | ',' :: rest =>
        have := length_lt_of_dropWhile h₁
        have := length_lt_of_dropWhile h₂
        have := length_lt_of_dropWhile h₃
        return first :: (← constraints group rest)
      | c :: _ => throw (.unexpectedBetween c (String.ofList group))
  | _ => .error (.braceExpected (String.ofList group))
termination_by text.length

def group (inner : List Char) : Except TextFault Segment :=
  if inner.isEmpty then .ok .append
  else if inner.all Char.isDigit then
    if digitsValue inner < positionLimit then .ok (.index (digitsValue inner))
    else .error (.indexOutOfRange (String.ofList inner))
  else if (inner.dropWhile isBlank).head? = some '\x7b' then (constraints inner inner).map .filter
  else .error (.notAnIndex (String.ofList inner))

def groups (token : List Char) (text : List Char) : Except TextFault Path :=
  match text with
  | [] => .ok []
  | '[' :: inside =>
    match h : closeGroup? 0 inside with
    | none => .error .unclosedBracket
    | some (inner, after) => do
      have := length_closeGroup?_lt h
      let first ← group inner
      return first :: (← groups token after)
  | rest => .error (.trailingText (String.ofList rest) (String.ofList token))
termination_by text.length

def token (text : List Char) : Except TextFault Path :=
  if text.isEmpty then .error .emptySegment
  else
    let field := text.takeWhile (· ≠ '[')
    let rest := groups text (text.dropWhile (· ≠ '['))
    if field.isEmpty then rest else rest.map (.field (String.ofList field) :: ·)

def read (text : List Char) : Except TextFault Path := do
  checkBrackets text
  return (← (tokens text).mapM token).flatten

end PathText

def Path.parse (text : String) : Except PathError Path :=
  if text.isEmpty then .error (.missing .path)
  else (PathText.read text.toList).mapError (.malformed text)

end DocPath
