import DocPath.Json.Basic
import DocPath.Json.NumberText
import DocPath.Text.Reader

/-! # Reading JSON text

The JSON grammar, read by recursive descent. Lists and objects may nest `maxDepth` levels deep, a
repeated key replaces the value and keeps its first place, and a number that no double approximates
is refused.
-/

namespace DocPath

namespace JsonText

/-- How many levels of lists and objects a text may nest. -/
def maxDepth : Nat := 127

def isSpace (c : Char) : Bool :=
  c = ' ' || c = '\t' || c = '\n' || c = '\r'

def skipSpace (text : List Char) : List Char :=
  text.dropWhile isSpace

theorem length_skipSpace_le (text : List Char) : (skipSpace text).length ≤ text.length :=
  length_dropWhile_le isSpace text

def hexDigit? (c : Char) : Option Nat :=
  if '0' ≤ c ∧ c ≤ '9' then some (c.toNat - '0'.toNat)
  else if 'a' ≤ c ∧ c ≤ 'f' then some (c.toNat - 'a'.toNat + 10)
  else if 'A' ≤ c ∧ c ≤ 'F' then some (c.toNat - 'A'.toNat + 10)
  else none

def hexUnit : Reader Nat
  | a :: b :: c :: d :: rest =>
    match hexDigit? a, hexDigit? b, hexDigit? c, hexDigit? d with
    | some a, some b, some c, some d =>
      some ⟨((a * 16 + b) * 16 + c) * 16 + d, rest, by simp only [List.length_cons]; omega⟩
    | _, _, _, _ => none
  | _ => none

/-- The character that an escape with four digits writes. A high surrogate needs the escape of a low
one after it, and a low surrogate never comes first. -/
def unicodeEscape : Reader Char := fun text =>
  match hexUnit text with
  | none => none
  | some high =>
    if 0xDC00 ≤ high.value ∧ high.value ≤ 0xDFFF then none
    else if 0xD800 ≤ high.value ∧ high.value ≤ 0xDBFF then
      match h : high.rest with
      | '\\' :: 'u' :: after =>
        match hexUnit after with
        | none => none
        | some low =>
          if 0xDC00 ≤ low.value ∧ low.value ≤ 0xDFFF then
            let code := 0x10000 + (high.value - 0xD800) * 0x400 + (low.value - 0xDC00)
            some ⟨Char.ofNat code, low.rest, by
              have h₁ := low.rest_lt
              have h₂ := high.rest_lt
              rw [h] at h₂
              simp only [List.length_cons] at h₂
              omega⟩
          else none
      | _ => none
    else some (high.map Char.ofNat)

def escape : Reader Char
  | 'u' :: rest => (unicodeEscape rest).map (·.widen (by simp))
  | c :: rest =>
    let plain := fun char => some ⟨char, rest, by simp⟩
    if c = '"' ∨ c = '\\' ∨ c = '/' then plain c
    else if c = 'b' then plain '\x08'
    else if c = 'f' then plain '\x0c'
    else if c = 'n' then plain '\n'
    else if c = 'r' then plain '\r'
    else if c = 't' then plain '\t'
    else none
  | [] => none

/-- The characters of a string up to and including the closing quote, after those in `read`, the
last of them first. What is left is shorter than `whole`, of which `text` is an end. -/
def stringRest {whole : List Char} (read : List Char) (text : List Char)
    (le : text.length ≤ whole.length) : Option (Reading String whole) :=
  match text with
  | [] => none
  | c :: rest =>
    have lt : rest.length < whole.length := le
    if c = '"' then some ⟨String.ofList read.reverse, rest, lt⟩
    else if c = '\\' then
      match escape rest with
      | none => none
      | some r => stringRest (r.value :: read) r.rest (by have := r.rest_lt; omega)
    else if c.toNat < 0x20 then none
    else stringRest (c :: read) rest (by omega)
termination_by text.length
decreasing_by
  · have := r.rest_lt
    simp only [List.length_cons]
    omega
  · simp

def quoted : Reader String
  | '"' :: rest => stringRest [] rest (by simp)
  | _ => none

def number : Reader Number
  | [] => none
  | c :: rest =>
    if NumberText.isNumberChar c then
      match NumberText.read? (c :: rest.takeWhile NumberText.isNumberChar) with
      | none => none
      | some written => written.value?.map fun value =>
        ⟨value, rest.dropWhile NumberText.isNumberChar, Nat.lt_succ_of_le (length_dropWhile_le ..)⟩
    else none

def keyword (word : List Char) (value : Json) (nonempty : word ≠ []) : Reader Json := fun text =>
  if h : word <+: text then
    some ⟨value, text.drop word.length, by
      have h₁ := h.length_le
      have h₂ := List.length_pos_iff.2 nonempty
      rw [List.length_drop]
      omega⟩
  else none

def scalar : Reader Json := fun text =>
  match text.head? with
  | some 'n' => keyword ['n', 'u', 'l', 'l'] .null (by simp) text
  | some 't' => keyword ['t', 'r', 'u', 'e'] (.bool true) (by simp) text
  | some 'f' => keyword ['f', 'a', 'l', 's', 'e'] (.bool false) (by simp) text
  | some '"' => (quoted text).map (·.map .string)
  | _ => (number text).map (·.map .number)

/-- The rest of a sequence after one of its entries, with the entries in `read`, the last of
them first: white space and then either the closing character or a comma, white space and the
next entry. -/
def sequenceRest {α : Type} {whole : List Char} (entry : Reader α) (close : Char) (read : List α)
    (text : List Char) (le : text.length ≤ whole.length) : Option (Reading (List α) whole) :=
  match h : skipSpace text with
  | [] => none
  | c :: rest =>
    have lt : rest.length < text.length := by
      have := length_skipSpace_le text
      rw [h, List.length_cons] at this
      omega
    if c = close then some ⟨read.reverse, rest, by omega⟩
    else if c = ',' then
      match entry (skipSpace rest) with
      | none => none
      | some r =>
        have : r.rest.length < rest.length :=
          Nat.lt_of_lt_of_le r.rest_lt (length_skipSpace_le rest)
        sequenceRest entry close (r.value :: read) r.rest (by omega)
    else none
termination_by text.length

def sequence {α : Type} (entry : Reader α) (close : Char) : Reader (List α) := fun text =>
  match h : skipSpace text with
  | [] => none
  | c :: rest =>
    have le : (skipSpace text).length ≤ text.length := length_skipSpace_le text
    if c = close then some ⟨[], rest, by rw [h, List.length_cons] at le; omega⟩
    else
      match entry (skipSpace text) with
      | none => none
      | some r => sequenceRest entry close [r.value] r.rest (by have := r.rest_lt; omega)

def member {α : Type} (value : Reader α) : Reader (String × α) := fun text =>
  match quoted text with
  | none => none
  | some key =>
    match h : skipSpace key.rest with
    | ':' :: after =>
      (value (skipSpace after)).map fun r => ⟨(key.value, r.value), r.rest, by
        have h₁ := key.rest_lt
        have h₂ := length_skipSpace_le key.rest
        have h₃ := r.rest_lt
        have h₄ := length_skipSpace_le after
        rw [h, List.length_cons] at h₂
        omega⟩
    | _ => none

/-- The members of an object from those written, the last value of each key in the first place of
the key. -/
def ofWritten (written : List (String × Json)) : Members :=
  written.foldl (fun members m => members.put m.1 m.2) []

def value : Nat → Reader Json
  | 0 => scalar
  | depth + 1 => fun text =>
    match text with
    | '[' :: rest => (sequence (value depth) ']' rest).map fun r => (r.map .list).widen (by simp)
    | '{' :: rest =>
      (sequence (member (value depth)) '}' rest).map fun r =>
        (r.map (.object ∘ ofWritten)).widen (by simp)
    | text => scalar text

def readWhole {α : Type} (entry : Reader α) (text : String) : Option α :=
  match entry (skipSpace text.toList) with
  | none => none
  | some r => if (skipSpace r.rest).isEmpty then some r.value else none

def strings? (text : String) : Option (List (String × String)) :=
  readWhole (fun
    | '{' :: rest => (sequence (member quoted) '}' rest).map fun r => r.widen (by simp)
    | _ => none) text

end JsonText

def Json.parse? (text : String) : Option Json :=
  JsonText.readWhole (JsonText.value JsonText.maxDepth) text

end DocPath
