import DocPath.Json.Basic

/-! # Writing JSON text

The compact text of a value has no white space; the indented text has one element or member on each
line. Strings escape the quote, the backslash and the control characters, and nothing else.
-/

namespace DocPath

namespace JsonText

def controlEscape (c : Char) : List Char :=
  let hex := Nat.toDigits 16 c.toNat
  '\\' :: 'u' :: (List.replicate (4 - hex.length) '0' ++ hex)

def escapeChar (c : Char) : List Char :=
  if c = '"' then ['\\', '"']
  else if c = '\\' then ['\\', '\\']
  else if c = '\x08' then ['\\', 'b']
  else if c = '\x0c' then ['\\', 'f']
  else if c = '\n' then ['\\', 'n']
  else if c = '\r' then ['\\', 'r']
  else if c = '\t' then ['\\', 't']
  else if c.toNat < 0x20 then controlEscape c
  else [c]

def quote (s : String) : String :=
  String.ofList ('"' :: (s.toList.flatMap escapeChar ++ ['"']))

def lineBreak (depth : Nat) : String :=
  String.ofList ('\n' :: List.replicate (2 * depth) ' ')

/-- The parts on lines of their own between two brackets, or the brackets alone when there
are none. -/
def block (depth : Nat) (opening closing : String) (parts : List String) : String :=
  if parts.isEmpty then opening ++ closing
  else opening ++ lineBreak (depth + 1) ++ ("," ++ lineBreak (depth + 1)).intercalate parts ++
    lineBreak depth ++ closing

end JsonText

namespace Json

open JsonText

def compact : Json → String
  | .null => "null"
  | .bool value => if value then "true" else "false"
  | .number value => value.text
  | .string value => quote value
  | .list items => "[" ++ ",".intercalate (items.map compact) ++ "]"
  | .object members =>
    "\x7b" ++ ",".intercalate (members.map fun m => quote m.1 ++ ":" ++ compact m.2) ++ "\x7d"
termination_by value => sizeOf value
decreasing_by
  · exact sizeOf_item_lt ‹_›
  · exact sizeOf_member_lt ‹_›

def indentedAt (depth : Nat) : Json → String
  | .list items => block depth "[" "]" (items.map (indentedAt (depth + 1)))
  | .object members =>
    block depth "\x7b" "\x7d" (members.map fun m => quote m.1 ++ ": " ++ indentedAt (depth + 1) m.2)
  | value => value.compact
termination_by value => sizeOf value
decreasing_by
  · exact sizeOf_item_lt ‹_›
  · exact sizeOf_member_lt ‹_›

def indented (value : Json) : String :=
  value.indentedAt 0

end Json

end DocPath
