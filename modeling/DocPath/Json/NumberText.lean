import DocPath.Decimal.Digits
import DocPath.Json.Basic

/-! # Written numbers

The parts of a JSON number as it is written, and the number that they mean. A text without fraction
and exponent is an integer from `-2 ^ 63` to below `2 ^ 64`, and minus zero and everything else is a
double. A double is read in two roundings, of the digits and of their product with a power of ten,
so it may lie beside the nearest one.
-/

namespace DocPath

/-- The parts of a written number; the exponent is zero when it is not written. -/
structure NumberText where
  negative : Bool
  whole : List Char
  fraction : List Char
  exponent : Int
  /-- Whether there is neither a fraction nor an exponent. -/
  plain : Bool

namespace NumberText

def isNumberChar (c : Char) : Bool :=
  c.isDigit || c = '-' || c = '+' || c = '.' || c = 'e' || c = 'E'

def exponent? (text : List Char) : Option Int :=
  match text with
  | '-' :: digits => if isDigits digits then some (-(digitsValue digits)) else none
  | '+' :: digits => if isDigits digits then some (digitsValue digits) else none
  | digits => if isDigits digits then some (digitsValue digits) else none

/-- The parts of a number. The digits before the point are zero alone or do not start with zero, and
there are digits after a point. -/
def read? (text : List Char) : Option NumberText := do
  let negative := text.head? == some '-'
  let body := if negative then text.drop 1 else text
  let whole := body.takeWhile Char.isDigit
  guard (isDigits whole && (whole.length == 1 || whole.head? != some '0'))
  let afterWhole := body.dropWhile Char.isDigit
  let pointed := afterWhole.head? == some '.'
  let fraction := if pointed then (afterWhole.drop 1).takeWhile Char.isDigit else []
  guard (!pointed || isDigits fraction)
  match if pointed then (afterWhole.drop 1).dropWhile Char.isDigit else afterWhole with
  | [] => return ⟨negative, whole, fraction, 0, !pointed⟩
  | letter :: rest =>
    guard (letter == 'e' || letter == 'E')
    let exponent ← exponent? rest
    return ⟨negative, whole, fraction, exponent, false⟩

/-- The number that digits after those of `n` write, as far as it fits a 64-bit word, and the digits
left over. -/
def takeDigits (n : Nat) : List Char → Nat × List Char
  | [] => (n, [])
  | c :: rest =>
    let next := 10 * n + (c.toNat - '0'.toNat)
    if next < UInt64.size then takeDigits next rest else (n, c :: rest)

/-- The double of a written number, or `none` beyond the largest double. Only the digits that fit a
64-bit word count. -/
def double? (written : NumberText) : Option Binary64 := do
  let (whole, wholeLeft) := takeDigits 0 written.whole
  let (digits, fractionLeft) := takeDigits whole written.fraction
  (← Binary64.ofRatio? written.negative digits 1).scale?
    (written.exponent + wholeLeft.length - (written.fraction.length - fractionLeft.length : Nat))

def value? (written : NumberText) : Option Number :=
  let n := digitsValue written.whole
  if written.plain && !written.negative && n < UInt64.size then some (.int n)
  else if written.plain && written.negative && 0 < n && 2 * n ≤ UInt64.size then some (.int (-n))
  else written.double?.map .double

end NumberText

end DocPath
