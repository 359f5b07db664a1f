import DocPath.Decimal.Shortest

/-! # Decimal notation

The text of a double: its shortest decimal, written positionally when the exponent of the first
digit lies between -5 and 15, and with a signed exponent otherwise.
-/

namespace DocPath

structure DecimalLayout where
  /-- The least exponent of the first digit that is written positionally. -/
  leastPositional : Int
  /-- The greatest exponent of the first digit that is written positionally. -/
  greatestPositional : Int

namespace DecimalLayout

def positional (digits : List Char) (first : Int) : List Char :=
  if first < 0 then
    '0' :: '.' :: (List.replicate (-first - 1).toNat '0' ++ digits)
  else
    let whole := first.toNat + 1
    let fraction := digits.drop whole
    digits.take whole ++ List.replicate (whole - digits.length) '0' ++
      '.' :: (if fraction.isEmpty then ['0'] else fraction)

def scientific (digits : List Char) (first : Int) : List Char :=
  let fraction := digits.drop 1
  digits.take 1 ++ (if fraction.isEmpty then [] else '.' :: fraction) ++
    'e' :: (if first < 0 then '-' else '+') :: Nat.toDigits 10 first.natAbs

def write (layout : DecimalLayout) (d : Decimal) : List Char :=
  let digits := Nat.toDigits 10 d.digits
  let first := d.exponent + digits.length - 1
  if layout.leastPositional ≤ first ∧ first ≤ layout.greatestPositional then positional digits first
  else scientific digits first

end DecimalLayout

def Binary64.layout : DecimalLayout where
  leastPositional := -5
  greatestPositional := 15

/-- The text of a double; zero keeps its sign. -/
def Binary64.text (x : Binary64) : String :=
  let magnitude := if x.significand = 0 then ['0', '.', '0'] else Binary64.layout.write x.shortest
  String.ofList (if x.negative then '-' :: magnitude else magnitude)

end DocPath
