/-! # Decimal digits

The number that a text of decimal digits writes. It is the inverse of `Nat.toDigits 10`, which
writes a number without leading zeros.
-/

namespace DocPath

def digitsValue (digits : List Char) : Nat :=
  digits.foldl (fun n c => 10 * n + (c.toNat - '0'.toNat)) 0

def isDigits (text : List Char) : Bool :=
  !text.isEmpty && text.all Char.isDigit

theorem isDigits_iff (text : List Char) :
    isDigits text = true ↔ text ≠ [] ∧ ∀ c ∈ text, c.isDigit = true := by
  simp [isDigits]

end DocPath
