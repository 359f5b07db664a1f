/-! # Finite doubles

A finite double is a sign, a significand below `2 ^ 53` and a power of two. The double nearest to
a fraction is found by exact division, and there is none when it would lie beyond the largest one.
Products and quotients are fractions that are rounded in this way.
-/

namespace DocPath

/-- The pairs of significand and exponent that name a double, each of them in one way only. -/
abbrev Binary64.Fits (significand : Nat) (exponent : Int) : Prop :=
  significand < 1 <<< 53 ∧ -1074 ≤ exponent ∧ exponent ≤ 971 ∧
    (1 <<< 52 ≤ significand ∨ exponent = -1074)

/-- The number `± significand · 2 ^ exponent`; zero has a sign too. -/
structure Binary64 where
  negative : Bool
  significand : Nat
  exponent : Int
  fits : Binary64.Fits significand exponent
deriving DecidableEq

namespace Binary64

def zero (negative : Bool) : Binary64 where
  negative := negative
  significand := 0
  exponent := -1074
  fits := by decide

instance : Inhabited Binary64 := ⟨zero false⟩

/-- The quotient rounded to the nearest integer, a half going to the even neighbour. -/
def roundHalfEven (num den : Nat) : Nat :=
  let floor := num / den
  let twice := 2 * (num % den)
  if den < twice || (twice == den && floor % 2 == 1) then floor + 1 else floor

def floorAt (num den : Nat) (place : Int) : Nat :=
  (num <<< (-place).toNat) / (den <<< place.toNat)

/-- The place of the last bit of the doubles around `num / den`. -/
def lastPlace (num den : Nat) : Int :=
  let place := max ((num.log2 : Int) - den.log2 - 53) (-1074)
  if 1 <<< 53 ≤ floorAt num den place then place + 1 else place

def ofParts? (negative : Bool) (significand : Nat) (exponent : Int) : Option Binary64 :=
  if fits : Fits significand exponent then some ⟨negative, significand, exponent, fits⟩ else none

/-- The double nearest to `± num / den`, or `none` beyond the largest double. -/
def ofRatio? (negative : Bool) (num den : Nat) : Option Binary64 :=
  if num = 0 then some (zero negative)
  else
    let place := lastPlace num den
    let significand := roundHalfEven (num <<< (-place).toNat) (den <<< place.toNat)
    if significand = 1 <<< 53 then ofParts? negative (1 <<< 52) (place + 1)
    else ofParts? negative significand place

def num (x : Binary64) : Nat :=
  x.significand <<< x.exponent.toNat

def den (x : Binary64) : Nat :=
  1 <<< (-x.exponent).toNat

def mul? (x y : Binary64) : Option Binary64 :=
  ofRatio? (x.negative != y.negative) (x.num * y.num) (x.den * y.den)

def div? (x y : Binary64) : Option Binary64 :=
  ofRatio? (x.negative != y.negative) (x.num * y.den) (x.den * y.num)

def tenPow? (exponent : Nat) : Option Binary64 :=
  ofRatio? false (Nat.pow 10 exponent) 1

/-- The greatest exponent of ten that a double has. -/
def maxTenPow : Nat := 308

/-- `x · 10 ^ exponent` by one product or quotient with the double nearest to the power of ten,
which rounds once more, and with a quotient for every `maxTenPow` places below that. -/
def scale? (x : Binary64) (exponent : Int) : Option Binary64 := do
  if exponent.natAbs ≤ maxTenPow then
    if 0 ≤ exponent then x.mul? (← tenPow? exponent.toNat)
    else x.div? (← tenPow? (-exponent).toNat)
  else if x.significand = 0 then some x
  else if 0 ≤ exponent then none
  else scale? (← x.div? (← tenPow? maxTenPow)) (exponent + maxTenPow)
termination_by (-exponent).toNat
decreasing_by simp only [maxTenPow] at *; omega

end Binary64

end DocPath
