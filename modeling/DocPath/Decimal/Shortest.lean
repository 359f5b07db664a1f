import DocPath.Decimal.Binary64

/-! # Shortest decimals

The decimal with the fewest digits among those that read back as a given double. Of several such
decimals it is the nearest to the double, and of two equally near ones the one with the even last
digit.
-/

namespace DocPath

structure Decimal where
  digits : Nat
  exponent : Int
deriving DecidableEq, Repr

namespace Binary64

def gridUnits (x : Binary64) (grid : Int) (multiple : Nat) : Nat :=
  (multiple * Nat.pow 10 grid.toNat) <<< (2 - x.exponent).toNat

/-- A quarter of the last place of `x`, taken `n` times, in the units of `gridUnits`. -/
def quarterUnits (x : Binary64) (grid : Int) (n : Nat) : Nat :=
  (n <<< (x.exponent - 2).toNat) * Nat.pow 10 (-grid).toNat

/-- The lower end of the numbers that round to `x`, in quarters of its last place. Below a power of
two the doubles are twice as dense. -/
def lowerEnd (x : Binary64) : Nat :=
  if x.significand = 1 <<< 52 ∧ x.exponent ≠ -1074 then 4 * x.significand - 1
  else 4 * x.significand - 2

/-- Whether `multiple · 10 ^ grid` reads back as the magnitude of `x`. A number half way between two
doubles goes to the one with the even significand. -/
def readsBack (x : Binary64) (grid : Int) (multiple : Nat) : Bool :=
  let low := quarterUnits x grid (lowerEnd x)
  let high := quarterUnits x grid (4 * x.significand + 2)
  let value := gridUnits x grid multiple
  if x.significand % 2 = 0 then low ≤ value && value ≤ high else low < value && value < high

/-- The multiple of `10 ^ grid` nearest to the magnitude of `x` among those that read back, if any
does. -/
def nearestOn (x : Binary64) (grid : Int) : Option Decimal :=
  let value := quarterUnits x grid (4 * x.significand)
  let below := value / gridUnits x grid 1
  let belowGap := value - gridUnits x grid below
  let aboveGap := gridUnits x grid (below + 1) - value
  let preferBelow := belowGap < aboveGap || (belowGap == aboveGap && below % 2 == 0)
  match readsBack x grid below, readsBack x grid (below + 1) with
  | true, true => some ⟨if preferBelow then below else below + 1, grid⟩
  | true, false => some ⟨below, grid⟩
  | false, true => some ⟨below + 1, grid⟩
  | false, false => none

/-- A power of ten above the magnitude of `x`, at most a few places above its first digit;
`1233 / 4096` stands for the logarithm of two. -/
def topGrid (x : Binary64) : Int :=
  (x.significand.log2 + x.exponent + 1) * 1233 / 4096 + 2

/-- The shortest decimal of the magnitude of `x`: the hit on the coarsest grid that has one.
Seventeen digits always suffice, and the search starts at most four places above the first
of them. -/
def shortest (x : Binary64) : Decimal :=
  ((List.range 22).findSome? fun (i : Nat) => nearestOn x (topGrid x - i)).getD ⟨0, 0⟩

end Binary64

end DocPath
