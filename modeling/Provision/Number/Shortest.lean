import Provision.Number

/-!
# Shortest decimal digits

The decimal with the fewest significant digits among those that round to a given positive number,
and of these the one nearest to it. The reals that round to a number form an interval around it,
whose ends belong to it when the last bit of the number is even. `Number.shortest` walks down the
decimal grids `10 ^ k` and stops at the first one that has a point in the interval; only the two
grid points next to the number need a look.
-/

namespace Provision.Number

/-- A positive decimal, `digits * 10 ^ exponent`. -/
structure Decimal where
  digits : Nat
  exponent : Int
deriving Repr, DecidableEq

/-- The interval of reals that round to a number, everything in quarter units. -/
structure Interval where
  low : Nat
  value : Nat
  high : Nat
  /-- Whether the two ends round to the number as well. -/
  closed : Bool

/-- The interval that rounds to the positive finite number of `units` units. Below a power of two
the numbers lie twice as dense, so there the lower half is half as wide. -/
def interval (units : Nat) : Interval :=
  let step := Nat.pow 2 (lastPlace units)
  let below := if units = Nat.pow 2 52 * step ∧ 1 < step then step else 2 * step
  { low := 4 * units - below
    value := 4 * units
    high := 4 * units + 2 * step
    closed := (units / step) % 2 = 0 }

/-- Whether `point / scale` quarter units lie in the interval. -/
def Interval.contains (i : Interval) (point scale : Nat) : Bool :=
  if i.closed then i.low * scale ≤ point && point ≤ i.high * scale
  else i.low * scale < point && point < i.high * scale

/-- Which way an exact tie between two shortest decimals goes. -/
inductive Tie where
  | up
  | even
deriving Repr, DecidableEq

/-- The point of the grid `10 ^ k` in the interval that is nearest to its value, if there is one,
as a multiple of `10 ^ k`. -/
def Interval.gridPoint? (i : Interval) (tie : Tie) (k : Int) : Option Nat :=
  let scale := Nat.pow 10 (-k).toNat
  let grid := 4 * one * Nat.pow 10 k.toNat
  let x := i.value * scale
  let f := x / grid
  match i.contains (f * grid) scale, i.contains ((f + 1) * grid) scale with
  | true, false => some f
  | false, true => some (f + 1)
  | false, false => none
  | true, true =>
    let below := x - f * grid
    let above := (f + 1) * grid - x
    if below < above then some f
    else if above < below then some (f + 1)
    else match tie with
      | .up => some (f + 1)
      | .even => some (f + f % 2)

/-- The first grid with a point in the interval, from `10 ^ k` down, over `steps` grids. -/
def Interval.search (i : Interval) (tie : Tie) : Nat → Int → Decimal
  | 0, k => ⟨0, k⟩
  | steps + 1, k =>
    match i.gridPoint? tie k with
    | some digits => ⟨digits, k⟩
    | none => i.search tie steps (k - 1)

/-- A decimal exponent above that of every decimal near `units` units; `30103 / 100000` exceeds
the logarithm of two by little enough for all exponents of a number. -/
def topExponent (units : Nat) : Int :=
  ((units.log2 : Int) + 1 - 1074) * 30103 / 100000 + 1

/-- The shortest decimal of the positive finite number of `units` units. Seventeen digits always
suffice, and the search starts at most two grids above the first digit. -/
def shortest (tie : Tie) (units : Nat) : Decimal :=
  (interval units).search tie 20 (topExponent units)

end Provision.Number
