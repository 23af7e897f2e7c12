/-!
# Numbers

A number of the language is a double-precision value. A finite one is a sign and a whole count of
the smallest positive magnitude, `2 ^ (-1074)`, so comparing two of them is comparing two naturals;
both signs of zero exist, beside the two infinities and the value that is no number.

* `Number.ofRatio` gives the number nearest to a fraction, a half going to the even neighbour.
* `Number.equals` and `Number.less` are the comparisons of values: `nan` is unequal to everything
  and unordered, and the two zeros are equal.
-/

namespace Provision

/-- A double-precision value; `units` counts multiples of `2 ^ (-1074)`. -/
inductive Number where
  | nan
  | infinity (negative : Bool)
  | finite (negative : Bool) (units : Nat)
deriving Repr, DecidableEq, Inhabited

namespace Number

def one : Nat := Nat.pow 2 1074

/-- The first count of units that is too large for a finite number. -/
def ceiling : Nat := Nat.pow 2 2098

/-- The quotient `n / d` to the nearest whole number, a half going to the even neighbour. -/
def roundDiv (n d : Nat) : Nat :=
  let q := n / d
  let r := n % d
  if 2 * r < d then q
  else if d < 2 * r then q + 1
  else q + q % 2

/-- The binary exponent, in units, of the last place of a number of about `units` units: 53
significant bits are kept. -/
def lastPlace (units : Nat) : Nat := units.log2 - 52

/-- The number nearest to `n / d`, with the given sign. -/
def ofRatio (negative : Bool) (n d : Nat) : Number :=
  let scaled := n * one
  let step := Nat.pow 2 (lastPlace (scaled / d))
  let units := roundDiv scaled (d * step) * step
  if units < ceiling then .finite negative units else .infinity negative

def ofInt (n : Int) : Number := ofRatio (decide (n < 0)) n.natAbs 1

/-- The number nearest to `digits * 10 ^ exponent`, with the given sign. -/
def ofDecimal (negative : Bool) (digits : Nat) (exponent : Int) : Number :=
  match exponent with
  | .ofNat e => ofRatio negative (digits * Nat.pow 10 e) 1
  | .negSucc e => ofRatio negative digits (Nat.pow 10 (e + 1))

def neg : Number → Number
  | .nan => .nan
  | .infinity s => .infinity !s
  | .finite s u => .finite (!s) u

def signedUnits (negative : Bool) (units : Nat) : Int := if negative then -units else units

/-- Equality of values: `nan` equals nothing, and the two zeros are equal. -/
def equals : Number → Number → Bool
  | .infinity s, .infinity t => s == t
  | .finite s u, .finite t v => signedUnits s u == signedUnits t v
  | _, _ => false

def less : Number → Number → Bool
  | .nan, _ | _, .nan => false
  | .infinity s, .infinity t => s && !t
  | .infinity s, .finite _ _ => s
  | .finite _ _, .infinity t => !t
  | .finite s u, .finite t v => signedUnits s u < signedUnits t v

def toInt? : Number → Option Int
  | .finite s u => if u % one = 0 then some (signedUnits s (u / one)) else none
  | _ => none

end Number

end Provision
