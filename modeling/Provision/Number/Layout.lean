import Provision.Number.Shortest

/-!
# Writing numbers

A `Layout` holds the decisions of one number format; `Layout.write` writes the shortest digits of a
number in it. Positions count from the first significant digit: the digit before the point of a
one-digit whole number has place 0, the first digit behind the point has place -1.
-/

namespace Provision.Number

/-- The decisions of a number format. -/
structure Layout where
  /-- The least and the greatest place of a first digit that is written positionally; without
  bounds nothing is written with an exponent. -/
  positional : Option (Int × Int)
  /-- Whether a whole number ends in `.0`. -/
  point : Bool
  /-- Whether a positive exponent has a sign. -/
  plus : Bool
  /-- Which way an exact tie between two shortest decimals goes. -/
  tie : Tie

/-- Shortest digits, never an exponent, nothing behind a whole number. -/
def Layout.plain : Layout := ⟨none, false, false, .up⟩

/-- The form of a literal in a listing: positional from `1e-4` to below `1e16`, whole numbers with
`.0`. -/
def Layout.listing : Layout := ⟨some (-4, 15), true, false, .up⟩

/-- The form of a number in a document: positional from `1e-5` to below `1e16`, whole numbers with
`.0`, exponents with their sign. -/
def Layout.document : Layout := ⟨some (-5, 15), true, true, .even⟩

def zeros (n : Nat) : List Char := List.replicate n '0'

/-- The digits `ds`, the first of them at `place`, written with a point. -/
def Layout.writePositional (l : Layout) (ds : List Char) (place : Int) : List Char :=
  if place < 0 then
    '0' :: '.' :: zeros (-place - 1).toNat ++ ds
  else
    let whole := place.toNat + 1
    if ds.length ≤ whole then
      ds ++ zeros (whole - ds.length) ++ (if l.point then ['.', '0'] else [])
    else
      ds.take whole ++ '.' :: ds.drop whole

/-- The digits `ds`, the first of them at `place`, written with an exponent. -/
def Layout.writeScientific (l : Layout) (ds : List Char) (place : Int) : List Char :=
  let mantissa := match ds with
    | d :: e :: rest => d :: '.' :: e :: rest
    | short => short
  let sign := if place < 0 then ['-'] else if l.plus then ['+'] else []
  mantissa ++ 'e' :: sign ++ Nat.toDigits 10 place.natAbs

def Layout.writeUnits (l : Layout) (units : Nat) : List Char :=
  if units = 0 then
    if l.point then ['0', '.', '0'] else ['0']
  else
    let d := shortest l.tie units
    let ds := Nat.toDigits 10 d.digits
    let place := d.exponent + ds.length - 1
    match l.positional with
    | none => l.writePositional ds place
    | some (least, greatest) =>
      if least ≤ place && place ≤ greatest then l.writePositional ds place
      else l.writeScientific ds place

def Layout.write (l : Layout) : Number → String
  | .nan => "NaN"
  | .infinity s => if s then "-inf" else "inf"
  | .finite s u => String.ofList ((if s then ['-'] else []) ++ l.writeUnits u)

def text (x : Number) : String := Layout.plain.write x

end Provision.Number
