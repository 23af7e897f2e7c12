import Provision.Number

/-!
# Reading numbers

`Number.read?` reads a decimal with an optional fraction and an optional exponent, or the name of a
value that is not finite. `Number.ofDigits` is the part of it that numerals of the language use.
-/

namespace Provision.Number

/-- The natural number that a list of decimal digits writes. -/
def digitsValue (ds : List Char) : Nat :=
  ds.foldl (fun n d => 10 * n + (d.toNat - '0'.toNat)) 0

def ofDigits (negative : Bool) (whole fraction : List Char) (exponent : Int) : Number :=
  ofDecimal negative (digitsValue (whole ++ fraction)) (exponent - fraction.length)

/-- Splits a leading sign off; the flag says that it is a minus. -/
def splitSign : List Char → Bool × List Char
  | '-' :: rest => (true, rest)
  | '+' :: rest => (false, rest)
  | rest => (false, rest)

def readExponent? : List Char → Option Int
  | [] => some 0
  | e :: rest =>
    if e = 'e' ∨ e = 'E' then
      let (negative, ds) := splitSign rest
      if !ds.isEmpty && ds.all Char.isDigit then
        some (if negative then -(digitsValue ds) else digitsValue ds)
      else none
    else none

def readUnsigned? (negative : Bool) (cs : List Char) : Option Number := do
  let whole := cs.takeWhile Char.isDigit
  let (fraction, rest) := match cs.dropWhile Char.isDigit with
    | '.' :: tail => (tail.takeWhile Char.isDigit, tail.dropWhile Char.isDigit)
    | tail => ([], tail)
  guard !(whole ++ fraction).isEmpty
  let exponent ← readExponent? rest
  return ofDigits negative whole fraction exponent

def read? (s : String) : Option Number :=
  let (negative, cs) := splitSign s.toList
  if cs = ['i', 'n', 'f'] then some (.infinity negative)
  else if cs = ['N', 'a', 'N'] then some .nan
  else readUnsigned? negative cs

end Provision.Number
