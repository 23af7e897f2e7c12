import Provision.Pattern.CharSet

/-!
# Characters as ranges of bytes

An automaton that reads UTF-8 steps from byte to byte. `CharSet.byteRanges` gives a set of
characters as sequences of byte ranges: a text of one character belongs to the set if its bytes lie
in the ranges of one of the sequences. The sequences come in ascending order.
-/

namespace Provision

abbrev ByteRange := Nat × Nat

namespace ByteRange

/-- The code points whose characters have the same number of bytes, as the number of bytes behind
the first one and the range. -/
def sections : List (Nat × (Nat × Nat)) :=
  [(0, (0x0, 0x7F)), (1, (0x80, 0x7FF)), (2, (0x800, 0xD7FF)), (2, (0xE000, 0xFFFF)),
    (3, (0x10000, 0x10FFFF))]

/-- Cuts a range of code points into pieces in which the bytes vary independently of each other.
Each byte behind the first has 64 values: a piece either lies within one block of `unit` code points
or consists of whole blocks. -/
def cut : (levels : Nat) → (unit : Nat) → (first last : Nat) → List (Nat × Nat)
  | 0, _, first, last => [(first, last)]
  | levels + 1, unit, first, last =>
    if first / unit = last / unit then [(first, last)]
    else
      let lo := (first + unit - 1) / unit * unit
      let hi := (last + 1) / unit * unit
      (if first < lo then [(first, lo - 1)] else []) ++
        (if lo < hi then cut levels (64 * unit) lo (hi - 1) else []) ++
        (if hi ≤ last then [(hi, last)] else [])

def bytes (n : Nat) : List Nat := (String.utf8EncodeChar (Char.ofNat n)).map (·.toNat)

/-- The byte ranges of the characters in a range of code points. -/
def ofCodes (r : Nat × Nat) : List (List ByteRange) :=
  sections.flatMap fun (levels, codes) =>
    match CharSet.overlap? r codes with
    | some (first, last) =>
      (cut levels 64 first last).map fun piece => (bytes piece.1).zip (bytes piece.2)
    | none => []

end ByteRange

def CharSet.byteRanges (s : CharSet) : List (List ByteRange) := s.ranges.flatMap ByteRange.ofCodes

end Provision
