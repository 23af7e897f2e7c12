/-!
# Ranges of characters

The character properties of this library are tables of code point ranges in ascending order. The
ranges of a table lie close together, so it lists lengths: how many code points to leave out, how
many to take, and so on.
-/

namespace Provision.Text

abbrev Ranges := List (Nat × Nat)

/-- The ranges that are left when lengths are left out and taken by turns, from a code point on. -/
def Ranges.ofLengths (start : Nat) : List Nat → Ranges
  | out :: taken :: rest =>
    (start + out, start + out + taken - 1) :: ofLengths (start + out + taken) rest
  | _ => []

def Ranges.contains (rs : Ranges) (c : Char) : Bool :=
  rs.any fun r => r.1 ≤ c.toNat && c.toNat ≤ r.2

end Provision.Text
