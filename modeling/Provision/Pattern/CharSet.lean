import Provision.Text.Blank
import Provision.Text.CaseFold
import Provision.Text.Digit
import Provision.Text.Extend
import Provision.Text.Letter
import Provision.Text.Word

/-!
# Sets of characters

The sets that a place in a pattern can stand for. A set is kept as ranges of code points in
ascending order, no two of which touch, so equal sets have equal ranges. The ends of a range are
characters; a range may span the code points that are none.
-/

namespace Provision

structure CharSet where
  ranges : Text.Ranges
deriving Repr, DecidableEq

namespace CharSet

def mem (s : CharSet) (c : Char) : Bool := s.ranges.contains c

/-- Adds a range to ranges in ascending order; those that touch it become part of it. -/
def addRange : (first last : Nat) → Text.Ranges → Text.Ranges
  | first, last, [] => [(first, last)]
  | first, last, (a, b) :: rest =>
    if last + 1 < a then (first, last) :: (a, b) :: rest
    else if b + 1 < first then (a, b) :: addRange first last rest
    else addRange (min first a) (max last b) rest

def addRanges (added rs : Text.Ranges) : Text.Ranges :=
  added.foldl (fun rs r => addRange r.1 r.2 rs) rs

def none : CharSet := ⟨[]⟩

def range (first last : Char) : CharSet := ⟨[(first.toNat, last.toNat)]⟩

def single (c : Char) : CharSet := range c c

def digit : CharSet := ⟨Text.digits⟩

def blank : CharSet := ⟨Text.blanks⟩

def union (s t : CharSet) : CharSet := ⟨addRanges t.ranges s.ranges⟩

def lastCode : Nat := 0x10FFFF

def nextCode (n : Nat) : Nat := if n = 0xD7FF then 0xE000 else n + 1

def previousCode (n : Nat) : Nat := if n = 0xE000 then 0xD7FF else n - 1

/-- What lies between ranges in ascending order, from a code point on. -/
def gaps : (start : Nat) → Text.Ranges → Text.Ranges
  | start, [] => if start ≤ lastCode then [(start, lastCode)] else []
  | start, (a, b) :: rest =>
    if start < a then (start, previousCode a) :: gaps (nextCode b) rest
    else gaps (nextCode b) rest

def compl (s : CharSet) : CharSet := ⟨gaps 0 s.ranges⟩

def all : CharSet := compl none

def overlap? (r q : Nat × Nat) : Option (Nat × Nat) :=
  if max r.1 q.1 ≤ min r.2 q.2 then some (max r.1 q.1, min r.2 q.2) else Option.none

def inter (s t : CharSet) : CharSet :=
  ⟨s.ranges.flatMap fun r => t.ranges.filterMap (overlap? r)⟩

/-- The characters of the first set that are not in the second. -/
def diff (s t : CharSet) : CharSet := s.inter t.compl

def word : CharSet :=
  diff ([⟨Text.extenders⟩, digit, ⟨Text.connectors⟩].foldl union ⟨Text.letters⟩) ⟨Text.newcomers⟩

def symmDiff (s t : CharSet) : CharSet := (s.union t).diff (s.inter t)

/-- Adds the partners of the characters of a set in runs of letters that differ in case only. -/
def foldedBy (runs : List Text.FoldRun) (s : CharSet) : CharSet :=
  ⟨runs.foldl
    (fun rs run => s.ranges.foldl (fun rs r => addRanges (run.partners r.1 r.2) rs) rs) s.ranges⟩

/-- A set with all characters that differ from one of its own in case only. -/
def folded (s : CharSet) : CharSet := s.foldedBy Text.foldRuns

/-- A set with all letters among the first 128 characters that differ in case only. -/
def asciiFolded (s : CharSet) : CharSet := s.foldedBy Text.asciiFoldRuns

/-- Whether all characters of a set are among the first 128. -/
def isAscii (s : CharSet) : Bool := s.ranges.all (·.2 < 128)

def asciiDigit : CharSet := range '0' '9'

def asciiWord : CharSet := ⟨[(0x30, 0x39), (0x41, 0x5A), (0x5F, 0x5F), (0x61, 0x7A)]⟩

def asciiBlank : CharSet := ⟨[(0x09, 0x0D), (0x20, 0x20)]⟩

/-- The classes with a name, all within the first 128 characters. -/
def named? : String → Option CharSet
  | "alnum" => some ⟨[(0x30, 0x39), (0x41, 0x5A), (0x61, 0x7A)]⟩
  | "alpha" => some ⟨[(0x41, 0x5A), (0x61, 0x7A)]⟩
  | "ascii" => some ⟨[(0x00, 0x7F)]⟩
  | "blank" => some ⟨[(0x09, 0x09), (0x20, 0x20)]⟩
  | "cntrl" => some ⟨[(0x00, 0x1F), (0x7F, 0x7F)]⟩
  | "digit" => some asciiDigit
  | "graph" => some ⟨[(0x21, 0x7E)]⟩
  | "lower" => some ⟨[(0x61, 0x7A)]⟩
  | "print" => some ⟨[(0x20, 0x7E)]⟩
  | "punct" => some ⟨[(0x21, 0x2F), (0x3A, 0x40), (0x5B, 0x60), (0x7B, 0x7E)]⟩
  | "space" => some asciiBlank
  | "upper" => some ⟨[(0x41, 0x5A)]⟩
  | "word" => some asciiWord
  | "xdigit" => some ⟨[(0x30, 0x39), (0x41, 0x46), (0x61, 0x66)]⟩
  | _ => Option.none

end CharSet

end Provision
