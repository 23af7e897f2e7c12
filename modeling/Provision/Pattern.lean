import Provision.Pattern.CharSet

/-!
# Patterns

Regular expressions over texts, and whether one occurs in a text. The meaning of a pattern is given
by the lengths of its matches from every place of a text, before, between and behind its
characters. The lengths of a pattern are put together from those of its parts, and each part is
looked at once, so no choice is ever tried twice.
-/

namespace Provision

/-- A condition on a place in a text. -/
inductive Assertion where
  | textStart
  | textEnd
  | lineStart
  | lineEnd
  /-- Line starts and ends where a carriage return, a newline, or both in this order end a line. -/
  | lineStartCrlf
  | lineEndCrlf
  | wordBoundary (w : CharSet)
  | notWordBoundary (w : CharSet)
  | wordStart (w : CharSet)
  | wordEnd (w : CharSet)
  | wordStartHalf (w : CharSet)
  | wordEndHalf (w : CharSet)
deriving Repr, DecidableEq

namespace Assertion

def isIn (w : CharSet) (c : Option Char) : Bool := c.any w.mem

/-- Whether the condition holds between two neighbours; at an end of the text one is missing. -/
def holds : Assertion → (before after : Option Char) → Bool
  | .textStart, before, _ => before.isNone
  | .textEnd, _, after => after.isNone
  | .lineStart, before, _ => before.all (· == '\n')
  | .lineEnd, _, after => after.all (· == '\n')
  | .lineStartCrlf, before, after =>
    before.all (· == '\n') || (before == some '\r' && after != some '\n')
  | .lineEndCrlf, before, after =>
    after.all (· == '\r') || (after == some '\n' && before != some '\r')
  | .wordBoundary w, before, after => isIn w before != isIn w after
  | .notWordBoundary w, before, after => isIn w before == isIn w after
  | .wordStart w, before, after => !isIn w before && isIn w after
  | .wordEnd w, before, after => isIn w before && !isIn w after
  | .wordStartHalf w, before, _ => !isIn w before
  | .wordEndHalf w, _, after => !isIn w after

end Assertion

inductive Pattern where
  | empty
  | literal (text : List Char)
  | set (chars : CharSet)
  | assert (cond : Assertion)
  /-- A group in parentheses; groups are numbered from one in the order in which they open. -/
  | group (index : Nat) (a : Pattern)
  | seq (a b : Pattern)
  | alt (a b : Pattern)
  /-- At least `least` times, and at most `most` times if that is given. Whether more or fewer are
  preferred does not change what matches. -/
  | rep (a : Pattern) (least : Nat) (most : Option Nat) (greedy : Bool)
deriving Repr, DecidableEq

/-- For every place of a text the lengths of the matches from there on, as the number whose bit `n`
is set if one of them has length `n`. -/
abbrev Lengths := List Nat

namespace Lengths

/-- The lengths at all places, given by the character before a place and the text behind it. -/
def ofPlaces (f : Option Char → List Char → Nat) : (before : Option Char) → List Char → Lengths
  | before, [] => [f before []]
  | before, c :: rest => f before (c :: rest) :: ofPlaces f (some c) rest

/-- The lengths of a match with one of the lengths `m` and another match behind it, whose lengths
are given from the first place on. -/
def extend : (m : Nat) → Lengths → Nat
  | _, [] => 0
  | m, n :: next =>
    if m = 0 then 0
    else (if m % 2 = 1 then n else 0) ||| (extend (m / 2) next <<< 1)

def comp : Lengths → Lengths → Lengths
  | m :: ms, n :: ns => extend m (n :: ns) :: comp ms ns
  | _, _ => []

def union (ms ns : Lengths) : Lengths := List.zipWith (· ||| ·) ms ns

/-- The lengths of any number of matches in a row. A match of length zero adds nothing to it, so
the lengths at a place are found from those at the places behind it. -/
def star : Lengths → Lengths
  | [] => []
  | m :: ms =>
    let rest := star ms
    (1 ||| (extend (m / 2) rest <<< 1)) :: rest

/-- Applies `f` a number of times; once nothing changes, nothing will. -/
def iterate (f : Lengths → Lengths) : Nat → Lengths → Lengths
  | 0, ms => ms
  | n + 1, ms =>
    let next := f ms
    if next = ms then ms else iterate f n next

end Lengths

namespace Pattern

/-- The lengths of the matches of a pattern at all places of a text. -/
def lengths (text : List Char) : Pattern → Lengths
  | .empty => .ofPlaces (fun _ _ => 1) none text
  | .literal s =>
    .ofPlaces (fun _ rest => if s.isPrefixOf rest then 1 <<< s.length else 0) none text
  | .set chars => .ofPlaces (fun _ rest => if rest.head?.any chars.mem then 2 else 0) none text
  | .assert cond =>
    .ofPlaces (fun before rest => if cond.holds before rest.head? then 1 else 0) none text
  | .group _ a => lengths text a
  | .seq a b => (lengths text a).comp (lengths text b)
  | .alt a b => (lengths text a).union (lengths text b)
  | .rep a least most _ =>
    let once := lengths text a
    let more := match most with
      | some n =>
        Lengths.iterate (fun ms => (once.comp ms).map (1 ||| ·)) (n - least)
          (.ofPlaces (fun _ _ => 1) none text)
      | none => once.star
    Lengths.iterate once.comp least more

def isMatch (p : Pattern) (s : String) : Bool := (p.lengths s.toList).any (· != 0)

end Pattern

end Provision
