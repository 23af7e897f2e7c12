import Provision.Pattern.Layout.CharSet
import Provision.Pattern.Layout.Copies
import Provision.Pattern.Layout.Words

/-!
# The size of a pattern's automata

A pattern has an automaton that reads forward and marks where groups begin and end, and another
that reads backward. `Pattern.fits` says whether both stay within the limit.
-/

namespace Provision.Pattern

namespace Layout

/-- Where a part stands in a choice: in none or first in it, second, behind a branch that ends in a
fork or not, or later. -/
inductive Branch where
  | first
  | second (fork : Bool)
  | later

/-- Joins a branch, which ends in a fork or not, to its choice. -/
def Branch.join : Branch → (fork : Bool) → Build Bool
  | .first, fork => return fork
  | .second before, fork => do
    addStates 2
    take 8
    link before
    link fork
    return false
  | .later, fork => do
    take 4
    link fork
    return false

/-- Lays out a pattern and says whether it ends in a fork. -/
def build (dir : Direction) : Branch → Pattern → Build Bool
  | branch, .empty => do
    addStates 1
    branch.join false
  | branch, .literal s => do
    addStates (literalBytes dir s).length
    branch.join false
  | branch, .set chars => do
    charSet dir chars
    branch.join false
  | branch, .assert _ => do
    addStates 1
    branch.join false
  | branch, .group _ a =>
    match dir with
    | .forward => do
      addStates 1
      let fork ← build dir .first a
      addStates 1
      link fork
      branch.join false
    | .backward => do branch.join (← build dir .first a)
  | branch, .seq a b =>
    match dir with
    | .forward => do
      let fork ← build dir .first a
      let last ← build dir .first b
      link fork
      branch.join last
    | .backward => do
      let fork ← build dir .first b
      let last ← build dir .first a
      link fork
      branch.join last
  | branch, .alt a b =>
    match branch with
    | .first =>
      match literals? dir (.alt a b) with
      | some ws => do
        words ws
        return false
      | none => do build dir (.second (← build dir .first a)) b
    | branch => do
      let _ ← branch.join (← build dir .first a)
      build dir .later b
  | branch, .rep a least most _ => do
    let one := build dir .first a
    let fork ← match most with
      | none => unbounded one (a.minLength?.any (0 < ·)) least
      | some most =>
        if least = 0 ∧ most = 1 then optional one
        else if least = most then copies one least
        else bounded one least most
    branch.join fork

end Layout

/-- Whether every match begins at the start of the text. -/
def beginsAtStart : Pattern → Bool
  | .assert cond => cond = .textStart
  | .group _ a => beginsAtStart a
  | .seq a b => beginsAtStart a || (a.isVoid && beginsAtStart b)
  | .alt a b => beginsAtStart a && beginsAtStart b
  | .rep a least _ _ => 0 < least && beginsAtStart a
  | _ => false

/-- Whether every match ends at the end of the text. -/
def endsAtEnd : Pattern → Bool
  | .assert cond => cond = .textEnd
  | .group _ a => endsAtEnd a
  | .seq a b => endsAtEnd b || (b.isVoid && endsAtEnd a)
  | .alt a b => endsAtEnd a && endsAtEnd b
  | .rep a least _ _ => 0 < least && endsAtEnd a
  | _ => false

namespace Layout

/-- Lays out a whole automaton. Unless all matches begin where it begins to read, it skips any
number of bytes before one. -/
def whole (dir : Direction) (p : Pattern) : Build Unit := do
  let anchored := match dir with
    | .forward => p.beginsAtStart
    | .backward => p.endsAtEnd
  if anchored then addStates 1
  else
    addStates 3
    take 16
  match dir with
  | .forward =>
    addStates 1
    link (← build dir .first p)
    addStates 2
  | .backward =>
    link (← build dir .first p)
    addStates 1

end Layout

/-- A number of bytes that neither automaton of a pattern exceeds. A range of characters has at most
65 byte ranges. -/
def sizeBound : Pattern → Nat
  | .empty => 32
  | .literal s => 400 * s.length
  | .set chars => 3000 * chars.ranges.length + 100
  | .assert _ => 32
  | .group _ a => sizeBound a + 100
  | .seq a b => sizeBound a + sizeBound b + 4
  | .alt a b => sizeBound a + sizeBound b + 100
  | .rep a least most _ => (sizeBound a + 100) * (max least (most.getD 0) + 1) + 200

/-- Whether the automata of a pattern stay within the limit. Most patterns do by far, and there is
no need to lay them out. -/
def fits (p : Pattern) : Bool :=
  p.sizeBound + 300 ≤ Layout.limit ||
    (((Layout.whole .forward p).run {}).isSome && ((Layout.whole .backward p).run {}).isSome)

end Provision.Pattern
