import Std.Data.HashMap
import Provision.Pattern.ByteRange
import Provision.Pattern.Layout

/-!
# Laying out sets of characters

A set within the first 128 characters is one state. Any other is laid out as states for its
sequences of byte ranges, and sequences share states where they can: forward those from which the
same is left to read, backward those at which they have the same behind them. The states laid out
for the set so far are kept in a table of fixed size. Each has one place there, and one that comes
later takes the place over, so now and then a state is laid out twice.
-/

namespace Provision.Pattern.Layout

/-- The states laid out for a set: at each place of the table one of them, with the numbers that
describe it. -/
abbrev Shared := Std.HashMap Nat (List Nat × Nat)

/-- The place of a state in a table with a number of places. -/
def placeOf (places : Nat) (key : List Nat) : Nat :=
  (key.foldl (fun (h : UInt64) n => (h ^^^ n.toUInt64) * 1099511628211)
    14695981039346656037).toNat % places

/-- The state that is described by `key`; it is laid out unless the table has it. -/
def share (places beside : Nat) (key : List Nat) : StateT Shared Build Nat := do
  let place := placeOf places key
  if let some (known, number) := (← get).get? place then
    if known = key then return number
  let number ← addState beside
  modify (·.insert place (key, number))
  return number

/-- Sequences in ascending order by their first ranges. -/
def byFirst : List (List ByteRange) → List (ByteRange × List (List ByteRange))
  | [] => []
  | [] :: rest => byFirst rest
  | (b :: bs) :: rest =>
    match byFirst rest with
    | (c, tails) :: more =>
      if b = c then (c, bs :: tails) :: more else (b, [bs]) :: (c, tails) :: more
    | [] => [(b, [bs])]

/-- The state from which a set is read forward: one step for every first range, each to the state
from which the rest is read, or to `goal` where nothing is left. -/
def tree (goal : Nat) : (depth : Nat) → List (List ByteRange) → StateT Shared Build Nat
  | 0, _ => return goal
  | depth + 1, seqs => do
    let steps ← (byFirst seqs).mapM fun (b, tails) => do
      let next ← if tails.all List.isEmpty then pure goal else tree goal depth tails
      return [b.1, b.2, next]
    share 10000 (8 * steps.length) steps.flatten

/-- The state from which a sequence is read backward, down to the state `goal`. -/
def chain : (goal : Nat) → List ByteRange → StateT Shared Build Nat
  | goal, [] => return goal
  | goal, b :: bs => do
    let next ← share 1000 0 [goal, b.1, b.2]
    chain next bs

def chains (goal : Nat) : List (List ByteRange) → StateT Shared Build Unit
  | [] => return
  | bytes :: rest => do
    let _ ← chain goal bytes
    StateT.lift (link true)
    chains goal rest

def charSet (dir : Direction) (chars : CharSet) : Build Unit :=
  if chars.isAscii then do
    addStates 1
    let _ ← addState (8 * chars.ranges.length)
  else
    match dir with
    | .forward => do
      let goal ← addState 0
      let _ ← (tree goal 4 chars.byteRanges).run ∅
    | .backward => do
      addStates 1
      let goal ← addState 0
      let _ ← (chains goal chars.byteRanges).run ∅

end Provision.Pattern.Layout
