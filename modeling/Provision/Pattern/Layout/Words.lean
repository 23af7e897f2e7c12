import Provision.Pattern.ByteRange
import Provision.Pattern.Layout
import Provision.Pattern.Normal

/-!
# Laying out choices between literals

Literals that begin with the same bytes share the states for them, as long as no literal that is
to be preferred ends in between.
-/

namespace Provision.Pattern.Layout

/-- The bytes of a literal in the order in which they are read. -/
def literalBytes (dir : Direction) (s : List Char) : List Nat :=
  let bytes := s.flatMap fun c => ByteRange.bytes c.toNat
  match dir with
  | .forward => bytes
  | .backward => bytes.reverse

def literals? (dir : Direction) (p : Pattern) : Option (List (List Nat)) :=
  p.branches.mapM fun
    | .literal s => some (literalBytes dir s)
    | _ => none

def addWord (b : Nat) (word : List Nat) :
    List (Nat × List (List Nat)) → List (Nat × List (List Nat))
  | [] => [(b, [word])]
  | (c, ws) :: rest => if b = c then (c, ws ++ [word]) :: rest else (c, ws) :: addWord b word rest

/-- Cuts a list of words where an empty word stands. -/
def cutAtEmpty : List (List Nat) → List (List (List Nat))
  | [] => [[]]
  | [] :: rest => [] :: cutAtEmpty rest
  | word :: rest =>
    match cutAtEmpty rest with
    | first :: more => (word :: first) :: more
    | [] => [[word]]

/-- The words by their first bytes, in groups between which an empty word stands: a word that ends
is preferred to those behind it. -/
def wordGroups (words : List (List Nat)) : List (List (Nat × List (List Nat))) :=
  let words := match words with
    | [] :: rest => [] :: rest.dropWhile List.isEmpty
    | words => words
  (cutAtEmpty words).map fun group =>
    group.foldl (fun acc word => match word with
      | b :: bs => addWord b bs acc
      | [] => acc) []

/-- Lays out the states from which one of several words is read. -/
def wordTree : (depth : Nat) → List (List Nat) → Build Unit
  | 0, _ => return
  | depth + 1, words => do
    let groups := wordGroups words
    groups.forM fun group => do
      group.forM fun (_, tails) =>
        if tails.all List.isEmpty then pure () else wordTree depth tails
      match group.length with
      | 0 => pure ()
      | 1 => addStates 1
      | n => let _ ← addState (8 * n)
    let ways := (groups.filter fun group => !group.isEmpty).length + (groups.length - 1)
    let _ ← addState (4 * ways)

def words (ws : List (List Nat)) : Build Unit := do
  addStates 1
  wordTree ((ws.map List.length).foldl max 0) ws

end Provision.Pattern.Layout
