/-!
# Laying out automata

A pattern is carried out by automata over the bytes of a text, which have to stay within a fixed
amount of memory. A state takes 32 bytes, 8 more for each of several byte ranges that it can step
by, and 4 more for each way at a fork. The states themselves do not matter here, only their number
and the bytes they take.
-/

namespace Provision.Pattern

/-- What has been laid out of an automaton: its states, which are numbered, and the bytes they
take. -/
structure Layout where
  states : Nat := 0
  size : Nat := 0
deriving Repr, DecidableEq

namespace Layout

/-- The directions in which an automaton reads. -/
inductive Direction where
  | forward
  | backward
deriving Repr, DecidableEq

def limit : Nat := 10485760

/-- Lays out a part of an automaton; it fails beyond the limit. -/
abbrev Build := StateT Layout Option

def take (size : Nat) : Build Unit := do
  let l ← get
  if l.size + size ≤ limit then set { l with size := l.size + size } else failure

def addStates (n : Nat) : Build Unit := do
  take (32 * n)
  modify fun l => { l with states := l.states + n }

/-- Lays out a state with some bytes beside it, and gives its number. -/
def addState (beside : Nat) : Build Nat := do
  take (32 + beside)
  modifyGet fun l => (l.states, { l with states := l.states + 1 })

/-- Leads on from the end of a part; if it ends in a fork, that is one way more. -/
def link (fork : Bool) : Build Unit := if fork then take 4 else pure ()

end Layout

end Provision.Pattern
