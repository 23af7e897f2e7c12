import Provision.Pattern.Layout

/-!
# Laying out repetitions

Every repetition that is counted has states of its own, so a short pattern can take a lot of
memory. The part that is repeated is given as what lays it out and says whether it ends in a fork.
-/

namespace Provision.Pattern.Layout

/-- More copies of a part behind one that ends in a fork or not. -/
def moreCopies (one : Build Bool) : (fork : Bool) → Nat → Build Bool
  | fork, 0 => return fork
  | fork, n + 1 => do
    let next ← one
    link fork
    moreCopies one next n

def copies (one : Build Bool) : Nat → Build Bool
  | 0 => do
    addStates 1
    return false
  | n + 1 => do moreCopies one (← one) n

/-- More copies of a part, before each of which the repetition may end. -/
def optionalCopies (one : Build Bool) : (fork : Bool) → Nat → Build Bool
  | fork, 0 => return fork
  | fork, n + 1 => do
    addStates 1
    let next ← one
    link fork
    take 8
    optionalCopies one next n

def optional (one : Build Bool) : Build Bool := do
  addStates 1
  let fork ← one
  addStates 1
  take 8
  link fork
  return false

/-- A part repeated without bound. A part that can match the empty text takes another fork, lest
the automaton run in a circle. -/
def unbounded (one : Build Bool) (consumes : Bool) : (least : Nat) → Build Bool
  | 0 =>
    if consumes then do
      addStates 1
      let fork ← one
      take 4
      link fork
      return true
    else do
      let fork ← one
      addStates 1
      link fork
      addStates 2
      take 16
      return false
  | least + 1 => do
    let fork ← copies one (least + 1)
    addStates 1
    link fork
    take 4
    return true

def bounded (one : Build Bool) (least most : Nat) : Build Bool := do
  let fork ← copies one least
  addStates 1
  link (← optionalCopies one fork (most - least))
  return false

end Provision.Pattern.Layout
