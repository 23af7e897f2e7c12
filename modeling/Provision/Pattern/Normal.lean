import Provision.Pattern

/-!
# Patterns in simple form

The functions here put patterns together and simplify them on the way: nothing empty stands in a
sequence, literals side by side are one literal, sequences and choices lean to the right, and what
all branches of a choice begin with stands before it. None of this changes what a pattern matches.
-/

namespace Provision.Pattern

/-- Whether a pattern matches nothing but the empty text. -/
def isVoid : Pattern → Bool
  | .empty => true
  | .literal s => s.isEmpty
  | .set _ => false
  | .assert _ => true
  | .group _ a => isVoid a
  | .seq a b => isVoid a && isVoid b
  | .alt a b => isVoid a && isVoid b
  | .rep a _ most _ => isVoid a && most.isSome

/-- How many characters a match has at least; a set without characters has no match. -/
def minLength? : Pattern → Option Nat
  | .empty => some 0
  | .literal s => some s.length
  | .set chars => if chars.ranges.isEmpty then none else some 1
  | .assert _ => some 0
  | .group _ a => minLength? a
  | .seq a b => do return (← minLength? a) + (← minLength? b)
  | .alt a b => do return min (← minLength? a) (← minLength? b)
  | .rep a least _ _ => do return (← minLength? a) * least

def count : Pattern → Nat
  | .group _ a => count a + 1
  | .seq a b => count a + count b + 1
  | .alt a b => count a + count b + 1
  | .rep a _ _ _ => count a + 1
  | _ => 1

/-! ### Sequences -/

def items : Pattern → List Pattern
  | .empty => []
  | .seq a b => a :: items b
  | p => [p]

/-- Makes one literal of those that stand side by side. -/
def joinLiterals : List Pattern → List Pattern
  | [] => []
  | .literal s :: rest =>
    match joinLiterals rest with
    | .literal t :: more => .literal (s ++ t) :: more
    | more => .literal s :: more
  | p :: rest => p :: joinLiterals rest

def ofItems : List Pattern → Pattern
  | [] => .empty
  | [p] => p
  | p :: rest => .seq p (ofItems rest)

def concat (ps : List Pattern) : Pattern := ofItems (joinLiterals (ps.flatMap items))

/-! ### Sets and choices -/

def ofSet (chars : CharSet) : Pattern :=
  match chars.ranges with
  | [(a, b)] => if a = b then .literal [Char.ofNat a] else .set chars
  | _ => .set chars

def branches : Pattern → List Pattern
  | .alt a b => a :: branches b
  | p => [p]

/-- A choice with the given branches; without one, nothing matches. -/
def ofBranches : List Pattern → Pattern
  | [] => .set .none
  | [p] => p
  | p :: rest => .alt p (ofBranches rest)

/-- The set of a pattern that is a single character. -/
def charSet? : Pattern → Option CharSet
  | .literal [c] => some (.single c)
  | _ => none

def set? : Pattern → Option CharSet
  | .set chars => some chars
  | _ => none

def seqItems? : Pattern → Option (List Pattern)
  | .seq a b => some (items (.seq a b))
  | _ => none

def commonStart : List Pattern → List Pattern → List Pattern
  | p :: ps, q :: qs => if p = q then p :: commonStart ps qs else []
  | _, _ => []

/-- The items with which all branches begin, if each of them is a sequence. -/
def sharedItems (ps : List Pattern) : List Pattern :=
  match ps.mapM seqItems? with
  | some (first :: rest) => rest.foldl commonStart first
  | _ => []

/-- One of several patterns. Characters, and also sets, become one set. -/
def choiceIn : (steps : Nat) → List Pattern → Pattern
  | 0, ps => ofBranches ps
  | steps + 1, ps =>
    match ps.flatMap branches with
    | [p] => p
    | ps =>
      match ps.mapM charSet? with
      | some sets => ofSet (sets.foldl .union .none)
      | none =>
        match ps.mapM set? with
        | some sets => ofSet (sets.foldl .union .none)
        | none =>
          match sharedItems ps with
          | [] => ofBranches ps
          | shared =>
            let tails := ps.map fun p => concat (p.items.drop shared.length)
            concat (shared ++ [choiceIn steps tails])

def choice (ps : List Pattern) : Pattern := choiceIn (ps.foldl (fun n p => n + p.count) 1) ps

/-! ### Repetitions -/

/-- A pattern repeated. Where it matches nothing but the empty text, once is as good as more. -/
def repeated (a : Pattern) (least : Nat) (most : Option Nat) (greedy : Bool) : Pattern :=
  let (least, most) :=
    if a.isVoid then (min least 1, some (min (most.getD 1) 1)) else (least, most)
  if most = some 0 then .empty
  else if least = 1 ∧ most = some 1 then a
  else .rep a least most greedy

end Provision.Pattern
