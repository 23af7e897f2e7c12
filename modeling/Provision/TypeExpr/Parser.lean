import Provision.Cursor
import Provision.Decl

/-!
# Reading types

A type is one or more parts with `|` between them; a part is a name or a type in parentheses,
followed by any number of `[]`.
-/

namespace Provision.TypeExpr

open Parse

/-- Reads `[]` as often as it follows the type `elem`, which starts at `start`. -/
def parseSuffixes : (steps start : Nat) → TypeExpr → Parse TypeExpr
  | 0, _, _ => throw .stalled
  | steps + 1, start, elem => do
    if (← isAt .openBracket) && (← following) == .punct .closeBracket then
      advance
      advance
      parseSuffixes steps start (.array elem (← spanFrom start))
    else return elem

mutual

def parse : (steps : Nat) → Parse TypeExpr
  | 0 => throw .stalled
  | steps + 1 => do
    let start ← start
    let first ← parsePart steps
    if ← isAt .bar then
      let others ← parseOthers steps
      return .union (first :: others) (← spanFrom start)
    else return first

/-- Reads the further parts of a union, each behind a `|`. -/
def parseOthers : (steps : Nat) → Parse (List TypeExpr)
  | 0 => throw .stalled
  | steps + 1 => do
    if ← isAt .bar then
      advance
      let part ← parsePart steps
      return part :: (← parseOthers steps)
    else return []

def parsePart : (steps : Nat) → Parse TypeExpr
  | 0 => throw .stalled
  | steps + 1 => do
    let start ← start
    if ← isAt .openParen then
      advance
      let inner ← parse steps
      expectMark .closeParen
      parseSuffixes steps start inner
    else
      let name ← ident
      parseSuffixes steps start (.named name)

end

end Provision.TypeExpr
