import Provision.Cursor

/-!
# Reading expressions

An operand and what follows it are read with a *power*: an operator is taken only if it binds at
least that tightly, and its right operand is read with a power one higher, so operators of one
level group to the left. Member access and calls bind tighter than every operator, and the
operators before an operand tighter than those between operands.
-/

namespace Provision

/-- The operator between operands that a mark stands for. -/
def BinaryOp.ofMark? : Punct → Option BinaryOp
  | .either => some .or
  | .both => some .and
  | .equal => some .eq
  | .notEqual => some .ne
  | .less => some .lt
  | .lessEqual => some .le
  | .greater => some .gt
  | .greaterEqual => some .ge
  | .plus => some .add
  | .minus => some .sub
  | .star => some .mul
  | .slash => some .div
  | _ => none

def BinaryOp.power : BinaryOp → Nat
  | .or => 1
  | .and => 3
  | .eq | .ne => 5
  | .lt | .le | .gt | .ge => 7
  | .add | .sub => 10
  | .mul | .div => 20

/-- How tightly an operator before its operand binds. -/
def UnaryOp.power : Nat := 100

namespace Expr

open Parse

mutual

/-- Reads an expression whose operators bind at least as tightly as `power`, inside `depth`
others. -/
def parse : (steps depth power : Nat) → Parse Expr
  | 0, _, _ => throw .stalled
  | steps + 1, depth, power => do
    if depth < maxNesting then
      let operand ← parseOperand steps (depth + 1)
      parseRest steps (depth + 1) power operand
    else throw .nestedTooDeep

def parseOperand : (steps depth : Nat) → Parse Expr
  | 0, _ => throw .stalled
  | steps + 1, depth => do
    let ⟨token, span⟩ ← current
    match token with
    | .punct .bang =>
      advance
      let operand ← parse steps depth UnaryOp.power
      return .unary .not operand (span.to operand.span)
    | .punct .minus =>
      advance
      let operand ← parse steps depth UnaryOp.power
      return .unary .neg operand (span.to operand.span)
    | .int value =>
      advance
      return .lit (.int value) span
    | .float value =>
      advance
      return .lit (.float value) span
    | .str text =>
      advance
      return .lit (.str text) span
    | .keyword .truth =>
      advance
      return .lit (.bool true) span
    | .keyword .falsity =>
      advance
      return .lit (.bool false) span
    | .keyword .nothing =>
      advance
      return .lit .null span
    | .ident text =>
      advance
      return .var ⟨text, span⟩
    | .punct .openParen =>
      advance
      let inner ← parse steps depth 0
      let close ← expect (.punct .closeParen)
      return .paren inner ⟨span.start, close.stop⟩
    | .punct .openBracket =>
      advance
      let items ← parseItems steps depth
      expectMark .closeBracket
      return .array items (← spanFrom span.start)
    | .punct .openBrace =>
      advance
      let fields ← parseFields steps depth
      expectMark .closeBrace
      return .object fields (← spanFrom span.start)
    | .fault cause => throw (.fault cause span.start)
    | other => throw (.notAnExpression other)

/-- Reads what follows the operand `lhs`: member accesses, calls and operators. -/
def parseRest : (steps depth power : Nat) → Expr → Parse Expr
  | 0, _, _, _ => throw .stalled
  | steps + 1, depth, power, lhs => do
    match ← token with
    | .punct .dot =>
      advance
      let field ← name
      parseRest steps depth power (.member lhs field (lhs.span.to field.span))
    | .punct .openParen =>
      advance
      let args ← parseCall steps depth
      expectMark .closeParen
      parseRest steps depth power (.call lhs args (← spanFrom lhs.span.start))
    | .punct mark =>
      match BinaryOp.ofMark? mark with
      | some op =>
        if op.power < power then return lhs
        else
          advance
          let rhs ← parse steps depth (op.power + 1)
          parseRest steps depth power (.binary lhs op rhs (lhs.span.to rhs.span))
      | none => return lhs
    | _ => return lhs

/-- Reads the elements of an array up to its closing bracket. -/
def parseItems : (steps depth : Nat) → Parse (List Expr)
  | 0, _ => throw .stalled
  | steps + 1, depth => do
    skipSeparators
    if ← isAt .closeBracket then return []
    else
      let item ← parse steps depth 0
      return item :: (← parseItems steps depth)

/-- Reads the fields of an object up to its closing brace. -/
def parseFields : (steps depth : Nat) → Parse (List ObjectField)
  | 0, _ => throw .stalled
  | steps + 1, depth => do
    skipSeparators
    if ← isAt .closeBrace then return []
    else
      let start ← start
      let key ← name
      expectMark .colon
      let value ← parse steps depth 0
      let field := .mk key value (← spanFrom start)
      return field :: (← parseFields steps depth)

/-- Reads the arguments of a call up to its closing parenthesis. -/
def parseCall : (steps depth : Nat) → Parse (List Expr)
  | 0, _ => throw .stalled
  | steps + 1, depth => do
    if ← isAt .closeParen then return [] else parseList steps depth

/-- Reads one or more expressions with commas between them. -/
def parseList : (steps depth : Nat) → Parse (List Expr)
  | 0, _ => throw .stalled
  | steps + 1, depth => do
    let item ← parse steps depth 0
    if ← isAt .comma then
      advance
      return item :: (← parseList steps depth)
    else return [item]

end

end Expr

end Provision
