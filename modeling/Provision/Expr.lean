import Provision.Number
import Provision.Span

/-!
# Expressions

Expressions as they are written, each with its span; parentheses stay visible.
-/

namespace Provision

structure Ident where
  text : String
  span : Span
deriving Repr, DecidableEq, Inhabited

inductive Lit where
  | int (value : Int)
  | float (value : Number)
  | str (text : String)
  | bool (value : Bool)
  | null
deriving Repr, DecidableEq

inductive UnaryOp where
  | not
  | neg
deriving Repr, DecidableEq

/-- An operator between two operands. -/
inductive BinaryOp where
  | or
  | and
  | eq
  | ne
  | lt
  | le
  | gt
  | ge
  | add
  | sub
  | mul
  | div
deriving Repr, DecidableEq

mutual

inductive Expr where
  | lit (value : Lit) (span : Span)
  | var (name : Ident)
  | member (object : Expr) (field : Ident) (span : Span)
  | array (items : List Expr) (span : Span)
  | object (fields : List ObjectField) (span : Span)
  | unary (op : UnaryOp) (operand : Expr) (span : Span)
  | call (callee : Expr) (args : List Expr) (span : Span)
  | binary (lhs : Expr) (op : BinaryOp) (rhs : Expr) (span : Span)
  | paren (inner : Expr) (span : Span)

/-- A key of an object literal with its value. -/
inductive ObjectField where
  | mk (key : Ident) (value : Expr) (span : Span)

end

instance : Inhabited Expr := ⟨.lit .null default⟩

namespace ObjectField

def key : ObjectField → Ident
  | .mk key _ _ => key

def value : ObjectField → Expr
  | .mk _ value _ => value

def span : ObjectField → Span
  | .mk _ _ span => span

end ObjectField

namespace Expr

def span : Expr → Span
  | .lit _ s => s
  | .var name => name.span
  | .member _ _ s => s
  | .array _ s => s
  | .object _ s => s
  | .unary _ _ s => s
  | .call _ _ s => s
  | .binary _ _ _ s => s
  | .paren _ s => s

/-- The segments of `a`, `a.b`, `a.b.c` and so on, parentheses aside; nothing else is a path. -/
def path? : Expr → Option (List Ident)
  | .var name => some [name]
  | .member base field _ => base.path?.map (· ++ [field])
  | .paren inner _ => inner.path?
  | _ => none

end Expr

end Provision
