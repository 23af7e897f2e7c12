import Provision.Expr
import Provision.Number.Layout

/-!
# Literals among expressions

The literal, the text or the reference that an argument expression stands for, and how a message
describes such an expression.
-/

namespace Provision.Expr

/-- The literal that an expression stands for, minus signs before numbers included. -/
def literal? : Expr → Option Lit
  | .lit value _ => some value
  | .paren inner _ => literal? inner
  | .unary .neg operand _ =>
    match literal? operand with
    | some (.int n) => some (.int (-n))
    | some (.float x) => some (.float x.neg)
    | _ => none
  | _ => none

/-- The text of a string literal, parentheses aside. -/
def string? : Expr → Option String
  | .lit (.str s) _ => some s
  | .paren inner _ => string? inner
  | _ => none

def pathText (path : List Ident) : String := ".".intercalate (path.map Ident.text)

def describeLit : Lit → String
  | .int n => s!"integer {n}"
  | .float x => s!"number {x.text}"
  | .str s => s!"string \"{s}\""
  | .bool b => s!"boolean {b}"
  | .null => "null"

def describe (e : Expr) : String :=
  match e.literal? with
  | some value => describeLit value
  | none =>
    match e.path? with
    | some path => s!"reference {pathText path}"
    | none =>
      match e with
      | .array _ _ => "array"
      | .object _ _ => "object"
      | _ => "expression"

end Provision.Expr
