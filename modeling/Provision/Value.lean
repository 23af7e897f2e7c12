import Provision.Expr
import Provision.Number.Layout
import Provision.Ty

/-!
# Values

Literal values: what a default written without references is, and what a check at evaluation time
looks at.
-/

namespace Provision

inductive Value where
  | null
  | bool (value : Bool)
  | number (value : Number)
  | string (text : String)
  | array (items : List Value)
  | object (fields : List (String × Value))

instance : Inhabited Value := ⟨.null⟩

namespace Value

mutual

/-- Equality of values; the order of object keys does not matter. -/
def same : Value → Value → Bool
  | .null, .null => true
  | .bool a, .bool b => a == b
  | .number x, .number y => x.equals y
  | .string s, .string t => s == t
  | .array xs, .array ys => sameList xs ys
  | .object fs, .object gs => fs.length == gs.length && sameFields fs gs
  | _, _ => false

def sameList : List Value → List Value → Bool
  | [], [] => true
  | x :: xs, y :: ys => same x y && sameList xs ys
  | _, _ => false

/-- Whether every field has an equal one under the same key in `gs`. -/
def sameFields : List (String × Value) → List (String × Value) → Bool
  | [], _ => true
  | (key, x) :: rest, gs =>
    (match Table.find? gs key with
      | some y => same x y
      | none => false) && sameFields rest gs

end

mutual

/-- The value of an expression that consists of literals only: numbers may have minus signs before
them, and parentheses do not count. -/
def ofExpr? : Expr → Option Value
  | .lit (.int n) _ => some (.number (Number.ofInt n))
  | .lit (.float x) _ => some (.number x)
  | .lit (.str s) _ => some (.string s)
  | .lit (.bool b) _ => some (.bool b)
  | .lit .null _ => some .null
  | .unary .neg operand _ =>
    match ofExpr? operand with
    | some (.number x) => some (.number x.neg)
    | _ => none
  | .paren inner _ => ofExpr? inner
  | .array items _ => (ofExprs? items).map .array
  | .object fields _ => (ofFields? fields).map fun entries => .object (Table.ofList entries)
  | _ => none

def ofExprs? : List Expr → Option (List Value)
  | [] => some []
  | e :: es => do
    let v ← ofExpr? e
    let vs ← ofExprs? es
    return v :: vs

def ofFields? : List ObjectField → Option (List (String × Value))
  | [] => some []
  | .mk key value _ :: rest => do
    let v ← ofExpr? value
    let entries ← ofFields? rest
    return (key.text, v) :: entries

end

def kind : Value → String
  | .null => "null"
  | .bool _ => "boolean"
  | .number _ => "number"
  | .string _ => "string"
  | .array _ => "array"
  | .object _ => "object"

def string? : Value → Option String
  | .string s => some s
  | _ => none

def number? : Value → Option Number
  | .number x => some x
  | _ => none

mutual

def conforms : Value → Ty → Bool
  | .array items, t => t.leaves.any fun u =>
      match u with
      | .array elem => conformsAll items elem
      | u => u.isAny
  | .object fields, t => t.leaves.any fun u =>
      match u with
      | .object gs => gs.isEmpty || (fields.length == gs.length && conformsFields fields gs)
      | u => u.isAny
  | .null, t => t.leaves.any fun u => u.isAny || u.same .null
  | .bool _, t => t.leaves.any fun u => u.isAny || u.same .boolean
  | .number _, t => t.leaves.any fun u => u.isAny || u.same .number
  | .string _, t => t.leaves.any fun u => u.isAny || u.same .string

def conformsAll : List Value → Ty → Bool
  | [], _ => true
  | v :: vs, t => conforms v t && conformsAll vs t

/-- Whether every field can have the type under its key. -/
def conformsFields : List (String × Value) → List (String × Ty) → Bool
  | [], _ => true
  | (key, v) :: rest, gs =>
    (match Table.find? gs key with
      | some t => conforms v t
      | none => false) && conformsFields rest gs

end

/-- The text of a number among values: a whole number of less than 16 digits has no sign at zero. -/
def numberText (x : Number) : String :=
  match x.toInt? with
  | some n => if n.natAbs < Nat.pow 10 15 then toString n else x.text
  | none => x.text

mutual

def text : Value → String
  | .null => "null"
  | .bool b => if b then "true" else "false"
  | .number x => numberText x
  | .string s => "\"" ++ s ++ "\""
  | .array items => "[" ++ ", ".intercalate (textList items) ++ "]"
  | .object [] => "\x7b\x7d"
  | .object (f :: fs) => "\x7b " ++ ", ".intercalate (textFields (f :: fs)) ++ " \x7d"

def textList : List Value → List String
  | [] => []
  | v :: vs => text v :: textList vs

def textFields : List (String × Value) → List String
  | [] => []
  | (key, v) :: rest => s!"{key}: {text v}" :: textFields rest

end

end Value

end Provision
