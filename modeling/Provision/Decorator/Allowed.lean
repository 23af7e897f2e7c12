import Provision.Decorator

/-!
# `@allowed`

An input has one of a few values, or is an array of such values.
-/

namespace Provision.Decorator.Allowed

def literals : List LitKind := [.number, .string, .boolean, .null]

def spec : Spec where
  name := "allowed"
  shape := .forms [.literal literals, .literals literals]
  targets := [.input]
  restriction := .oneOf [.string, .number, .array, .object]
  deferred := true

/-- The permitted values: the elements of an array, else the one argument. -/
def candidates? (args : Arguments) : Option (List Value) :=
  match args.positional? with
  | some (.array items _) => Value.ofExprs? items
  | some arg => (Value.ofExpr? arg).map fun v => [v]
  | none => none

/-- Checks that there are values, and only such; objects may be among them. -/
def checkShape (d : Decoration) : Except Diagnostic Unit :=
  match d.args.positional? with
  | none => spec.checkShape d
  | some (.array [] _) => .error (.typeError (.needsValue spec.name) d.span)
  | some arg =>
    match candidates? d.args with
    | some _ => .ok ()
    | none => .error (.typeError (.notLiteral spec.name arg.describe) d.span)

/-- Whether a permitted value can be one of the declaration or of its elements. -/
def fits (type : Ty) (v : Value) : Bool := v.conforms type || type.elem?.any v.conforms

/-- Checks also that every permitted value is one that the declaration can have. -/
def checkType (d : Decoration) (site : Site) (type : Ty) : Except Diagnostic Unit := do
  spec.checkType d site type
  match ((candidates? d.args).getD []).find? fun v => !fits type v with
  | some v => .error (.typeError (.incompatibleValue spec.name v site.name type) d.span)
  | none => .ok ()

def permits (allowed : List Value) (v : Value) : Bool := allowed.any (·.same v)

/-- Checks the elements of an array from an index on. -/
def checkElements (allowed : List Value) : (index : Nat) → List Value → Except ValueFault Unit
  | _, [] => .ok ()
  | index, v :: rest =>
    if permits allowed v then checkElements allowed (index + 1) rest
    else .error (.notAllowed (.element index v) allowed)

/-- Checks that a value is permitted, or is an array of permitted values. -/
def checkValue (args : Arguments) (v : Value) : Except ValueFault Unit :=
  let allowed := (candidates? args).getD []
  if permits allowed v then .ok ()
  else
    match v with
    | .array items => checkElements allowed 0 items
    | other => .error (.notAllowed (.whole other) allowed)

end Provision.Decorator.Allowed

namespace Provision.Decorator

def allowed : Decorator :=
  { ofSpec Allowed.spec with
    checkShape := Allowed.checkShape
    checkType := Allowed.checkType
    checkValue := Allowed.checkValue }

end Provision.Decorator
