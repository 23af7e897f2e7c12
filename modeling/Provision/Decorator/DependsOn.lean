import Provision.Decorator

/-!
# `@dependsOn`

An instance is evaluated after those that it names, `name` or `kind.name`.
-/

namespace Provision.Decorator.DependsOn

def spec : Spec where
  name := "dependsOn"
  shape := .forms [.reference, .references]
  targets := [.resource, .component]
  instancesOnly := true

/-- The references of an argument: the elements of an array, else the argument itself. -/
def elements : Expr → List Expr
  | .array items _ => items
  | other => [other]

/-- Whether an expression is a path of more than two names. -/
def isLong (e : Expr) : Bool := e.path?.any fun path => 2 < path.length

/-- Checks also that there is a reference and that none is too long. -/
def checkShape (d : Decoration) : Except Diagnostic Unit := do
  spec.checkShape d
  match d.args.positional? with
  | none => return
  | some arg =>
    let refs := elements arg
    if refs.isEmpty then throw (.typeError .needsReference d.span)
    else
      match refs.find? isLong with
      | some r => throw (.typeError (.longReference (Expr.pathText (r.path?.getD []))) r.span)
      | none => return

def reference? (e : Expr) : Option Reference := e.path?.map fun path => ⟨path, e.span⟩

def checkTarget (d : Decoration) (site : Site) : Except Diagnostic (List Reference) := do
  spec.checkTarget d site
  match d.args.positional? with
  | none => return []
  | some arg => return (elements arg).filterMap reference?

end Provision.Decorator.DependsOn

namespace Provision.Decorator

def dependsOn : Decorator :=
  { ofSpec DependsOn.spec with
    checkShape := DependsOn.checkShape
    checkTarget := DependsOn.checkTarget }

end Provision.Decorator
