import Provision.Decorator
import Provision.ImportRef

/-!
# `@existing`

A resource that is imported under a reference instead of being made.
-/

namespace Provision.Decorator.Existing

def spec : Spec where
  name := "existing"
  shape := .forms [.literal [.string]]
  targets := [.resource]

/-- Checks also that the reference is of a known form. -/
def checkShape (d : Decoration) : Except Diagnostic Unit := do
  spec.checkShape d
  match d.args.positional?.bind Expr.string? with
  | none => return
  | some reference =>
    if Text.isBlankText reference then throw (.typeError .blankImport d.span)
    else
      match ImportRef.classify? reference with
      | some _ => return
      | none => throw (.typeError (.unknownImport reference) d.span)

end Provision.Decorator.Existing

namespace Provision.Decorator

def existing : Decorator := { ofSpec Existing.spec with checkShape := Existing.checkShape }

end Provision.Decorator
