import Provision.Decorator.Builtin
import Provision.Session.Checking
import Provision.Session.Orders
import Provision.Session.Registration
import Provision.Session.Shape

/-!
# The checker

`Checker.check` takes a program to what is known about it, or to everything that is wrong with it.
-/

namespace Provision.Checker

def builtin : Checker := { registry := .builtin }

/-- Visits a whole program: the shapes of decorations, then the names, then the declarations, then
the orders. -/
def visit (k : Checker) (p : Program) : Checking Session.Orders := do
  Session.walkShapes k p.items
  Session.registerProgram p.items
  Session.checkDecls k p.items
  Session.orderProgram

/-- What a session without findings knows about a program. -/
def conclude (s : Session) (orders : Session.Orders) : CheckedProgram where
  scopes := s.scopes
  instances := s.instances
  order := orders.top
  componentOrders := orders.components
  componentScopes := s.components.map fun c => (c.1, c.2.scope)
  deferred := s.deferred

/-- Checks a program. Values written out in the source are looked at only if nothing else is
wrong. -/
def check (k : Checker) (p : Program) : Except (List Diagnostic) CheckedProgram :=
  let (orders, s) := (k.visit p).run {}
  if s.findings.isEmpty then
    let checked := conclude s orders
    let refused := if k.validateDefaults then checked.defaultFindings else []
    if refused.isEmpty then .ok checked else .error refused
  else .error s.findings

end Provision.Checker
