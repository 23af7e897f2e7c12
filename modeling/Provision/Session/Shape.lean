import Provision.Session

/-!
# The shapes of decorations

Before any name is looked up every decoration of a program is checked for its shape. A list of
decorations stops at the first one that is wrong, and none of the list is looked at again.
-/

namespace Provision.Session

variable (k : Checker)

def checkDecoration (d : Decoration) : Except Diagnostic Unit :=
  match k.registry.get? d.name.text with
  | some decorator => decorator.checkShape d
  | none => .error (.typeError (.unknownDecorator d.name.text) d.name.span)

/-- The first finding about the shapes of some decorations. -/
def shapeFinding? : List Decoration → Option Diagnostic
  | [] => none
  | d :: rest =>
    match checkDecoration k d with
    | .ok _ => shapeFinding? rest
    | .error finding => some finding

def checkShapes (ds : List Decoration) : Checking Unit := do
  match shapeFinding? k ds, ds with
  | some finding, first :: _ =>
    report finding
    modify fun s => { s with halted := first.span :: s.halted }
  | _, _ => return

/-- Checks the shapes of the decorations on the properties of a schema. -/
def checkPropertyShapes : List SchemaProperty → Checking Unit
  | [] => return
  | p :: rest => do
    checkShapes k p.decorations
    checkPropertyShapes rest

mutual

/-- Checks the shapes of all decorations on a declaration and inside it. -/
def walkShape : Decl → Checking Unit
  | .schema d => do
    checkShapes k d.decorations
    checkPropertyShapes k d.properties
  | .component ds _ body _ => do
    checkShapes k ds
    walkShapes body
  | .resource d => checkShapes k d.decorations
  | .inst d => checkShapes k d.decorations
  | .input d => checkShapes k d.decorations
  | .output d => checkShapes k d.decorations
  | .var d => checkShapes k d.decorations
  | .function d => checkShapes k d.decorations
  | .alias d => checkShapes k d.decorations

/-- Checks the shapes of all decorations on some declarations. -/
def walkShapes : List Decl → Checking Unit
  | [] => return
  | d :: rest => do
    walkShape d
    walkShapes rest

end

end Provision.Session
