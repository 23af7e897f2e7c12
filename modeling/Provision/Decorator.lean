import Provision.Diagnostic

/-!
# Decorators

A decorator checks a declaration in stages: the shape of its arguments, the kind of the
declaration, the type of the declaration, and in the end the value that the declaration gets. Its
`Spec` fixes what the first three stages do in general; `Decorator.ofSpec` is the decorator that
adds nothing to them.
-/

namespace Provision

namespace Spec

/-- What a message says that was found in place of an argument. -/
def describeFound : Arguments → String
  | .value arg => arg.describe
  | .named _ => "named arguments"
  | .bare => "no argument"
  | .empty => "no argument"

/-- Checks named arguments in turn; `seen` are the names before. Gives all names seen. -/
def checkNamed (decorator : String) (params : List NamedParam) :
    (seen : List String) → List NamedArg → Except Diagnostic (List String)
  | seen, [] => .ok seen
  | seen, arg :: rest =>
    let key := arg.name.text
    match params.find? (·.name == key) with
    | none => .error (.typeError (.unknownArgument decorator key) arg.span)
    | some param =>
      if seen.contains key then
        .error (.typeError (.repeatedArgument decorator key) arg.span)
      else if arg.value.isLiteral param.kinds then
        checkNamed decorator params (key :: seen) rest
      else
        .error (.typeError
          (.wrongArgument decorator key param.kinds arg.value.describe) arg.span)

def checkShape (spec : Spec) (d : Decoration) : Except Diagnostic Unit :=
  match spec.shape, d.args with
  | .bare _, .bare => .ok ()
  | .bare true, .empty => .ok ()
  | .bare _, _ => .error (.typeError (.takesNoArguments spec.name) d.span)
  | .forms forms, .value arg =>
    if forms.any (·.holds arg) then .ok ()
    else .error (.typeError (.wrongForm spec.name forms (describeFound d.args)) d.span)
  | .forms forms, args =>
    .error (.typeError (.wrongForm spec.name forms (describeFound args)) d.span)
  | .named params, .named args => do
    let seen ← checkNamed spec.name params [] args
    match params.find? fun p => p.required && !seen.contains p.name with
    | some missing => .error (.typeError (.missingArgument spec.name missing.name) d.span)
    | none => .ok ()
  | .named params, _ =>
    .error (.typeError (.needsNamedArguments spec.name (params.map (·.name))) d.span)

def checkTarget (spec : Spec) (d : Decoration) (site : Site) : Except Diagnostic Unit :=
  if !spec.targets.contains site.target then
    .error (.typeError (.wrongTarget spec.name site spec.targets) d.span)
  else if spec.instancesOnly && site.definition then
    .error (.typeError (.onDefinition spec.name site.name) d.span)
  else .ok ()

def checkType (spec : Spec) (d : Decoration) (site : Site) (type : Ty) : Except Diagnostic Unit :=
  match spec.restriction with
  | .unrestricted => .ok ()
  | .oneOf classes =>
    if spec.restriction.admits type then .ok ()
    else .error (.typeError (.wrongType spec.name site.name type classes) d.span)

end Spec

structure Decorator where
  spec : Spec
  /-- Checks the arguments; no names are looked up for that. -/
  checkShape : Decoration → Except Diagnostic Unit
  /-- Checks the kind of the declaration and gives the references among the arguments. -/
  checkTarget : Decoration → Site → Except Diagnostic (List Reference)
  /-- Checks the type of the declaration. -/
  checkType : Decoration → Site → Ty → Except Diagnostic Unit
  /-- Checks a value of the declaration. -/
  checkValue : Arguments → Value → Except ValueFault Unit

namespace Decorator

/-- The decorator that checks what its description says and no more. -/
def ofSpec (spec : Spec) : Decorator where
  spec := spec
  checkShape := spec.checkShape
  checkTarget d site := do
    spec.checkTarget d site
    return []
  checkType := spec.checkType
  checkValue _ _ := .ok ()

def name (d : Decorator) : String := d.spec.name

end Decorator

/-- Decorators under distinct names, in the order of their registration. -/
structure Registry where
  decorators : List Decorator := []

namespace Registry

def get? (r : Registry) (name : String) : Option Decorator :=
  r.decorators.find? (·.name == name)

def names (r : Registry) : List String := r.decorators.map (·.name)

def size (r : Registry) : Nat := r.decorators.length

/-- The error of registering a second decorator under a name. -/
structure NameTaken where
  name : String
deriving Repr, DecidableEq

def NameTaken.message (e : NameTaken) : String := s!"decorator @{e.name} is already registered"

/-- Registers a decorator under its name, which must not be taken. -/
def register (r : Registry) (d : Decorator) : Except NameTaken Registry :=
  match r.get? d.name with
  | some _ => .error ⟨d.name⟩
  | none => .ok ⟨r.decorators ++ [d]⟩

end Registry

end Provision
