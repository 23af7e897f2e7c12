import Provision.Decorator
import Provision.ImportRef

/-!
# Checked programs

What a check finds out about a program in order: the types of its names, its instances with their
dependencies and the order in which they are evaluated, and the checks that wait for values.
-/

namespace Provision

/-- What an instance is an instance of. -/
inductive InstanceKind where
  | resource (schema : String)
  | component (component : String)
deriving Repr, DecidableEq

/-- What a resource is imported from. -/
structure ExistingRef where
  reference : String
  kind : ImportRef
deriving Repr, DecidableEq

/-- A resource or an instance of a component. -/
structure InstanceInfo where
  /-- Its name, qualified by the component around it. -/
  name : String
  kind : InstanceKind
  /-- The component whose body declares it. -/
  component : Option String
  /-- The qualified names that it depends on, each once. -/
  dependencies : List String := []
  tags : Table (Option String) := []
  providers : List String := []
  count : Option Nat := none
  existing : Option ExistingRef := none
  span : Span

/-- A check of a decorator that waits for a value. -/
structure DeferredCheck where
  decorator : Decorator
  args : Arguments
  /-- The qualified name of the declaration. -/
  target : String
  /-- The value that the declaration has in the source, if it is written out. -/
  default : Option Value
  span : Span

def DeferredCheck.run (c : DeferredCheck) (v : Value) : Except Diagnostic Unit :=
  match c.decorator.checkValue c.args v with
  | .ok _ => .ok ()
  | .error fault => .error (.validation c.decorator.name c.target fault)

structure CheckedProgram where
  scopes : Scopes
  instances : Table InstanceInfo
  /-- The instances of the top level, each after those that it depends on. -/
  order : List String
  /-- The instances in the body of each component, each after those that it depends on. -/
  componentOrders : Table (List String)
  /-- The scope of the body of each component. -/
  componentScopes : Table ScopeId
  deferred : List DeferredCheck

namespace CheckedProgram

def globals (p : CheckedProgram) : Table Ty := p.scopes.bindings ScopeId.global

def lookup? (p : CheckedProgram) (name : String) : Option Ty := Table.find? p.globals name

def componentBindings? (p : CheckedProgram) (component : String) : Option (Table Ty) :=
  (Table.find? p.componentScopes component).map p.scopes.bindings

def instance? (p : CheckedProgram) (name : String) : Option InstanceInfo :=
  Table.find? p.instances name

def dependencies? (p : CheckedProgram) (name : String) : Option (List String) :=
  (p.instance? name).map (·.dependencies)

/-- The order of the instances in the body of a component. -/
def componentOrder? (p : CheckedProgram) (component : String) : Option (List String) :=
  Table.find? p.componentOrders component

/-- What the waiting checks find wrong with values that are written out in the source. -/
def defaultFindings (p : CheckedProgram) : List Diagnostic :=
  p.deferred.filterMap fun c =>
    match c.default with
    | none => none
    | some v =>
      match c.run v with
      | .ok _ => none
      | .error d => some d

end CheckedProgram

end Provision
