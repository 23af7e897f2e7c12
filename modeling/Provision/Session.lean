import Provision.Checked

/-!
# Sessions

A session is the state of a check: the scopes built so far, what was found, and where in the
program the check is. Checks that go on after a finding are `Checking`; those that end with it, as
the type of an expression does, are `Inferring`.
-/

namespace Provision

structure Checker where
  registry : Registry
  /-- How deep expressions may be nested. -/
  maxDepth : Nat := 512
  /-- Whether values written out in the source are checked at the end. -/
  validateDefaults : Bool := true

structure ComponentInfo where
  body : List Decl
  scope : ScopeId
  /-- The components with instances in its body. -/
  uses : List String := []
  /-- The instances of the top level that its body needs. -/
  externals : List String := []
  /-- The instances of it at the top level. -/
  instances : List String := []

/-- The top level or the body of a component, with the dependencies of its instances. -/
structure Body where
  component : Option String := none
  graph : DependencyGraph := {}

def addOnce (xs : List String) (x : String) : List String :=
  if xs.contains x then xs else xs ++ [x]

structure Session where
  scopes : Scopes := {}
  /-- What was found, in order. -/
  findings : List Diagnostic := []
  /-- The lists of decorations in which one has a wrong shape, by the span of their first. -/
  halted : List Span := []
  /-- The declarations that made it into a scope, by the span of their name. -/
  registered : List Span := []
  /-- The type aliases by their scope and name. -/
  aliases : List (ScopeId × String) := []
  /-- The schemas by their scope and name. -/
  schemas : List ((ScopeId × String) × SchemaDecl) := []
  components : Table ComponentInfo := []
  /-- The bodies with their scopes. -/
  bodies : List (ScopeId × Body) := [(ScopeId.global, {})]
  instances : Table InstanceInfo := []
  deferred : List DeferredCheck := []
  /-- The scope of the body that is being visited. -/
  body : ScopeId := ScopeId.global
  /-- The component whose body is being visited. -/
  component : Option String := none
  /-- The instance whose initialisers are being checked. -/
  reader : Option String := none
  /-- How many expressions are around the one that is being checked. -/
  depth : Nat := 0

abbrev Checking := StateM Session

abbrev Inferring := ExceptT Diagnostic (StateM Session)

namespace Session

def report (d : Diagnostic) : Checking Unit :=
  modify fun s => { s with findings := s.findings ++ [d] }

def reportProblem (p : Problem) (span : Span) : Checking Unit := report (.typeError p span)

/-- Whether there is nothing to run for a list of decorations. -/
def isHalted (s : Session) : List Decoration → Bool
  | [] => true
  | first :: _ => s.halted.contains first.span

def isRegistered (s : Session) (name : Ident) : Bool := s.registered.contains name.span

def markRegistered (name : Ident) : Checking Unit :=
  modify fun s => { s with registered := name.span :: s.registered }

/-- Binds a name in the current scope, unless it is bound there, which is a finding. -/
def declare (name : Ident) (type : Ty) : Checking Bool := do
  match (← get).scopes.declare name.text type with
  | .ok scopes =>
    modify fun s => { s with scopes }
    return true
  | .error e =>
    report (.ofScope e name.span)
    return false

def enter (scope : ScopeId) : Checking Unit :=
  modify fun s => { s with scopes := s.scopes.enter scope }

def inScope (scope : ScopeId) (act : Checking α) : Checking α := do
  let before := (← get).scopes.current
  enter scope
  let result ← act
  enter before
  return result

def inBody (component : String) (scope : ScopeId) (act : Checking α) : Checking α :=
  inScope scope do
    let before := (← get).body
    modify fun s => { s with body := scope, component := some component }
    let result ← act
    modify fun s => { s with body := before, component := none }
    return result

/-- The binding of a name in the current scope itself, or `any`. -/
def boundType (s : Session) (name : Ident) : Ty := (s.scopes.get? name.text).getD .any

/-- The name of a declaration in the current scope, qualified by the component around it. -/
def qualified (s : Session) (name : String) : String := s.scopes.qualify s.scopes.current name

/-- Changes the dependencies of the body that is being visited. -/
def modifyGraph (f : DependencyGraph → DependencyGraph) (scope : ScopeId) : Checking Unit :=
  modify fun s => { s with
    bodies := s.bodies.map fun b =>
      if b.1 = scope then (b.1, { b.2 with graph := f b.2.graph }) else b }

def modifyComponent (name : String) (f : ComponentInfo → ComponentInfo) : Checking Unit :=
  modify fun s => { s with components := s.components.modify name f }

def modifyInstance (name : String) (f : InstanceInfo → InstanceInfo) : Checking Unit :=
  modify fun s => { s with instances := s.instances.modify name f }

mutual

/-- The type that a written type stands for: a built-in one, an alias, a schema or a component. -/
def resolveType (s : Session) : TypeExpr → Except Diagnostic Ty
  | .named name =>
    match Scalar.ofKeyword? name.text with
    | some kind => .ok (.scalar kind)
    | none =>
      if name.text = "object" then .ok (.object [])
      else
        match s.scopes.resolve name.text with
        | .error e => .error (.ofScope e name.span)
        | .ok (scope, found) =>
          if s.aliases.contains (scope, name.text) then .ok found
          else
            match found with
            | .schema _ _ _ => .ok found
            | .component _ none _ _ _ => .ok found
            | _ => .error (.typeError (.notAType name.text) name.span)
  | .array elem _ => do return .array (← s.resolveType elem)
  | .union variants _ => do return Ty.ofVariants (← s.resolveTypes variants)

def resolveTypes (s : Session) : List TypeExpr → Except Diagnostic (List Ty)
  | [] => .ok []
  | t :: ts => do
    let type ← s.resolveType t
    let types ← s.resolveTypes ts
    return type :: types

end

end Session

end Provision
