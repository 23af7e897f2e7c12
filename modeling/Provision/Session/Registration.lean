import Provision.Session

/-!
# Registration

All names that may be used before their declaration are bound first: schemas, type aliases,
components with their inputs and outputs, functions, instances, and inputs, outputs and variables
with a type. Aliases may use each other in any order, and a component may use one that is declared
after it, so components get their signatures before their bodies are registered.
-/

namespace Provision.Session

def declareSchemas : List Decl → Checking Unit
  | [] => return
  | .schema d :: rest => do
    if ← declare d.name (.schema d.name.text [] []) then
      markRegistered d.name
      modify fun s => { s with schemas := ((s.scopes.current, d.name.text), d) :: s.schemas }
    declareSchemas rest
  | _ :: rest => declareSchemas rest

def aliasesOf (ds : List Decl) : List AliasDecl :=
  ds.filterMap fun d =>
    match d with
    | .alias a => some a
    | _ => none

/-- Binds those aliases whose type can be resolved, and gives the others. -/
def bindAliases : List AliasDecl → Checking (List AliasDecl)
  | [] => return []
  | a :: rest => do
    match (← get).resolveType a.type with
    | .ok type =>
      if ← declare a.name type then
        modify fun s => { s with aliases := (s.scopes.current, a.name.text) :: s.aliases }
      bindAliases rest
    | .error _ => return a :: (← bindAliases rest)

def reportAliases : List AliasDecl → Checking Unit
  | [] => return
  | a :: rest => do
    match (← get).resolveType a.type with
    | .ok _ => pure ()
    | .error finding => report finding
    reportAliases rest

/-- Binds aliases round by round, as long as a round binds one. -/
def registerAliases : (rounds : Nat) → List AliasDecl → Checking Unit
  | 0, _ => return
  | _, [] => return
  | rounds + 1, pending => do
    let stuck ← bindAliases pending
    if stuck.length = pending.length then reportAliases stuck
    else registerAliases rounds stuck

/-- The types of the properties of a schema, added to those before them. -/
def propertyTypes : Table Ty → List SchemaProperty → Checking (Table Ty)
  | types, [] => return types
  | types, p :: rest => do
    if types.contains p.name.text then
      report (.declarationExists p.name.text p.name.span)
      propertyTypes types rest
    else
      match (← get).resolveType p.type with
      | .ok type => propertyTypes (types.insert p.name.text type) rest
      | .error finding =>
        report finding
        propertyTypes (types.insert p.name.text .any) rest

def fillSchemas : List Decl → Checking Unit
  | [] => return
  | .schema d :: rest => do
    if (← get).isRegistered d.name then
      let properties ← propertyTypes [] d.properties
      modify fun s => { s with scopes := s.scopes.modify d.name.text fun t =>
        match t with
        | .schema name _ resources => .schema name properties resources
        | other => other }
    fillSchemas rest
  | _ :: rest => fillSchemas rest

/-- Binds what types can be made of: schemas and aliases. -/
def registerTypes (ds : List Decl) : Checking Unit := do
  declareSchemas ds
  let pending := aliasesOf ds
  registerAliases (pending.length + 1) pending
  fillSchemas ds

/-- Notes an instance, and gives its qualified name. -/
def addInstance (name : Ident) (kind : InstanceKind) (span : Span) : Checking String := do
  let s ← get
  let qualified := s.qualified name.text
  let info : InstanceInfo := { name := qualified, kind, component := s.component, span }
  modifyGraph (fun g => (g.addNode qualified).2) s.body
  modify fun s => { s with instances := s.instances.insert qualified info }
  return qualified

def registerTyped (name : Ident) (type : TypeExpr) : Checking Bool := do
  match (← get).resolveType type with
  | .ok type => declare name type
  | .error finding =>
    report finding
    return false

/-- The type of a function; its result is `any` as long as it is not known. -/
def functionType (s : Session) (d : FunDecl) : Except Diagnostic Ty := do
  let params ← s.resolveTypes (d.params.map (·.type))
  match d.result with
  | some t => return .function params (← s.resolveType t)
  | none => return .function params .any

def registerFunction (d : FunDecl) : Checking Bool := do
  match (← get).functionType d with
  | .ok type => declare d.name type
  | .error finding =>
    report finding
    return false

def addResource (name : String) (resource : Ty) : Ty → Ty
  | .schema schema properties resources =>
    .schema schema properties (Table.insert resources name resource)
  | other => other

/-- Binds a resource. Its schema gets to know it if both are in one scope. -/
def registerResource (d : ResourceDecl) : Checking Bool := do
  match (← get).scopes.lookup d.schema.text with
  | .ok (.schema schema properties _) =>
    let type : Ty := .resource d.name.text schema properties
    if ← declare d.name type then
      modify fun s => { s with
        scopes := s.scopes.modify d.schema.text (addResource d.name.text type) }
      let _ ← addInstance d.name (.resource schema) d.span
      return true
    else return false
  | .ok other =>
    reportProblem (.notASchema d.name.text d.schema.text other) d.schema.span
    return false
  | .error e =>
    report (.ofScope e d.schema.span)
    return false

/-- Binds an instance of a component. In the body of a component it is a use of the other one, at
the top level an instance of it. -/
def registerInstance (d : InstanceDecl) : Checking Bool := do
  match (← get).scopes.lookup d.component.text with
  | .ok (.component component none inputs outputs nested) =>
    if ← declare d.name (.component component (some d.name.text) inputs outputs nested) then
      let qualified ← addInstance d.name (.component component) d.span
      match (← get).component with
      | some outer =>
        modifyComponent outer fun c => { c with uses := addOnce c.uses component }
      | none =>
        modifyComponent component fun c => { c with instances := c.instances ++ [qualified] }
      return true
    else return false
  | .ok other =>
    reportProblem (.notADefinition d.component.text other) d.component.span
    return false
  | .error e =>
    report (.ofScope e d.component.span)
    return false

/-- Binds a declaration that is neither a type nor a component; a variable without a type is
bound when it is checked. -/
def registerMember : Decl → Checking Bool
  | .function d => registerFunction d
  | .input d => registerTyped d.name d.type
  | .output d => registerTyped d.name d.type
  | .var d =>
    match d.type with
    | some type => registerTyped d.name type
    | none => return false
  | .resource d => registerResource d
  | .inst d => registerInstance d
  | _ => return false

/-- Binds functions, instances, and inputs, outputs and variables with a type. -/
def registerMembers : List Decl → Checking Unit
  | [] => return
  | d :: rest => do
    if ← registerMember d then markRegistered d.name
    registerMembers rest

/-- The inputs and the outputs of a component. -/
structure Signature where
  inputs : Table Ty := []
  outputs : Table Ty := []

/-- The signature that the body of a component declares, added to the part before; a component in
it is a finding. A type that cannot be resolved is reported where the body is registered. -/
def signatureOf (component : String) : Signature → List Decl → Checking Signature
  | sig, [] => return sig
  | sig, .input d :: rest => do
    let type := ((← get).resolveType d.type).toOption.getD .any
    signatureOf component { sig with inputs := sig.inputs.insert d.name.text type } rest
  | sig, .output d :: rest => do
    let type := ((← get).resolveType d.type).toOption.getD .any
    signatureOf component { sig with outputs := sig.outputs.insert d.name.text type } rest
  | sig, .component _ name _ _ :: rest => do
    reportProblem (.nestedComponent name.text component) name.span
    signatureOf component sig rest
  | sig, _ :: rest => signatureOf component sig rest

/-- A component whose signature is registered. -/
structure Defined where
  name : Ident
  body : List Decl
  scope : ScopeId

/-- Makes the scope of a component, binds the types in it, and binds the component with its
signature. -/
def defineComponent (name : Ident) (body : List Decl) : Checking (Option Defined) := do
  let (scope, scopes) := (← get).scopes.newChild (some name.text)
  modify fun s => { s with scopes }
  let sig ← inScope scope do
    registerTypes body
    signatureOf name.text {} body
  if ← declare name (.component name.text none sig.inputs sig.outputs []) then
    markRegistered name
    modify fun s => { s with
      components := s.components.insert name.text { body, scope }
      bodies := s.bodies ++ [(scope, { component := some name.text })] }
    return some ⟨name, body, scope⟩
  else return none

def defineComponents : List Decl → Checking (List Defined)
  | [] => return []
  | .component _ name body _ :: rest => do
    let defined ← defineComponent name body
    return defined.toList ++ (← defineComponents rest)
  | _ :: rest => defineComponents rest

/-- Registers the body of a component, and tells the component about the instances in it. -/
def registerBody (c : Defined) : Checking Unit := do
  inBody c.name.text c.scope (registerMembers c.body)
  let nested := ((← get).scopes.bindings c.scope).filterMap fun b =>
    if b.2.instanceName?.isSome then some b.2 else none
  modify fun s => { s with scopes := s.scopes.modify c.name.text fun t =>
    match t with
    | .component name inst inputs outputs _ => .component name inst inputs outputs nested
    | other => other }

def registerBodies : List Defined → Checking Unit
  | [] => return
  | c :: rest => do
    registerBody c
    registerBodies rest

def registerProgram (ds : List Decl) : Checking Unit := do
  registerTypes ds
  registerBodies (← defineComponents ds)
  registerMembers ds

end Provision.Session
