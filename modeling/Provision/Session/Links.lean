import Provision.Session

/-!
# Links

How dependencies between instances are noted. Those within one body are edges of its graph; an
instance of the top level that the body of a component needs is an external of the component, and
in the end every instance of the component depends on it.
-/

namespace Provision.Session

/-- Notes that the component being visited needs an instance of the top level. -/
def noteExternal (scope : ScopeId) (target : String) : Checking Unit := do
  if scope = ScopeId.global then
    match (← get).component with
    | some component =>
      modifyComponent component fun c => { c with externals := addOnce c.externals target }
    | none => return

/-- Notes that an instance depends on another, which `scope` declares. -/
def depend (dependent : String) (scope : ScopeId) (target : String) (kind : EdgeKind) :
    Checking Unit := do
  if scope = (← get).body then
    modifyGraph (fun g => g.addEdge dependent target kind) scope
  else noteExternal scope target
  modifyInstance dependent fun i => { i with dependencies := addOnce i.dependencies target }

/-- Notes that an expression reads an instance, which `scope` declares. -/
def noteRead (scope : ScopeId) (name : String) : Checking Unit := do
  let s ← get
  let target := s.scopes.qualify scope name
  match s.reader with
  | some reader => depend reader scope target .implicit
  | none => if scope = s.body then return else noteExternal scope target

/-- Whether a type is that of an instance, of the given kind if there is one. -/
def isInstanceOf (kind : Option String) : Ty → Bool
  | .resource _ schema _ => kind.all (· == schema)
  | .component component (some _) _ _ _ => kind.all (· == component)
  | _ => false

def splitReference (r : Reference) : Except Diagnostic (Option String × String) :=
  match r.path with
  | [name] => .ok (none, name.text)
  | [kind, name] => .ok (some kind.text, name.text)
  | _ => .error (.typeError (.longReference r.text) r.span)

/-- The instance that a reference means: the scope that declares it, and its qualified name. -/
def resolveReference (s : Session) (r : Reference) : Except Diagnostic (ScopeId × String) := do
  let (kind, name) ← splitReference r
  match s.scopes.resolve name with
  | .error _ => throw (.typeError (.undeclaredReference r.text) r.span)
  | .ok (scope, type) =>
    if isInstanceOf kind type then return (scope, s.scopes.qualify scope name)
    else throw (.typeError (.wrongReference r.text kind) r.span)

/-- Notes that an instance depends on those that some references mean. -/
def linkAll (dependent : String) : List Reference → Checking Unit
  | [] => return
  | r :: rest => do
    match (← get).resolveReference r with
    | .ok (scope, target) => depend dependent scope target .explicit
    | .error finding => report finding
    linkAll dependent rest

end Provision.Session
