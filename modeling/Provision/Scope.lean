import Provision.Ty

/-!
# Scopes

Scopes form a tree: each but the first, global one lies inside a parent that was made before it.
They are numbered in the order of their making, and one of them is current. Names are declared in
the current scope and looked up from it outward.
-/

namespace Provision

abbrev ScopeId := Nat

def ScopeId.global : ScopeId := 0

structure Scope where
  /-- What qualifies the names declared in it: the name of a component. -/
  name : Option String := none
  parent : Option ScopeId := none
  bindings : Table Ty := []

instance : Inhabited Scope := ⟨{}⟩

/-- Why a name could not be looked up or declared. -/
inductive ScopeError where
  | notFound (name : String)
  | declarationExists (name : String)
deriving Repr, DecidableEq

def ScopeError.message : ScopeError → String
  | .notFound name => s!"'{name}' is not defined"
  | .declarationExists name => s!"'{name}' is already declared in this scope"

/-- All scopes, and which of them is current. -/
structure Scopes where
  all : List Scope := [{}]
  current : ScopeId := ScopeId.global

namespace Scopes

def scope (e : Scopes) (s : ScopeId) : Scope := e.all[s]?.getD {}

/-- Makes a child of the current scope, which stays current, and gives its number. -/
def newChild (e : Scopes) (name : Option String) : ScopeId × Scopes :=
  (e.all.length, { e with all := e.all ++ [{ name, parent := some e.current }] })

def enter (e : Scopes) (s : ScopeId) : Scopes := { e with current := s }

def parent? (e : Scopes) (s : ScopeId) : Option ScopeId := (e.scope s).parent

/-- The bindings of a scope in the order of their declaration. -/
def bindings (e : Scopes) (s : ScopeId) : Table Ty := (e.scope s).bindings

/-- The scopes from `s` outward, over at most `steps` of them. -/
def chainFrom (e : Scopes) : (steps : Nat) → ScopeId → List ScopeId
  | 0, _ => []
  | steps + 1, s =>
    s :: match e.parent? s with
      | some p => e.chainFrom steps p
      | none => []

/-- The scopes from `s` outward. A parent has a smaller number than its child, so there are no
more of them than scopes. -/
def chain (e : Scopes) (s : ScopeId) : List ScopeId := e.chainFrom e.all.length s

def bindingIn? (e : Scopes) (name : String) (s : ScopeId) : Option (ScopeId × Ty) :=
  (Table.find? (e.bindings s) name).map fun t => (s, t)

/-- The nearest binding of a name from the current scope outward, and the scope that holds it. -/
def resolve (e : Scopes) (name : String) : Except ScopeError (ScopeId × Ty) :=
  match (e.chain e.current).findSome? (e.bindingIn? name) with
  | some found => .ok found
  | none => .error (.notFound name)

def lookup (e : Scopes) (name : String) : Except ScopeError Ty := return (← e.resolve name).2

/-- The binding of a name in the current scope itself. -/
def get? (e : Scopes) (name : String) : Option Ty := Table.find? (e.bindings e.current) name

def modifyBindings (e : Scopes) (f : Table Ty → Table Ty) : Scopes :=
  { e with all := e.all.modify e.current fun s => { s with bindings := f s.bindings } }

/-- Binds a name in the current scope, in place of any binding there. -/
def set (e : Scopes) (name : String) (type : Ty) : Scopes :=
  e.modifyBindings fun t => t.insert name type

/-- Changes the type of a name that the current scope binds. -/
def modify (e : Scopes) (name : String) (f : Ty → Ty) : Scopes :=
  e.modifyBindings fun t => t.modify name f

/-- Declares a name in the current scope, which must not bind it yet. -/
def declare (e : Scopes) (name : String) (type : Ty) : Except ScopeError Scopes :=
  match e.get? name with
  | some _ => .error (.declarationExists name)
  | none => .ok (e.set name type)

/-- A name with the names of all scopes around it that have one, the outermost first. -/
def qualify (e : Scopes) (s : ScopeId) (name : String) : String :=
  let qualifiers := (e.chain s).filterMap fun s => (e.scope s).name
  ".".intercalate (name :: qualifiers).reverse

end Scopes

end Provision
