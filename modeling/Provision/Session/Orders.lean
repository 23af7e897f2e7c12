import Provision.Session

/-!
# Orders

At the end of a check every graph is put in order. What the body of a component needs from the top
level, its users need too, and so do its instances at the top level; components that use each other
in a cycle are a finding.
-/

namespace Provision.Session

/-- Which component has instances of which in its body. -/
def usage (s : Session) : DependencyGraph :=
  s.components.foldl (fun g c =>
    c.2.uses.foldl (fun g used => g.addEdge c.1 used .implicit) (g.addNode c.1).2) {}

/-- What the components that a component uses need from the top level. -/
def inherited (s : Session) (name : String) : List String :=
  match s.components.find? name with
  | some c => c.uses.flatMap fun used => ((s.components.find? used).map (·.externals)).getD []
  | none => []

/-- Hands what components need on to those that use them; every component stands after those that
it uses. -/
def inheritExternals : List String → Checking Unit
  | [] => return
  | name :: rest => do
    let more := (← get).inherited name
    modifyComponent name fun c => { c with externals := more.foldl addOnce c.externals }
    inheritExternals rest

/-- The instances at the top level with what their components need. -/
def externalLinks (s : Session) : List (String × String) :=
  s.components.flatMap fun c =>
    c.2.instances.flatMap fun inst => c.2.externals.map fun target => (inst, target)

/-- Notes that instances of the top level depend on others. -/
def linkExternals : List (String × String) → Checking Unit
  | [] => return
  | (dependent, target) :: rest => do
    modifyGraph (fun g => g.addEdge dependent target .implicit) ScopeId.global
    modifyInstance dependent fun i => { i with dependencies := addOnce i.dependencies target }
    linkExternals rest

/-- Hands on what components need, unless they use each other in a cycle. -/
def linkComponents : Checking Unit := do
  match (← get).usage.order with
  | .ok order => inheritExternals order
  | .error path => report (.cycle path)
  linkExternals (← get).externalLinks

structure Orders where
  /-- That of the top level. -/
  top : List String := []
  components : Table (List String) := []

def Orders.add (o : Orders) (body : Body) (order : List String) : Orders :=
  match body.component with
  | none => { o with top := order }
  | some name => { o with components := o.components.insert name order }

/-- Puts bodies in order, added to those before them; a cycle is a finding. -/
def orderBodies : Orders → List (ScopeId × Body) → Checking Orders
  | orders, [] => return orders
  | orders, (_, body) :: rest => do
    match body.graph.order with
    | .ok order => orderBodies (orders.add body order) rest
    | .error path =>
      report (.cycle path)
      orderBodies orders rest

def orderProgram : Checking Orders := do
  linkComponents
  orderBodies {} (← get).bodies

end Provision.Session
