/-!
# Dependencies

A graph whose nodes are names, numbered in the order of their registration, and whose edges say
that one name depends on another. The number decides between nodes wherever there is a choice.

* `DependencyGraph.findCycle?` walks the graph depth first and gives the first cycle that it meets.
* `DependencyGraph.order` lists every name after all that it depends on; of the names that could
  come next it takes the one registered first.
-/

namespace Provision

/-- Where a dependency comes from: it was asked for, or a value reads the other name. -/
inductive EdgeKind where
  | explicit
  | implicit
deriving Repr, DecidableEq

/-- A dependency of one node on another. -/
structure Edge where
  source : Nat
  target : Nat
  kind : EdgeKind
deriving Repr, DecidableEq

/-- Names and the dependencies between them, both in the order of their registration. -/
structure DependencyGraph where
  nodes : List String := []
  edges : List Edge := []
deriving Repr, DecidableEq

namespace DependencyGraph

def index? (g : DependencyGraph) (name : String) : Option Nat := g.nodes.idxOf? name

/-- Registers a name and gives its number; a known name keeps its own. -/
def addNode (g : DependencyGraph) (name : String) : Nat × DependencyGraph :=
  match g.index? name with
  | some i => (i, g)
  | none => (g.nodes.length, { g with nodes := g.nodes ++ [name] })

def edge? (g : DependencyGraph) (source target : Nat) : Option Edge :=
  g.edges.find? fun e => e.source == source && e.target == target

/-- Registers a dependency of one name on another. Of several between the same names the first
stays. -/
def addEdge (g : DependencyGraph) (dependent dependency : String) (kind : EdgeKind) :
    DependencyGraph :=
  let (source, g) := g.addNode dependent
  let (target, g) := g.addNode dependency
  match g.edge? source target with
  | some _ => g
  | none => { g with edges := g.edges ++ [⟨source, target, kind⟩] }

def contains (g : DependencyGraph) (name : String) : Bool := g.nodes.contains name

/-- The nodes that a node depends on, by their numbers. -/
def targets (g : DependencyGraph) (i : Nat) : List Nat :=
  ((g.edges.filter (·.source == i)).map (·.target)).mergeSort

def name (g : DependencyGraph) (i : Nat) : String := g.nodes[i]?.getD ""

/-- The names that a name depends on, in the order of their registration. -/
def dependencies (g : DependencyGraph) (name : String) : List String :=
  match g.index? name with
  | some i => (g.targets i).map g.name
  | none => []

/-- The kind of the dependency of one name on another. -/
def kind? (g : DependencyGraph) (dependent dependency : String) : Option EdgeKind := do
  let source ← g.index? dependent
  let target ← g.index? dependency
  return (← g.edge? source target).kind

/-! ### Cycles -/

/-- The cycle that the edge from the head of `path` to `back` closes; `path` lists the nodes of the
walk, the last one first. -/
def closeCycle (path : List Nat) (back : Nat) : List Nat :=
  back :: ((path.takeWhile (· != back)).reverse ++ [back])

/-- Walks on from a node that lies at the end of `path`. `done` are the nodes from which no cycle
can be reached; the result adds those visited, unless a cycle turns up. The nodes of a walk differ,
so `steps` need not exceed their number. -/
def visit (g : DependencyGraph) :
    (steps : Nat) → (path done : List Nat) → Nat → Except (List Nat) (List Nat)
  | 0, _, done, _ => .ok done
  | steps + 1, path, done, node => do
    let path := node :: path
    let done ← (g.targets node).foldlM (fun done next =>
      if path.contains next then .error (closeCycle path next)
      else if done.contains next then .ok done
      else g.visit steps path done next) done
    return node :: done

def visitAll (g : DependencyGraph) : Except (List Nat) (List Nat) :=
  (List.range g.nodes.length).foldlM (fun done node =>
    if done.contains node then .ok done else g.visit g.nodes.length [] done node) []

/-- The first cycle that a walk meets; its first name stands at its end again. -/
def findCycle? (g : DependencyGraph) : Option (List String) :=
  match g.visitAll with
  | .ok _ => none
  | .error path => some (path.map g.name)

/-! ### Order -/

def sources (g : DependencyGraph) (i : Nat) : List Nat :=
  (g.edges.filter (·.target == i)).map (·.source)

/-- What is left to do while nodes are listed: for how many nodes each node still waits, and which
of those that wait for none are to be listed. -/
structure Agenda where
  pending : List Nat
  ready : List Nat
deriving Repr, DecidableEq

def agenda (g : DependencyGraph) : Agenda :=
  let nodes := List.range g.nodes.length
  let pending := nodes.map fun i => (g.targets i).length
  { pending, ready := nodes.filter fun i => pending[i]? == some 0 }

/-- A node waits for one node less, and is ready if it waits for none then. There is nothing to
take off a count of zero. -/
def Agenda.countDown (a : Agenda) (node : Nat) : Option Agenda :=
  match a.pending[node]? with
  | some (n + 1) =>
    some { pending := a.pending.set node n, ready := if n = 0 then node :: a.ready else a.ready }
  | _ => none

/-- Lists nodes one after the other, each time the first registered one of those that are ready;
all nodes that depend on it wait for one less then. There is no list if a count were to fall below
zero, which never happens. No node is listed twice, so `steps` need not exceed their number. -/
def orderFrom (g : DependencyGraph) : (steps : Nat) → Agenda → Option (List Nat)
  | 0, _ => some []
  | steps + 1, a =>
    match a.ready.min? with
    | none => some []
    | some node => do
      let a ← (g.sources node).foldlM Agenda.countDown { a with ready := a.ready.erase node }
      return node :: (← g.orderFrom steps a)

/-- All names, each after those that it depends on, or a cycle. -/
def order (g : DependencyGraph) : Except (List String) (List String) :=
  match g.findCycle? with
  | some path => .error path
  | none => .ok (((g.orderFrom g.nodes.length g.agenda).getD []).map g.name)

def cycleMessage (path : List String) : String :=
  "dependency cycle detected: " ++ " -> ".intercalate path

end DependencyGraph

end Provision
