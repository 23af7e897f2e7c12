import Mathlib.Tactic
import Provision.Dependency

/-!
# Dependency graphs

What registration does to a graph: the names in it stay distinct and its edges run between them
(`WellFormed`), a new name is added and no other (`mem_nodes_addNode`), and so is a new dependency
(`hasKind_addEdge`). `build` makes a graph by registrations alone.
-/

namespace Provision

open List

/-- The first name stands in a list before the second. -/
def Precedes (l : List String) (a b : String) : Prop := a ∈ l ∧ b ∈ l ∧ l.idxOf a < l.idxOf b

namespace DependencyGraph

/-! ### Nodes and edges -/

/-- The graph says that one name depends on another. -/
def HasEdge (g : DependencyGraph) (a b : String) : Prop :=
  ∃ e ∈ g.edges, g.nodes[e.source]? = some a ∧ g.nodes[e.target]? = some b

/-- An edge of a kind runs from one name to another. -/
def HasKind (g : DependencyGraph) (a b : String) (kind : EdgeKind) : Prop :=
  ∃ e ∈ g.edges, g.nodes[e.source]? = some a ∧ g.nodes[e.target]? = some b ∧ e.kind = kind

/-- The names differ, and edges run between nodes. -/
structure WellFormed (g : DependencyGraph) : Prop where
  nodup : g.nodes.Nodup
  bounds : ∀ e ∈ g.edges, e.source < g.nodes.length ∧ e.target < g.nodes.length

theorem wellFormed_empty : WellFormed {} := ⟨nodup_nil, by simp⟩

variable {g : DependencyGraph} {a b x y : String} {kind : EdgeKind}

theorem hasEdge_iff : g.HasEdge a b ↔ ∃ kind, g.HasKind a b kind := by
  constructor
  · rintro ⟨e, he, ha, hb⟩
    exact ⟨e.kind, e, he, ha, hb, rfl⟩
  · rintro ⟨-, e, he, ha, hb, -⟩
    exact ⟨e, he, ha, hb⟩

@[simp] theorem edges_addNode : (g.addNode a).2.edges = g.edges := by
  unfold addNode
  split <;> rfl

theorem getElem?_addNode : (g.addNode a).2.nodes[(g.addNode a).1]? = some a := by
  unfold addNode
  split
  · next i h => exact List.getElem?_eq_some_iff.mpr (by
      obtain ⟨hi, ha, -⟩ := idxOf?_eq_some_iff.mp h
      exact ⟨hi, by simpa using ha⟩)
  · simp

/-- The nodes that were there keep their places. -/
theorem nodes_prefix_addNode : g.nodes <+: (g.addNode a).2.nodes := by
  unfold addNode
  split
  · exact prefix_refl _
  · exact prefix_append _ _

theorem mem_nodes_addNode : x ∈ (g.addNode a).2.nodes ↔ x ∈ g.nodes ∨ x = a := by
  unfold addNode
  split
  · next i h =>
    have ha : a ∈ g.nodes := isSome_idxOf?.mp (by rw [index?] at h; rw [h]; rfl)
    exact ⟨Or.inl, fun hx => hx.elim id fun e => e ▸ ha⟩
  · simp

theorem getElem?_prefix_eq {l l' : List String} (h : l <+: l') {i : Nat} (hi : i < l.length) :
    l'[i]? = l[i]? := by
  obtain ⟨r, rfl⟩ := h
  exact getElem?_append_left hi

theorem WellFormed.addNode (hg : g.WellFormed) (a : String) : (g.addNode a).2.WellFormed where
  nodup := by
    unfold DependencyGraph.addNode
    split
    · exact hg.nodup
    · next h =>
      have ha : a ∉ g.nodes := idxOf?_eq_none_iff.mp h
      exact nodup_append.mpr ⟨hg.nodup, nodup_singleton a, by
        rintro x hx y hy rfl
        exact ha (mem_singleton.mp hy ▸ hx)⟩
  bounds e he := by
    rw [edges_addNode] at he
    have hlen := (nodes_prefix_addNode (g := g) (a := a)).length_le
    have := hg.bounds e he
    omega

theorem hasKind_addNode (hg : g.WellFormed) :
    (g.addNode a).2.HasKind x y kind ↔ g.HasKind x y kind := by
  unfold HasKind
  rw [edges_addNode]
  refine exists_congr fun e => and_congr_right fun he => ?_
  obtain ⟨hs, ht⟩ := hg.bounds e he
  rw [getElem?_prefix_eq nodes_prefix_addNode hs, getElem?_prefix_eq nodes_prefix_addNode ht]

theorem hasEdge_addNode (hg : g.WellFormed) : (g.addNode a).2.HasEdge x y ↔ g.HasEdge x y := by
  simp only [hasEdge_iff, hasKind_addNode hg]

theorem addEdge_eq : g.addEdge a b kind =
    let ga := (g.addNode a).2
    let gb := (ga.addNode b).2
    match gb.edge? (g.addNode a).1 (ga.addNode b).1 with
    | some _ => gb
    | none => { gb with edges := gb.edges ++ [⟨(g.addNode a).1, (ga.addNode b).1, kind⟩] } := rfl

theorem nodes_addEdge : (g.addEdge a b kind).nodes = ((g.addNode a).2.addNode b).2.nodes := by
  rw [addEdge_eq]
  dsimp only
  split <;> rfl

theorem mem_nodes_addEdge : x ∈ (g.addEdge a b kind).nodes ↔ x ∈ g.nodes ∨ x = a ∨ x = b := by
  rw [nodes_addEdge, mem_nodes_addNode, mem_nodes_addNode, or_assoc]

theorem getElem?_ends :
    ((g.addNode a).2.addNode b).2.nodes[(g.addNode a).1]? = some a ∧
    ((g.addNode a).2.addNode b).2.nodes[((g.addNode a).2.addNode b).1]? = some b := by
  refine ⟨?_, getElem?_addNode⟩
  have ha := getElem?_addNode (g := g) (a := a)
  rw [getElem?_prefix_eq nodes_prefix_addNode (List.getElem?_eq_some_iff.mp ha).1, ha]

/-- Adding an edge keeps a graph well-formed. -/
theorem WellFormed.addEdge (hg : g.WellFormed) (a b : String) (kind : EdgeKind) :
    (g.addEdge a b kind).WellFormed where
  nodup := by
    rw [nodes_addEdge]
    exact ((hg.addNode a).addNode b).nodup
  bounds e he := by
    have hgb := (hg.addNode a).addNode b
    obtain ⟨ha, hb⟩ := getElem?_ends (g := g) (a := a) (b := b)
    rw [nodes_addEdge]
    rw [addEdge_eq] at he
    dsimp only at he
    split at he
    · exact hgb.bounds e he
    · rcases mem_append.mp he with he | he
      · exact hgb.bounds e he
      · obtain rfl := mem_singleton.mp he
        exact ⟨(List.getElem?_eq_some_iff.mp ha).1, (List.getElem?_eq_some_iff.mp hb).1⟩

/-- An edge is found by its ends exactly if there is one. -/
theorem edge?_isSome_iff (hg : g.WellFormed) {i j : Nat} (hi : g.nodes[i]? = some a)
    (hj : g.nodes[j]? = some b) : (g.edge? i j).isSome ↔ g.HasEdge a b := by
  have hat : ∀ {k l : Nat} {c : String}, g.nodes[k]? = some c → g.nodes[l]? = some c → l = k := by
    intro k l c hk hl
    exact (List.getElem?_inj (List.getElem?_eq_some_iff.mp hl).1 hg.nodup).mp (hl.trans hk.symm)
  rw [edge?, find?_isSome]
  simp only [Bool.and_eq_true, beq_iff_eq]
  constructor
  · rintro ⟨e, he, rfl, rfl⟩
    exact ⟨e, he, hi, hj⟩
  · rintro ⟨e, he, hsrc, htgt⟩
    exact ⟨e, he, hat hi hsrc, hat hj htgt⟩

/-- Registering a dependency adds it, unless it is there, and no other. -/
theorem hasKind_addEdge (hg : g.WellFormed) {kind' : EdgeKind} :
    (g.addEdge a b kind).HasKind x y kind' ↔
      g.HasKind x y kind' ∨ (x = a ∧ y = b ∧ kind' = kind ∧ ¬ g.HasEdge a b) := by
  have hends := getElem?_ends (g := g) (a := a) (b := b)
  -- Both nodes are there before the edge is looked for, and nodes add no edges.
  have hthere := edge?_isSome_iff ((hg.addNode a).addNode b) hends.1 hends.2
  rw [hasEdge_addNode (hg.addNode a), hasEdge_addNode hg] at hthere
  rw [← hasKind_addNode hg (a := a), ← hasKind_addNode (hg.addNode a) (a := b), ← hthere,
    addEdge_eq]
  dsimp only
  split
  · next e he => simp [he]
  · next he =>
    rw [he]
    unfold HasKind
    simp only [mem_append, mem_singleton]
    constructor
    · rintro ⟨e, he | rfl, hx, hy, rfl⟩
      · exact Or.inl ⟨e, he, hx, hy, rfl⟩
      · rw [hends.1] at hx
        rw [hends.2] at hy
        exact Or.inr ⟨(Option.some.inj hx).symm, (Option.some.inj hy).symm, rfl, by simp⟩
    · rintro (⟨e, he, h⟩ | ⟨rfl, rfl, rfl, -⟩)
      · exact ⟨e, Or.inl he, h⟩
      · exact ⟨_, Or.inr rfl, hends.1, hends.2, rfl⟩

/-- An added edge is there, and no other edge comes or goes. -/
theorem hasEdge_addEdge (hg : g.WellFormed) :
    (g.addEdge a b kind).HasEdge x y ↔ g.HasEdge x y ∨ (x = a ∧ y = b) := by
  rw [hasEdge_iff, hasEdge_iff (a := x)]
  simp only [hasKind_addEdge hg, exists_or]
  refine or_congr_right' fun hxy => ?_
  rw [← hasEdge_iff] at hxy
  constructor
  · rintro ⟨-, rfl, rfl, -⟩
    exact ⟨rfl, rfl⟩
  · rintro ⟨rfl, rfl⟩
    exact ⟨kind, rfl, rfl, rfl, hxy⟩

theorem HasEdge.mem_nodes (h : g.HasEdge a b) : a ∈ g.nodes ∧ b ∈ g.nodes := by
  obtain ⟨e, -, ha, hb⟩ := h
  exact ⟨mem_of_getElem? ha, mem_of_getElem? hb⟩

theorem mem_targets {i j : Nat} : j ∈ g.targets i ↔ ∃ e ∈ g.edges, e.source = i ∧ e.target = j := by
  simp [targets, and_assoc]

theorem WellFormed.target_lt (hg : g.WellFormed) {i j : Nat} (h : j ∈ g.targets i) :
    j < g.nodes.length := by
  obtain ⟨e, he, -, rfl⟩ := mem_targets.mp h
  exact (hg.bounds e he).2

theorem mem_sources {i j : Nat} : i ∈ g.sources j ↔ j ∈ g.targets i := by
  simp [sources, mem_targets, and_comm, and_assoc]

/-! ### Registration -/

/-- A registration: of a name, or of a dependency of one name on another. -/
inductive Registration where
  | node (name : String)
  | edge (dependent dependency : String) (kind : EdgeKind)
deriving Repr, DecidableEq

def register (g : DependencyGraph) : Registration → DependencyGraph
  | .node a => (g.addNode a).2
  | .edge a b kind => g.addEdge a b kind

/-- The graph that registrations build, one after the other. -/
def build (rs : List Registration) : DependencyGraph := rs.foldl register {}

theorem WellFormed.register (hg : g.WellFormed) : ∀ r, (g.register r).WellFormed
  | .node a => hg.addNode a
  | .edge a b kind => hg.addEdge a b kind

theorem wellFormed_build (rs : List Registration) : (build rs).WellFormed :=
  foldlRecOn rs register wellFormed_empty fun _ hg r _ => hg.register r

end DependencyGraph

end Provision
