import Provision.Proofs.Dependency.Order

/-!
# What registrations leave in a graph

A graph that is built by registrations has the names in the order in which they are first mentioned,
one edge for each pair of names that was registered, and this has the kind of the first registration
(`build_content`). Nothing else matters to the walk that looks for a cycle and to the order: the
targets of a node are listed by their numbers, whatever the edges were registered in
(`targets_eq_filter`), and there is only one greedy list of all names.
-/

namespace Provision.DependencyGraph

open List

variable {g g' : DependencyGraph} {a b x y : String} {kind : EdgeKind}

/-! ### Registrations -/

def Registration.names : Registration → List String
  | .node a => [a]
  | .edge a b _ => [a, b]

/-- The kind of the dependency of one name on another that a registration makes. -/
def Registration.kind? (a b : String) : Registration → Option EdgeKind
  | .node _ => none
  | .edge a' b' kind => if a' = a ∧ b' = b then some kind else none

/-- The names that registrations mention, each where it is mentioned first. -/
def mentioned (rs : List Registration) : List String := (rs.flatMap Registration.names).eraseDups

/-- The kind of the first registration of a dependency. -/
def firstKind? (rs : List Registration) (a b : String) : Option EdgeKind :=
  rs.findSome? (·.kind? a b)

theorem isSome_firstKind? {rs : List Registration} :
    (firstKind? rs a b).isSome ↔ ∃ kind, .edge a b kind ∈ rs := by
  rw [firstKind?, findSome?_isSome_iff]
  constructor
  · rintro ⟨r, hr, hkind⟩
    cases r with
    | node => cases hkind
    | edge a' b' kind =>
      rw [Registration.kind?] at hkind
      split at hkind
      · next h => exact ⟨kind, h.1 ▸ h.2 ▸ hr⟩
      · cases hkind
  · rintro ⟨kind, hr⟩
    exact ⟨_, hr, by simp [Registration.kind?]⟩

def Simple (g : DependencyGraph) : Prop := (g.edges.map fun e => (e.source, e.target)).Nodup

theorem Simple.register (hg : g.Simple) (r : Registration) : (g.register r).Simple := by
  cases r with
  | node a => rwa [Simple, DependencyGraph.register, edges_addNode]
  | edge a b kind =>
    rw [DependencyGraph.register, addEdge_eq, Simple]
    dsimp only
    split
    · rwa [edges_addNode, edges_addNode]
    · next hnone =>
      have hnew := find?_eq_none.mp hnone
      rw [edges_addNode, edges_addNode] at hnew ⊢
      rw [map_append, map_singleton]
      refine Nodup.append hg (nodup_singleton _) ?_
      simp only [disjoint_singleton, mem_map, Prod.mk.injEq, not_exists, not_and]
      intro e he hsrc htgt
      exact hnew e he (by simp [hsrc, htgt])

theorem nodes_addNode {l : List String} (h : g.nodes = l.eraseDups) (a : String) :
    (g.addNode a).2.nodes = (l ++ [a]).eraseDups := by
  rw [eraseDups_append, ← h]
  unfold addNode index?
  cases hidx : g.nodes.idxOf? a with
  | some i =>
    have ha : a ∈ l := by
      rw [← mem_eraseDups, ← h]
      exact isSome_idxOf?.mp (by rw [hidx]; rfl)
    simp [removeAll, ha]
  | none =>
    have ha : a ∉ l := by
      rw [← mem_eraseDups, ← h]
      exact idxOf?_eq_none_iff.mp hidx
    simp [removeAll, ha, eraseDups_cons]

theorem nodes_register {l : List String} (h : g.nodes = l.eraseDups) (r : Registration) :
    (g.register r).nodes = (l ++ r.names).eraseDups := by
  cases r with
  | node a => exact nodes_addNode h a
  | edge a b kind =>
    rw [register, nodes_addEdge, nodes_addNode (nodes_addNode h a), append_assoc]
    rfl

theorem hasKind_register (hg : g.WellFormed) (r : Registration) :
    (g.register r).HasKind x y kind ↔
      g.HasKind x y kind ∨ (¬ g.HasEdge x y ∧ r.kind? x y = some kind) := by
  cases r with
  | node a =>
    rw [register, hasKind_addNode hg]
    simp [Registration.kind?]
  | edge a b kind' =>
    rw [register, hasKind_addEdge hg]
    refine or_congr_right ⟨?_, ?_⟩
    · rintro ⟨rfl, rfl, rfl, hnew⟩
      exact ⟨hnew, if_pos ⟨rfl, rfl⟩⟩
    · rintro ⟨hnew, hkind⟩
      rw [Registration.kind?] at hkind
      split at hkind
      · next h =>
        obtain ⟨rfl, rfl⟩ := h
        exact ⟨rfl, rfl, (Option.some.inj hkind).symm, hnew⟩
      · cases hkind

/-! ### Graphs that registrations build -/

theorem simple_build (rs : List Registration) : (build rs).Simple :=
  foldlRecOn rs register nodup_nil fun _ hg r _ => hg.register r

theorem nodes_build (rs : List Registration) : (build rs).nodes = mentioned rs := by
  have hrun : ∀ (rs : List Registration) {g : DependencyGraph} {l : List String},
      g.nodes = l.eraseDups →
      (rs.foldl register g).nodes = (l ++ rs.flatMap Registration.names).eraseDups := by
    intro rs
    induction rs with
    | nil => intro g l h; simpa using h
    | cons r rs ih =>
      intro g l h
      rw [foldl_cons, ih (nodes_register h r), flatMap_cons, append_assoc]
  exact hrun rs (l := []) rfl

theorem hasKind_foldl_register (hg : g.WellFormed) (rs : List Registration) :
    (rs.foldl register g).HasKind x y kind ↔
      g.HasKind x y kind ∨ (¬ g.HasEdge x y ∧ firstKind? rs x y = some kind) := by
  induction rs generalizing g with
  | nil => simp [firstKind?]
  | cons r rs ih =>
    have hedge : (g.register r).HasEdge x y ↔ g.HasEdge x y ∨ (r.kind? x y).isSome := by
      rw [hasEdge_iff, Option.isSome_iff_exists]
      simp only [hasKind_register hg, exists_or, exists_and_left, ← hasEdge_iff]
      tauto
    rw [foldl_cons, ih (hg.register r), hasKind_register hg, hedge, firstKind?, firstKind?,
      findSome?_cons]
    cases r.kind? x y with
    | none => simp
    | some kind' => simp

theorem hasKind_build (rs : List Registration) :
    (build rs).HasKind x y kind ↔ firstKind? rs x y = some kind := by
  rw [build, hasKind_foldl_register wellFormed_empty]
  simp [HasKind, HasEdge]

theorem hasEdge_build (rs : List Registration) :
    (build rs).HasEdge x y ↔ (firstKind? rs x y).isSome := by
  rw [hasEdge_iff, Option.isSome_iff_exists]
  exact exists_congr fun kind => hasKind_build rs

/-! ### Names and numbers -/

theorem WellFormed.index?_eq_some (hg : g.WellFormed) {i : Nat} :
    g.index? a = some i ↔ g.nodes[i]? = some a := by
  rw [index?, idxOf?_eq_some_iff, getElem?_eq_some_iff]
  refine exists_congr fun hi => and_iff_left_of_imp fun ha j hj hja => ?_
  exact absurd ((hg.nodup.getElem_inj_iff).mp (hja.trans ha.symm)) (Nat.ne_of_lt hj)

theorem kind?_eq_some (hg : g.WellFormed) (hs : g.Simple) :
    g.kind? a b = some kind ↔ g.HasKind a b kind := by
  simp only [kind?, Option.bind_eq_bind, Option.bind_eq_some_iff, hg.index?_eq_some,
    Option.pure_def, Option.some.injEq]
  constructor
  · rintro ⟨i, hi, j, hj, e, he, rfl⟩
    obtain ⟨rfl, rfl⟩ : e.source = i ∧ e.target = j := by simpa using find?_some he
    exact ⟨e, mem_of_find?_eq_some he, hi, hj, rfl⟩
  · rintro ⟨e, he, ha, hb, rfl⟩
    obtain ⟨e', he'⟩ :=
      Option.isSome_iff_exists.mp ((edge?_isSome_iff hg ha hb).mpr ⟨e, he, ha, hb⟩)
    have hsame : e'.source = e.source ∧ e'.target = e.target := by
      simpa using find?_some he'
    have hmem := mem_of_find?_eq_some he'
    obtain rfl : e' = e :=
      inj_on_of_nodup_map hs hmem he (Prod.ext hsame.1 hsame.2)
    exact ⟨_, ha, _, hb, e', he', rfl⟩

/-- The targets of a node are listed by their numbers, each once. -/
theorem targets_eq_filter (hg : g.WellFormed) (hs : g.Simple) (i : Nat) :
    g.targets i = (range g.nodes.length).filter fun j => (g.edge? i j).isSome := by
  have hnd : ((g.edges.filter (·.source == i)).map (·.target)).Nodup := by
    have hpairs : ((g.edges.filter (·.source == i)).map fun e => (e.source, e.target)).Nodup :=
      hs.sublist (filter_sublist.map _)
    refine Nodup.of_map (Prod.mk i) ?_
    rw [map_map]
    convert hpairs using 1
    refine map_congr_left fun e he => ?_
    simp [(by simpa using (mem_filter.mp he).2 : e.source = i)]
  have hperm := mergeSort_perm ((g.edges.filter (·.source == i)).map (·.target)) (· ≤ ·)
  refine Perm.eq_of_pairwise' (r := (· ≤ ·)) ?_
    ((pairwise_lt_range.imp Nat.le_of_lt).filter _) ?_
  · simpa [targets] using @pairwise_mergeSort Nat (fun i j => decide (i ≤ j))
      (by simp; omega) (by simp; omega) ((g.edges.filter (·.source == i)).map (·.target))
  · refine (perm_ext_iff_of_nodup (hperm.nodup_iff.mpr hnd)
      (nodup_range.filter _)).mpr fun j => ?_
    rw [mem_filter, mem_range, edge?, find?_isSome]
    refine mem_targets.trans ⟨?_, ?_⟩
    · rintro ⟨e, he, rfl, rfl⟩
      exact ⟨(hg.bounds e he).2, e, he, by simp⟩
    · rintro ⟨-, e, he, hpair⟩
      exact ⟨e, he, by simpa using hpair⟩

theorem dependencies_eq_filter (hg : g.WellFormed) (hs : g.Simple) (a : String) :
    g.dependencies a = g.nodes.filter fun b => (g.kind? a b).isSome := by
  have hkind : ∀ b, (g.kind? a b).isSome ↔ g.HasEdge a b := by
    intro b
    simp only [Option.isSome_iff_exists, kind?_eq_some hg hs, hasEdge_iff]
  unfold dependencies
  cases hidx : g.index? a with
  | none =>
    refine (filter_eq_nil_iff.mpr fun b _ hb => ?_).symm
    obtain ⟨i, hi⟩ := mem_iff_getElem?.mp ((hkind b).mp hb).mem_nodes.1
    rw [hg.index?_eq_some.mpr hi] at hidx
    cases hidx
  | some i =>
    have hnodes : (range g.nodes.length).map g.name = g.nodes := by
      refine ext_getElem (by simp) fun j hj _ => ?_
      simp [name, getElem?_eq_getElem (by simpa using hj : j < g.nodes.length)]
    dsimp only
    rw [targets_eq_filter hg hs]
    conv_rhs => rw [← hnodes, filter_map]
    congr 1
    refine filter_congr fun j hj => ?_
    rw [Bool.eq_iff_iff, Function.comp, hkind]
    exact edge?_isSome_iff hg (hg.index?_eq_some.mp hidx)
      (getElem?_name (mem_range.mp hj))

/-! ### Graphs with the same content -/

/-- Two graphs have the same names in the same order and the same dependencies. -/
structure SameContent (g g' : DependencyGraph) : Prop where
  nodes_eq : g.nodes = g'.nodes
  hasEdge_iff : ∀ a b, g.HasEdge a b ↔ g'.HasEdge a b

theorem SameContent.targets_eq (h : g.SameContent g') (hg : g.WellFormed) (hs : g.Simple)
    (hg' : g'.WellFormed) (hs' : g'.Simple) : g.targets = g'.targets := by
  funext i
  by_cases hi : i < g.nodes.length
  · rw [targets_eq_filter hg hs, targets_eq_filter hg' hs', h.nodes_eq]
    refine filter_congr fun j hj => ?_
    rw [← h.nodes_eq, mem_range] at hj
    rw [Bool.eq_iff_iff, edge?_isSome_iff hg (getElem?_name hi) (getElem?_name hj), h.hasEdge_iff]
    refine (edge?_isSome_iff hg' ?_ ?_).symm
    · rw [← h.nodes_eq, getElem?_name hi]
    · rw [← h.nodes_eq, getElem?_name hj]
  · rw [targets_eq_nil hg (Nat.le_of_not_lt hi),
      targets_eq_nil hg' (h.nodes_eq ▸ Nat.le_of_not_lt hi)]

theorem visit_congr (h : g.targets = g'.targets) : ∀ steps, g.visit steps = g'.visit steps
  | 0 => rfl
  | steps + 1 => by
    funext path done node
    rw [visit, visit, visit_congr h steps, h]

theorem SameContent.findCycle?_eq (h : g.SameContent g') (htgts : g.targets = g'.targets) :
    g.findCycle? = g'.findCycle? := by
  have hnm : g.name = g'.name := by
    funext i
    rw [name, name, h.nodes_eq]
  rw [findCycle?, findCycle?, visitAll, visitAll, h.nodes_eq, visit_congr htgts, hnm]

theorem SameContent.isOrder {l : List String} (h : g.SameContent g') (hl : g.IsOrder l) :
    g'.IsOrder l :=
  ⟨hl.nodup, fun a => h.nodes_eq ▸ hl.mem_iff a,
    fun a b hab => hl.precedes a b ((h.hasEdge_iff a b).mpr hab)⟩

theorem SameContent.order_eq (h : g.SameContent g') (hg : g.WellFormed) (hg' : g'.WellFormed)
    (hcyc : g.findCycle? = g'.findCycle?) : g.order = g'.order := by
  cases hfind : g'.findCycle? with
  | some path => rw [order, order, hcyc, hfind]
  | none =>
    have hok : ∀ {g : DependencyGraph}, g.findCycle? = none → ∃ l, g.order = .ok l :=
      fun hnone => ⟨_, by rw [order, hnone]⟩
    obtain ⟨l, hl⟩ := hok (hcyc.trans hfind)
    obtain ⟨l', hl'⟩ := hok hfind
    obtain ⟨hgreedy, hall⟩ := order_spec hg hl
    obtain ⟨hgreedy', hall'⟩ := order_spec hg' hl'
    have hback : g'.SameContent g := ⟨h.nodes_eq.symm, fun a b => (h.hasEdge_iff a b).symm⟩
    rw [hl, hl']
    congr 1
    rcases hgreedy.earlier hall (hback.isOrder (isOrder_order hg' hl')) with heq | hlex
    · exact heq
    rcases hgreedy'.earlier hall' (h.isOrder (isOrder_order hg hl)) with heq | hlex'
    · exact heq.symm
    rw [Earlier, h.nodes_eq] at hlex
    have hasymm : Std.Asymm fun a b => g'.nodes.idxOf a < g'.nodes.idxOf b :=
      ⟨fun a b => Nat.lt_asymm⟩
    exact absurd hlex' ((Lex.asymm _).asymm _ _ hlex)

/-- **What registrations leave.** The names are those mentioned, in the order of their first
mention, and their numbers are their places; each pair of names is joined at most once, by an edge
of the kind of the first registration, and the dependencies of a name are listed by their numbers.
Registrations of the same names in the same order and of the same dependencies, in any order and
any number, give the same cycle and the same order. -/
theorem build_content (rs : List Registration) :
    ((build rs).nodes = mentioned rs ∧ (build rs).nodes.Nodup ∧
      ∀ a i, (build rs).index? a = some i ↔ (build rs).nodes[i]? = some a) ∧
    (((build rs).edges.map fun e => (e.source, e.target)).Nodup ∧
      ∀ a b, (build rs).kind? a b = firstKind? rs a b) ∧
    (∀ a, (build rs).dependencies a =
      (build rs).nodes.filter fun b => (firstKind? rs a b).isSome) ∧
    ∀ rs', mentioned rs = mentioned rs' →
      (∀ a b, (∃ kind, .edge a b kind ∈ rs) ↔ ∃ kind, .edge a b kind ∈ rs') →
      (build rs).findCycle? = (build rs').findCycle? ∧ (build rs).order = (build rs').order := by
  have hg := wellFormed_build rs
  have hs := simple_build rs
  have hkind : ∀ a b, (build rs).kind? a b = firstKind? rs a b := by
    intro a b
    ext kind
    rw [kind?_eq_some hg hs, hasKind_build]
  refine ⟨⟨nodes_build rs, hg.nodup, fun a i => hg.index?_eq_some⟩, ⟨hs, hkind⟩, fun a => ?_,
    fun rs' hnms hegs => ?_⟩
  · simp only [dependencies_eq_filter hg hs, hkind]
  · have hsame : (build rs).SameContent (build rs') := by
      refine ⟨by rw [nodes_build, nodes_build, hnms], fun a b => ?_⟩
      rw [hasEdge_build, hasEdge_build, isSome_firstKind?, isSome_firstKind?, hegs]
    have hg' := wellFormed_build rs'
    have hcyc := hsame.findCycle?_eq (hsame.targets_eq hg hs hg' (simple_build rs'))
    exact ⟨hcyc, hsame.order_eq hg hg' hcyc⟩

/-- The same names and dependencies, registered another way. -/
theorem build_content_reordered :
    let rs : List Registration :=
      [.node "app", .edge "app" "db" .implicit, .edge "app" "net" .implicit,
        .edge "db" "net" .explicit]
    let rs' : List Registration :=
      [.node "app", .node "db", .edge "db" "net" .implicit, .edge "app" "net" .explicit,
        .edge "app" "db" .explicit, .edge "db" "net" .explicit]
    (build rs).kind? "db" "net" ≠ (build rs').kind? "db" "net" ∧
      (build rs).order = (build rs').order := by
  intro rs rs'
  obtain ⟨-, ⟨-, hkind⟩, -, hsame⟩ := build_content rs
  refine ⟨by rw [hkind]; decide, (hsame rs' (by decide) fun a b => ?_).2⟩
  simp only [rs, rs', List.mem_cons, List.not_mem_nil]
  grind

end Provision.DependencyGraph
