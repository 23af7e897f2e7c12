import Provision.Proofs.Session.Definitions
import Provision.Session.Links

/-!
# Dependencies and graphs

What an instance depends on is noted twice, in the table of instances and in the graph of its body,
and `Session.Linked` ties the two together: the edges of a graph are dependencies, and a dependency
is an edge of the graph of the body, or leads from the body of a component to the top level. Noting
a read keeps this up (`Session.advances_noteRead`), as long as the check is at work in a body
(`Session.Linking`).
-/

namespace Provision.Session

open List Scopes

variable {p : Program} {s t : Session} {x n : String} {scope : ScopeId} {type : Ty}
  {c : Option String}

/-! ### The invariant -/

/-- Edges, dependencies and needs agree, and all of them are about declarations of the program. -/
structure Linked (p : Program) (s : Session) : Prop extends Placed s where
  kinds : ∀ {scope n}, (s.scopes.kindAt scope n).isSome →
    ∃ c, s.BodyAt scope c ∧ (p.DeclaresInstance c n ∨ p.DeclaresVariable c n)
  origin : ∀ {x}, (s.dependencies? x).isSome →
    ∃ c n, x = qualifiedName c n ∧ p.DeclaresInstance c n
  wellFormed : ∀ {scope b}, s.body? scope = some b → b.graph.WellFormed
  node : ∀ {scope b x}, s.body? scope = some b → x ∈ b.graph.nodes →
    (∃ n, x = qualifiedName b.component n ∧ p.DeclaresInstance b.component n) ∨
      ∃ y, b.graph.HasEdge y x
  edge : ∀ {scope c x y}, s.Edge scope x y → s.BodyAt scope c → s.Depends x y ∧
    (∃ n, x = qualifiedName c n ∧ p.DeclaresInstance c n) ∧
    ∃ m, y = qualifiedName c m ∧ (s.scopes.kindAt scope m).isSome
  depends : ∀ {x y}, s.Depends x y → ∃ scope c n, s.BodyAt scope c ∧ x = qualifiedName c n ∧
    p.DeclaresInstance c n ∧ (s.Edge scope x y ∨
      c ≠ none ∧ ∃ m, y = qualifiedName none m ∧ (s.scopes.kindAt ScopeId.global m).isSome)
  needs : ∀ {component x}, s.Needs component x →
    ∃ m, x = qualifiedName none m ∧ (s.scopes.kindAt ScopeId.global m).isSome
  names : s.components.names.Nodup
  component : ∀ {name i}, Table.find? s.components name = some i → s.BodyAt i.scope (some name)
  hasInstance : ∀ {name x}, s.HasInstance name x →
    p.DeclaresInstance none x ∧ (s.dependencies? x).isSome
  hasComponent : ∀ {scope name}, s.BodyAt scope (some name) →
    ∃ i, Table.find? s.components name = some i ∧ i.scope = scope

theorem Indexed.linked (h : Indexed p s) : Linked p s where
  toPlaced := h.toPlaced
  kinds hk := (h.kinds hk).imp fun _ hc => ⟨hc.1, Or.inl hc.2⟩
  origin hx := by
    obtain ⟨ds, hds⟩ := Option.isSome_iff_exists.mp hx
    exact (h.origin hds).2
  wellFormed hb := (h.graph hb).1
  node hb hx := Or.inl (h.node hb hx)
  edge he _ := absurd he (h.not_edge _ _ _)
  depends hd := absurd hd (h.not_depends _ _)
  needs hn := absurd hn (h.not_needs _ _)
  names := h.names
  component hi := (h.component hi).1
  hasInstance := h.hasInstance
  hasComponent := h.hasComponent

/-- Links are as right in a session that agrees. -/
theorem Linked.agrees (h : Linked p s) (ha : Agrees s t) : Linked p t where
  toPlaced := h.toPlaced.agrees ha
  kinds hk := by
    rw [ha.scopes.kindAt] at hk
    obtain ⟨c, hb, hd⟩ := h.kinds hk
    exact ⟨c, ha.bodyAt.mpr hb, hd⟩
  origin hx := h.origin (ha.dependencies? _ ▸ hx)
  wellFormed hb := h.wellFormed (ha.body? ▸ hb)
  node hb := h.node (ha.body? ▸ hb)
  edge he hb := by
    simp only [ha.depends, ha.scopes.kindAt]
    exact h.edge (ha.edge.mp he) (ha.bodyAt.mp hb)
  depends hd := by
    obtain ⟨scope, c, n, hb, hx, hn, hlink⟩ := h.depends (ha.depends.mp hd)
    refine ⟨scope, c, n, ha.bodyAt.mpr hb, hx, hn, hlink.imp ha.edge.mpr fun ⟨hc, m, hm⟩ => ?_⟩
    exact ⟨hc, m, by rwa [ha.scopes.kindAt]⟩
  needs hn := by
    rw [Needs, ha.components] at hn
    obtain ⟨m, hm⟩ := h.needs hn
    exact ⟨m, by rwa [ha.scopes.kindAt]⟩
  names := ha.components ▸ h.names
  component hi := ha.bodyAt.mpr (h.component (ha.components ▸ hi))
  hasInstance hi := by
    rw [HasInstance, ha.components] at hi
    rw [ha.dependencies?]
    exact h.hasInstance hi
  hasComponent hb := by
    rw [ha.components]
    exact h.hasComponent (ha.bodyAt.mp hb)

/-! ### At work in a body -/

/-- A name is that of an instance in the body that is being visited. -/
structure IsReader (p : Program) (s : Session) (x : String) : Prop where
  isListed : (s.dependencies? x).isSome
  declared : ∃ n, x = qualifiedName s.component n ∧ p.DeclaresInstance s.component n

theorem IsReader.grows (h : IsReader p s x) (hg : Grows s t) : IsReader p t x where
  isListed := hg.isSome_dependencies? h.isListed
  declared := by
    rw [hg.component]
    exact h.declared

/-- The check is in a body or in a function of it, and whatever it reads for is an instance of that
body. -/
structure Linking (p : Program) (s : Session) : Prop extends Linked p s where
  bodyAt : s.BodyAt s.body s.component
  current : s.scopes.current = s.body ∨ s.scopes.current < s.scopes.all.length ∧
    (s.scopes.scope s.scopes.current).parent = some s.body ∧ ∀ c, ¬ s.BodyAt s.scopes.current c
  reader : ∀ {r}, s.reader = some r → IsReader p s r

structure Advances (p : Program) (s t : Session) : Prop extends Grows s t where
  bodyAt_of : ∀ {scope c}, t.BodyAt scope c → s.BodyAt scope c
  depends : ∀ {x y}, s.Depends x y → t.Depends x y
  linking : Linking p s → Linking p t

instance : IsPreorder Session (Advances p) where
  refl s := ⟨Grows.refl s, id, id, id⟩
  trans _ _ _ h h' := ⟨h.toGrows.trans h'.toGrows, h.bodyAt_of ∘ h'.bodyAt_of,
    h'.depends ∘ h.depends, h'.linking ∘ h.linking⟩

theorem Advances.trans {u : Session} (h : Advances p s t) (h' : Advances p t u) :
    Advances p s u := IsTrans.trans _ _ _ h h'

theorem Linking.of_linked (hs : Linking p s) (ht : Linked p t) (hg : Grows s t)
    (hb : ∀ {scope c}, t.BodyAt scope c → s.BodyAt scope c) : Linking p t where
  toLinked := ht
  bodyAt := by
    rw [hg.body, hg.component]
    exact hg.bodyAt hs.bodyAt
  current := by
    rw [hg.current, hg.body]
    rcases hs.current with heq | ⟨hlt, hpar, hnone⟩
    · exact Or.inl heq
    · exact Or.inr ⟨hlt.trans_le hg.scopes.length_le, (hg.scopes.parent _ hlt).trans hpar,
        fun c hc => hnone c (hb hc)⟩
  reader hr := (hs.reader (hg.reader ▸ hr)).grows hg

theorem Advances.of_frame (h : Frame s t) : Advances p s t :=
  ⟨h.grows, h.bodyAt.mp, h.depends.mpr,
    fun hs => hs.of_linked (hs.toLinked.agrees h.toAgrees) h.grows h.bodyAt.mp⟩

theorem Linking.scope_of_resolve (hs : Linking p s) (h : s.scopes.resolve n = .ok (scope, type))
    (hkind : type.kind?.isSome) : scope = s.body ∨ scope = ScopeId.global := by
  obtain ⟨hmem, -⟩ := mem_chain_of_resolve h
  have hk : (s.scopes.kindAt scope n).isSome := by rwa [kindAt_of_resolve h]
  obtain ⟨c, hb, -⟩ := hs.kinds hk
  have hgl : (s.scopes.scope ScopeId.global).parent = none := hs.parent hs.top
  have hbody : (s.scopes.scope s.body).parent = none ∨
      (s.scopes.scope s.body).parent = some ScopeId.global := by
    rw [hs.parent hs.bodyAt]
    cases s.component <;> simp
  rcases hs.current with heq | ⟨-, hpar, hnone⟩
  · rw [heq] at hmem
    exact chainFrom_subset _ hgl hbody scope hmem
  · unfold chain at hmem
    cases hlen : s.scopes.all.length with
    | zero => rw [hlen] at hmem; exact (not_mem_nil hmem).elim
    | succ steps =>
      rw [hlen, chainFrom, parent?, hpar, mem_cons] at hmem
      rcases hmem with rfl | hmem
      · exact absurd hb (hnone c)
      · exact chainFrom_subset _ hgl hbody scope hmem

/-! ### Noting one dependency -/

def addDependency (x y : String) : Checking Unit :=
  modifyInstance x fun i => { i with dependencies := addOnce i.dependencies y }

theorem dependencies?_addDependency (x y a : String) :
    ((addDependency x y).run s).2.dependencies? a =
      if a = x then (s.dependencies? a).map (addOnce · y) else s.dependencies? a := by
  unfold addDependency
  rw [dependencies?_modifyInstance]
  split
  · rw [dependencies?, Option.map_map]
    rfl
  · rfl

theorem isSome_addDependency (x y a : String) :
    (((addDependency x y).run s).2.dependencies? a).isSome = (s.dependencies? a).isSome := by
  rw [dependencies?_addDependency]
  split
  · rw [Option.isSome_map]
  · rfl

theorem depends_addDependency {y a b : String} :
    ((addDependency x y).run s).2.Depends a b ↔
      s.Depends a b ∨ (s.dependencies? x).isSome ∧ a = x ∧ b = y := by
  unfold Depends
  rw [dependencies?_addDependency]
  by_cases ha : a = x
  · subst ha
    cases s.dependencies? a <;> simp
  · simp [ha]

/-- Adds a dependency between two instances of a body. -/
def link (x y : String) (kind : EdgeKind) (scope : ScopeId) : Checking Unit := do
  modifyGraph (fun g => g.addEdge x y kind) scope
  addDependency x y

section Link

variable {x y : String} {kind : EdgeKind} {scope : ScopeId}

theorem body?_link (scope' : ScopeId) : ((link x y kind scope).run s).2.body? scope' =
    if scope' = scope then
      (s.body? scope').map fun b => { b with graph := b.graph.addEdge x y kind }
    else s.body? scope' :=
  body?_modifyGraph (s := s) (fun g => g.addEdge x y kind) scope scope'

theorem bodyAt_link {scope' : ScopeId} :
    ((link x y kind scope).run s).2.BodyAt scope' c ↔ s.BodyAt scope' c :=
  bodyAt_modifyGraph (s := s) (fun g => g.addEdge x y kind) scope

theorem depends_link {a b : String} : ((link x y kind scope).run s).2.Depends a b ↔
    s.Depends a b ∨ (s.dependencies? x).isSome ∧ a = x ∧ b = y :=
  depends_addDependency (s := ((modifyGraph (fun g => g.addEdge x y kind) scope).run s).2)

theorem isSome_link (a : String) : (((link x y kind scope).run s).2.dependencies? a).isSome =
    (s.dependencies? a).isSome :=
  isSome_addDependency (s := ((modifyGraph (fun g => g.addEdge x y kind) scope).run s).2) x y a

theorem edge_link (hs : Linked p s) {scope' : ScopeId} {a b : String} :
    ((link x y kind scope).run s).2.Edge scope' a b ↔
      s.Edge scope' a b ∨ (s.body? scope).isSome ∧ scope' = scope ∧ a = x ∧ b = y := by
  unfold Edge
  rw [body?_link]
  by_cases hsc : scope' = scope
  · subst hsc
    cases hb : s.body? scope' with
    | none => simp
    | some b₀ => simp [DependencyGraph.hasEdge_addEdge (hs.wellFormed hb)]
  · simp [hsc]

theorem grows_link : Moves Grows (link x y kind scope) := by
  refine Moves.bind (grows_modifyGraph scope fun g a ha => ?_) fun _ => grows_modifyInstance x _
  exact DependencyGraph.mem_nodes_addEdge.mpr (Or.inl ha)

/-- An edge between instances of a body is a dependency of the first. -/
theorem Linked.link (hs : Linked p s) {m : String} (hb : s.BodyAt scope c)
    (hx : x = qualifiedName c n) (hn : p.DeclaresInstance c n)
    (hlst : (s.dependencies? x).isSome) (hy : y = qualifiedName c m)
    (hm : (s.scopes.kindAt scope m).isSome) : Linked p ((link x y kind scope).run s).2 := by
  have hbody : (s.body? scope).isSome := by
    obtain ⟨b, hb, -⟩ := hb
    rw [hb]
    rfl
  refine {
    toPlaced := hs.toPlaced.of_persists (Persists.refl _)
      (bodies_fst_modifyGraph (s := s) (fun g => g.addEdge x y kind) scope) fun _ _ => bodyAt_link
    kinds := fun hk => (hs.kinds hk).imp fun _ hc => ⟨bodyAt_link.mpr hc.1, hc.2⟩
    origin := fun hz => hs.origin (isSome_link _ ▸ hz)
    wellFormed := fun {scope' b} hb' => ?_
    node := fun {scope' b z} hb' hz => ?_
    edge := fun {scope' c' a b} he hb' => ?_
    depends := fun {a b} hd => ?_
    needs := hs.needs
    names := hs.names
    component := fun hi => bodyAt_link.mpr (hs.component hi)
    hasInstance := fun hi => ⟨(hs.hasInstance hi).1, (isSome_link _).trans (hs.hasInstance hi).2⟩
    hasComponent := fun hb' => hs.hasComponent (bodyAt_link.mp hb') }
  · rw [body?_link] at hb'
    split at hb'
    · obtain ⟨b₀, hb₀, rfl⟩ := Option.map_eq_some_iff.mp hb'
      exact (hs.wellFormed hb₀).addEdge x y kind
    · exact hs.wellFormed hb'
  · rw [body?_link] at hb'
    split at hb'
    · next hsc =>
      obtain ⟨b₀, hb₀, rfl⟩ := Option.map_eq_some_iff.mp hb'
      have hc : b₀.component = c := BodyAt.component_eq ⟨b₀, hsc ▸ hb₀, rfl⟩ hb
      simp only [DependencyGraph.hasEdge_addEdge (hs.wellFormed hb₀)]
      rcases DependencyGraph.mem_nodes_addEdge.mp hz with hz | rfl | rfl
      · exact (hs.node hb₀ hz).imp_right fun ⟨w, hw⟩ => ⟨w, Or.inl hw⟩
      · exact Or.inl ⟨n, by rw [hx, hc], hc ▸ hn⟩
      · exact Or.inr ⟨x, Or.inr ⟨rfl, rfl⟩⟩
    · exact hs.node hb' hz
  · rw [depends_link]
    have hbef : s.BodyAt scope' c' := bodyAt_link.mp hb'
    rcases (edge_link hs).mp he with he | ⟨-, rfl, rfl, rfl⟩
    · obtain ⟨hd, hsrc, htgt⟩ := hs.edge he hbef
      exact ⟨Or.inl hd, hsrc, htgt⟩
    · obtain rfl := hbef.component_eq hb
      exact ⟨Or.inr ⟨hlst, rfl, rfl⟩, ⟨n, hx, hn⟩, m, hy, hm⟩
  · rcases depends_link.mp hd with hd | ⟨-, rfl, rfl⟩
    · obtain ⟨scope', c', n', hb', hx', hn', hlink⟩ := hs.depends hd
      exact ⟨scope', c', n', bodyAt_link.mpr hb', hx', hn',
        hlink.imp_left fun he => (edge_link hs).mpr (Or.inl he)⟩
    · exact ⟨scope, c, n, bodyAt_link.mpr hb, hx, hn,
        Or.inl ((edge_link hs).mpr (Or.inr ⟨hbody, rfl, rfl, rfl⟩))⟩

end Link

theorem Linked.addDependency (hs : Linked p s) {y : String} {m : String} (hb : s.BodyAt scope c)
    (hc : c ≠ none) (hx : x = qualifiedName c n) (hn : p.DeclaresInstance c n)
    (hy : y = qualifiedName none m) (hm : (s.scopes.kindAt ScopeId.global m).isSome) :
    Linked p ((Session.addDependency x y).run s).2 :=
  { hs with
    toPlaced := hs.toPlaced.of_persists (Persists.refl _) rfl fun _ _ => Iff.rfl
    origin := fun hz => hs.origin (isSome_addDependency x y _ ▸ hz)
    edge := fun he hb' => by
      obtain ⟨hd, hrest⟩ := hs.edge he hb'
      exact ⟨depends_addDependency.mpr (Or.inl hd), hrest⟩
    depends := fun hd => by
      rcases depends_addDependency.mp hd with hd | ⟨-, rfl, rfl⟩
      · exact hs.depends hd
      · exact ⟨scope, c, n, hb, hx, hn, Or.inr ⟨hc, m, hy, hm⟩⟩
    hasInstance := fun hi =>
      ⟨(hs.hasInstance hi).1, (isSome_addDependency x y _).trans (hs.hasInstance hi).2⟩ }

/-- Needs may change among instances of the top level. -/
theorem Linked.modifyExternals (hs : Linked p s) (name : String) {f : List String → List String}
    (hf : ∀ i, Table.find? s.components name = some i → ∀ x ∈ f i.externals,
      ∃ m, x = qualifiedName none m ∧ (s.scopes.kindAt ScopeId.global m).isSome) :
    Linked p ((modifyComponent name fun c => { c with externals := f c.externals }).run s).2 :=
  { hs with
    toPlaced := hs.toPlaced.of_persists (Persists.refl _) rfl fun _ _ => Iff.rfl
    needs := by
      rintro n x ⟨j, hj, hx⟩
      obtain ⟨i, hi, rfl | ⟨rfl, rfl⟩⟩ := exists_of_modifyComponent hj
      · exact hs.needs ⟨j, hi, hx⟩
      · exact hf i hi x hx
    names := by
      rw [names_modifyComponent]
      exact hs.names
    component := by
      intro n j hj
      obtain ⟨i, hi, rfl | ⟨-, rfl⟩⟩ := exists_of_modifyComponent hj
      · exact hs.component hi
      · exact (hs.component hi : s.BodyAt i.scope (some n))
    hasInstance := by
      rintro n x ⟨j, hj, hx⟩
      obtain ⟨i, hi, rfl | ⟨-, rfl⟩⟩ := exists_of_modifyComponent hj
      · exact hs.hasInstance ⟨j, hi, hx⟩
      · exact hs.hasInstance ⟨i, hi, hx⟩
    hasComponent := by
      intro scope n hb
      obtain ⟨i, hi, rfl⟩ := hs.hasComponent hb
      rw [find?_modifyComponent, hi]
      split
      · exact ⟨_, rfl, rfl⟩
      · exact ⟨i, rfl, rfl⟩ }

/-! ### Noting a read -/

/-- What is read is a dependency of the reader, and a need of the component if it lies outside. -/
def Noted (s : Session) (scope : ScopeId) (x : String) : Prop :=
  (∀ r, s.reader = some r → s.Depends r x) ∧
    ∀ comp, s.component = some comp → scope = ScopeId.global → s.Needs comp x

theorem Noted.advances (h : Advances p s t) (hs : s.Noted scope x) : t.Noted scope x :=
  ⟨fun r hr => h.depends (hs.1 r (h.reader ▸ hr)),
    fun comp hc hsc => h.needs (hs.2 comp (h.component ▸ hc) hsc)⟩

theorem enlarges_externals (target : String) :
    Enlarges fun c => { c with externals := addOnce c.externals target } where
  body _ := rfl
  scope _ := rfl
  uses _ := Subset.refl _
  externals _ _ hx := mem_addOnce.mpr (Or.inl hx)
  instances _ := Subset.refl _

/-- A name stands for an instance that can be read: one of the body, or of the top level. -/
structure Readable (s : Session) (scope : ScopeId) (y : String) : Prop where
  scope_eq : scope = s.body ∨ scope = ScopeId.global
  instance_eq : ∃ c m, s.BodyAt scope c ∧ y = qualifiedName c m ∧ (s.scopes.kindAt scope m).isSome

theorem Linking.readable (hs : Linking p s) (h : s.scopes.resolve n = .ok (scope, type))
    (hkind : type.kind?.isSome) : s.Readable scope (s.scopes.qualify scope n) := by
  have hk : (s.scopes.kindAt scope n).isSome := by rwa [kindAt_of_resolve h]
  obtain ⟨c, hb, -⟩ := hs.kinds hk
  exact ⟨hs.scope_of_resolve h hkind, c, n, hb, hs.qualify hb n, hk⟩

theorem Readable.global (hs : Linked p s) {y : String} (h : s.Readable ScopeId.global y) :
    ∃ m, y = qualifiedName none m ∧ (s.scopes.kindAt ScopeId.global m).isSome := by
  obtain ⟨c, m, hb, hy, hm⟩ := h.instance_eq
  obtain rfl := hb.component_eq hs.top
  exact ⟨m, hy, hm⟩

section NoteExternal

variable {scope : ScopeId} {y : String}

theorem advances_noteExternal (hy : Linking p s → s.Readable scope y) :
    Advances p s ((noteExternal scope y).run s).2 := by
  unfold noteExternal
  split
  · next hsc =>
    rw [run_get_bind]
    split
    · next comp _ =>
      have hgr := grows_modifyComponent comp (enlarges_externals y) s
      refine ⟨hgr, id, id, fun hs => hs.of_linked ?_ hgr id⟩
      have hgl := Readable.global hs.toLinked (hsc ▸ hy hs)
      refine hs.toLinked.modifyExternals comp (f := fun l => addOnce l y) fun i hi x hx => ?_
      rcases mem_addOnce.mp hx with hx | rfl
      · exact hs.needs ⟨i, hi, hx⟩
      · exact hgl
    · exact Std.Refl.refl s
  · exact Std.Refl.refl s

theorem needs_noteExternal (hs : Linking p s) {comp : String}
    (hc : s.component = some comp) :
    ((noteExternal ScopeId.global y).run s).2.Needs comp y := by
  obtain ⟨i, hi, -⟩ := hs.hasComponent (hc ▸ hs.bodyAt)
  unfold noteExternal
  rw [if_pos rfl, run_get_bind]
  rw [hc]
  have hfind : Table.find? ((modifyComponent comp fun c =>
      { c with externals := addOnce c.externals y }).run s).2.components comp =
        some { i with externals := addOnce i.externals y } := by
    rw [find?_modifyComponent, if_pos rfl, hi]
    rfl
  exact ⟨_, hfind, mem_addOnce.mpr (Or.inr rfl)⟩

end NoteExternal

section Depend

variable {x y : String} {scope : ScopeId} (kind : EdgeKind)

theorem run_depend : ((depend x scope y kind).run s).2 =
    if scope = s.body then ((link x y kind scope).run s).2
    else ((addDependency x y).run ((noteExternal scope y).run s).2).2 := by
  unfold depend
  rw [run_get_bind]
  split <;> rfl

/-- A dependency is noted as an edge, or as a need if it leads out of the body. -/
theorem advances_depend (hx : Linking p s → IsReader p s x)
    (hy : Linking p s → s.Readable scope y) : Advances p s ((depend x scope y kind).run s).2 := by
  rw [run_depend]
  split
  · next hsc =>
    refine ⟨grows_link s, bodyAt_link.mp, fun hd => depends_link.mpr (Or.inl hd), fun hs => ?_⟩
    obtain ⟨c, m, hb, rfl, hm⟩ := (hy hs).instance_eq
    obtain rfl : c = s.component := hb.component_eq (hsc ▸ hs.bodyAt)
    obtain ⟨hlst, n, hn, hdecl⟩ := hx hs
    exact hs.of_linked (hs.toLinked.link hb hn hdecl hlst rfl hm) (grows_link s)
      bodyAt_link.mp
  · next hsc =>
    have hext := advances_noteExternal hy
    have hgr := grows_modifyInstance x (fun i => { i with
      dependencies := addOnce i.dependencies y }) ((noteExternal scope y).run s).2
    refine ⟨hext.toGrows.trans hgr, hext.bodyAt_of,
      fun hd => depends_addDependency.mpr (Or.inl (hext.depends hd)), fun hs => ?_⟩
    have ht := hext.linking hs
    have hgl : scope = ScopeId.global := (hy hs).scope_eq.resolve_left hsc
    obtain ⟨m, hym, hm⟩ := Readable.global hs.toLinked (hgl ▸ hy hs)
    obtain ⟨-, n, hn, hdecl⟩ := (hx hs).grows hext.toGrows
    obtain ⟨found, hfound⟩ := Option.isSome_iff_exists.mp hm
    have hm' := hext.scopes.kindAt_eq_some hfound
    -- only the body of a component can be another than the one that declares the target
    have hcomp : ((noteExternal scope y).run s).2.component ≠ none := by
      intro hnone
      have hb := ht.bodyAt
      rw [hnone] at hb
      exact hsc (hgl.trans (hext.body ▸ ht.eq_global hb).symm)
    exact ht.of_linked (ht.toLinked.addDependency ht.bodyAt hcomp hn hdecl hym
      (by rw [hm']; rfl)) hgr id

theorem depends_depend (hs : Linking p s) (hx : IsReader p s x) (hy : s.Readable scope y) :
    ((depend x scope y kind).run s).2.Depends x y ∧
      ∀ comp, s.component = some comp → scope = ScopeId.global →
        ((depend x scope y kind).run s).2.Needs comp y := by
  rw [run_depend]
  split
  · next hsc =>
    refine ⟨depends_link.mpr (Or.inr ⟨hx.isListed, rfl, rfl⟩), fun comp hc hgl => ?_⟩
    have hb := hs.bodyAt
    rw [hc] at hb
    exact absurd (hsc.symm.trans hgl) (hs.ne_global hb)
  · have hext : Advances p s ((noteExternal scope y).run s).2 :=
      advances_noteExternal fun _ => hy
    have hlst := hext.isSome_dependencies? hx.isListed
    refine ⟨depends_addDependency.mpr (Or.inr ⟨hlst, rfl, rfl⟩), fun comp hc hgl => ?_⟩
    subst hgl
    exact (grows_modifyInstance x _ _).needs (needs_noteExternal hs hc)

end Depend

theorem advances_noteRead (h : s.scopes.resolve n = .ok (scope, type)) (hkind : type.kind?.isSome) :
    Advances p s ((noteRead scope n).run s).2 := by
  unfold noteRead
  rw [run_get_bind]
  split
  · next r hr => exact advances_depend _ (fun hs => hs.reader hr) fun hs => hs.readable h hkind
  · split
    · exact Std.Refl.refl s
    · exact advances_noteExternal fun hs => hs.readable h hkind

theorem noted_noteRead (hs : Linking p s) (h : s.scopes.resolve n = .ok (scope, type))
    (hkind : type.kind?.isSome) :
    ((noteRead scope n).run s).2.Noted scope (s.scopes.qualify scope n) := by
  have hrd := hs.readable h hkind
  have hadv : Advances p s ((noteRead scope n).run s).2 := advances_noteRead h hkind
  have hreader := hadv.reader
  have hcomp := hadv.component
  rw [Noted, hreader, hcomp]
  unfold noteRead
  rw [run_get_bind]
  split
  · next r hr =>
    obtain ⟨hdep, hneeds⟩ := depends_depend .implicit hs (hs.reader hr) hrd
    refine ⟨fun r' hr' => ?_, hneeds⟩
    obtain rfl := Option.some.inj (hr.symm.trans hr')
    exact hdep
  · next hr =>
    refine ⟨fun r' hr' => ?_, fun comp hc hgl => ?_⟩
    · rw [hr] at hr'
      cases hr'
    · subst hgl
      have hb := hs.bodyAt
      rw [hc] at hb
      rw [if_neg (hs.ne_global hb).symm]
      exact needs_noteExternal hs hc

/-! ### References -/

/-- A relation that the notes of a dependency stay in. -/
structure Noting (R : Session → Session → Prop) : Prop where
  edge : ∀ x y kind scope, Moves R (modifyGraph (fun g => g.addEdge x y kind) scope)
  external : ∀ c (ys : List String), Moves R (modifyComponent c fun i =>
    { i with externals := ys.foldl addOnce i.externals })
  dependency : ∀ x y, Moves R (modifyInstance x fun i =>
    { i with dependencies := addOnce i.dependencies y })

namespace Noting

variable {R : Session → Session → Prop} [IsPreorder Session R] (h : Noting R)
include h

theorem noteExternal (scope : ScopeId) (y : String) : Moves R (noteExternal scope y) := by
  unfold Session.noteExternal
  split
  · refine Moves.get_bind fun s => ?_
    split
    · exact h.external _ [y] s
    · exact Std.Refl.refl s
  · exact Moves.pure _

theorem depend (x : String) (scope : ScopeId) (y : String) (kind : EdgeKind) :
    Moves R (depend x scope y kind) := by
  unfold Session.depend
  refine Moves.get_bind fun s => ?_
  split
  · exact Moves.bind (h.edge x y kind scope) (fun _ => h.dependency x y) s
  · exact Moves.bind (h.noteExternal scope y) (fun _ => h.dependency x y) s

theorem noteRead (scope : ScopeId) (n : String) : Moves R (noteRead scope n) := by
  unfold Session.noteRead
  refine Moves.get_bind fun s => ?_
  split
  · exact h.depend _ _ _ _ s
  · split
    · exact Std.Refl.refl s
    · exact h.noteExternal _ _ s

end Noting

/-- Only what is known about components, bodies and instances has changed. -/
def Books (s t : Session) : Prop :=
  ∃ components bodies instances, t = { s with components, bodies, instances }

instance : IsPreorder Session Books where
  refl s := ⟨s.components, s.bodies, s.instances, rfl⟩
  trans := by
    rintro s _ _ ⟨_, _, _, rfl⟩ ⟨components, bodies, instances, rfl⟩
    exact ⟨components, bodies, instances, rfl⟩

theorem noting_books : Noting Books where
  edge _ _ _ _ s := ⟨s.components, _, s.instances, rfl⟩
  external _ _ s := ⟨_, s.bodies, s.instances, rfl⟩
  dependency _ _ s := ⟨s.components, s.bodies, _, rfl⟩

theorem books_depend (x : String) (scope : ScopeId) (y : String) (kind : EdgeKind) :
    Moves Books (depend x scope y kind) := noting_books.depend x scope y kind

theorem books_noteRead (scope : ScopeId) (n : String) : Moves Books (noteRead scope n) :=
  noting_books.noteRead scope n

structure Steady (s t : Session) : Prop where
  scopes : t.scopes = s.scopes
  aliases : t.aliases = s.aliases
  depth : t.depth = s.depth

instance : IsPreorder Session Steady where
  refl _ := ⟨rfl, rfl, rfl⟩
  trans _ _ _ h h' := ⟨h'.scopes.trans h.scopes, h'.aliases.trans h.aliases, h'.depth.trans h.depth⟩

theorem Books.steady (h : Books s t) : Steady s t := by
  obtain ⟨_, _, _, rfl⟩ := h
  exact ⟨rfl, rfl, rfl⟩

theorem steady_report (d : Diagnostic) : Moves Steady (report d) := fun _ => ⟨rfl, rfl, rfl⟩

theorem steady_depend (x : String) (scope : ScopeId) (y : String) (kind : EdgeKind) :
    Moves Steady (depend x scope y kind) := fun s => (books_depend x scope y kind s).steady

theorem isSome_kind?_of_isInstanceOf {kind : Option String}
    (h : isInstanceOf kind type = true) : type.kind?.isSome := by
  cases type with
  | resource _ _ _ => rfl
  | component _ inst _ _ _ =>
    cases inst with
    | some _ => rfl
    | none => cases h
  | _ => cases h

theorem resolveReference_eq_ok {r : Reference} {y : String}
    (h : s.resolveReference r = .ok (scope, y)) :
    ∃ kind n type, splitReference r = .ok (kind, n) ∧ s.scopes.resolve n = .ok (scope, type) ∧
      type.kind?.isSome ∧ y = s.scopes.qualify scope n := by
  unfold resolveReference at h
  cases hsplit : splitReference r with
  | error d => rw [hsplit] at h; cases h
  | ok found =>
    obtain ⟨kind, n⟩ := found
    rw [hsplit] at h
    simp only [bind, Except.bind] at h
    split at h
    · cases h
    · next scope' type hres =>
      split at h
      · next hinst =>
        cases h
        exact ⟨kind, n, type, rfl, hres, isSome_kind?_of_isInstanceOf hinst, rfl⟩
      · cases h

theorem run_linkAll_cons (x : String) (r : Reference) (refs : List Reference) :
    (linkAll x (r :: refs)).run s = (linkAll x refs).run (match s.resolveReference r with
      | .ok (scope, y) => ((depend x scope y .explicit).run s).2
      | .error d => ((report d).run s).2) := by
  rw [linkAll, run_get_bind]
  cases s.resolveReference r <;> rfl

theorem advances_linkAll (refs : List Reference) (hx : IsReader p s x) :
    Advances p s ((linkAll x refs).run s).2 := by
  induction refs generalizing s with
  | nil => exact Std.Refl.refl s
  | cons r refs ih =>
    rw [run_linkAll_cons]
    split
    · next scope y hr =>
      obtain ⟨-, n, type, -, hres, hkind, rfl⟩ := resolveReference_eq_ok hr
      have hdep : Advances p s ((depend x scope _ .explicit).run s).2 :=
        advances_depend _ (fun _ => hx) fun hs => hs.readable hres hkind
      exact hdep.trans (ih (hx.grows hdep.toGrows))
    · next d hr =>
      have hrep : Advances p s ((report d).run s).2 := .of_frame (frame_report d s)
      exact hrep.trans (ih (hx.grows hrep.toGrows))

/-- Every reference is a dependency, unless there is a finding. -/
theorem depends_linkAll {refs : List Reference} (hs : Linking p s) (hx : IsReader p s x)
    (hfs : ((linkAll x refs).run s).2.findings = []) :
    ∀ r ∈ refs, ∃ scope y, s.resolveReference r = .ok (scope, y) ∧
      ((linkAll x refs).run s).2.Depends x y ∧ ∀ comp, s.component = some comp →
        scope = ScopeId.global → ((linkAll x refs).run s).2.Needs comp y := by
  induction refs generalizing s with
  | nil => exact fun r hr => (not_mem_nil hr).elim
  | cons r refs ih =>
    rw [run_linkAll_cons] at hfs ⊢
    split at hfs
    · next scope y hr =>
      obtain ⟨-, n, type, -, hres, hkind, hy⟩ := resolveReference_eq_ok hr
      have hrd : s.Readable scope y := hy ▸ hs.readable hres hkind
      have hdepend : Advances p s ((depend x scope y .explicit).run s).2 :=
        advances_depend _ (fun _ => hx) fun _ => hrd
      have hx' := hx.grows hdepend.toGrows
      intro r' hr'
      rcases mem_cons.mp hr' with rfl | hr'
      · obtain ⟨hdep, hneeds⟩ := depends_depend .explicit hs hx hrd
        have hrest := advances_linkAll refs hx'
        exact ⟨scope, y, hr, hrest.depends hdep,
          fun comp hc hgl => hrest.needs (hneeds comp hc hgl)⟩
      · have hsame : ∀ r, ((depend x scope y .explicit).run s).2.resolveReference r =
            s.resolveReference r := fun r => by
          rw [resolveReference, (steady_depend x scope y .explicit s).scopes, resolveReference]
        obtain ⟨scope', y', hr', hdep, hneeds⟩ :=
          ih (hdepend.linking hs) hx' hfs r' hr'
        exact ⟨scope', y', hsame r' ▸ hr', hdep,
          fun comp hc => hneeds comp (hdepend.component.trans hc)⟩
    · next d hr =>
      have hrep := (frame_report d s).grows
      have hrest := advances_linkAll refs (hx.grows hrep)
      have hnil := hrest.findings_eq_nil hfs
      exact absurd hnil (concat_ne_nil _ _)

end Provision.Session
