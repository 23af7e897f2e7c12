import Provision.Proofs.Session.Types

/-!
# Registration of the members of a body

Registering functions, instances, inputs, outputs and variables lists what the program declares, and
nothing else (`Session.registers_members`).

* `Session.Indexed` is what holds all along: instances, nodes of graphs and components stand for
  declarations of the program, and nothing depends on anything yet.
* `Session.Entered` says that every name bound to an instance is listed as one: in the graph of its
  body, in the table of instances, and with the component that it uses.
* `Session.Ready` says of a declaration that it was registered, which it is unless there is a
  finding.
-/

namespace Provision.Session

open List Table Decl

variable {p : Program} {s t : Session} {scope : ScopeId} {n : String} {kind : InstanceKind}
  {d : Decl}

/-! ### The invariant -/

/-- What is listed stands for declarations of the program; there are no dependencies. -/
structure Indexed (p : Program) (s : Session) : Prop extends Placed s where
  kinds : ∀ {scope n}, (s.scopes.kindAt scope n).isSome →
    ∃ c, s.BodyAt scope c ∧ p.DeclaresInstance c n
  origin : ∀ {x ds}, s.dependencies? x = some ds →
    ds = [] ∧ ∃ c n, x = qualifiedName c n ∧ p.DeclaresInstance c n
  graph : ∀ {scope b}, s.body? scope = some b → b.graph.WellFormed ∧ b.graph.edges = []
  node : ∀ {scope b x}, s.body? scope = some b → x ∈ b.graph.nodes →
    ∃ n, x = qualifiedName b.component n ∧ p.DeclaresInstance b.component n
  names : s.components.names.Nodup
  component : ∀ {name i}, find? s.components name = some i →
    s.BodyAt i.scope (some name) ∧ i.externals = [] ∧
      (find? (s.scopes.bindings ScopeId.global) name).isSome
  hasInstance : ∀ {name x}, s.HasInstance name x →
    p.DeclaresInstance none x ∧ (s.dependencies? x).isSome
  hasComponent : ∀ {scope name}, s.BodyAt scope (some name) →
    ∃ i, find? s.components name = some i ∧ i.scope = scope

/-- A name that is an instance is a node of the graph of its body and has an entry, and the
component that it is an instance of knows it, or is one that the component around it uses. -/
structure EnteredAt (s : Session) (scope : ScopeId) (c : Option String) (n : String)
    (kind : InstanceKind) : Prop where
  node : s.Node scope (qualifiedName c n)
  dependencies? : (s.dependencies? (qualifiedName c n)).isSome
  hasInstance : ∀ name, kind = .component name → c = none → s.HasInstance name n
  uses : ∀ name outer, kind = .component name → c = some outer → s.Uses outer name

def Entered (s : Session) : Prop :=
  ∀ ⦃scope c n kind⦄, s.scopes.kindAt scope n = some kind → s.BodyAt scope c →
    s.EnteredAt scope c n kind

/-- Registration is at work on the members of a body. -/
structure Registering (p : Program) (s : Session) : Prop extends Indexed p s, Regular s where
  entered : s.Entered
  current : s.scopes.current = s.body
  bodyAt : s.BodyAt s.body s.component

/-- Registration is at work on the top level. -/
structure AtTop (p : Program) (s : Session) : Prop extends Registering p s where
  component_none : s.component = none

theorem AtTop.grows (hs : AtTop p s) (hg : Grows s t) (ht : Registering p t) : AtTop p t :=
  ⟨ht, hg.component.trans hs.component_none⟩

theorem EnteredAt.grows (hg : Grows s t) {c : Option String} (h : s.EnteredAt scope c n kind) :
    t.EnteredAt scope c n kind where
  node := hg.node h.node
  dependencies? := hg.isSome_dependencies? h.dependencies?
  hasInstance name hk hc := hg.hasInstance (h.hasInstance name hk hc)
  uses name outer hk hc := hg.uses (h.uses name outer hk hc)

theorem Entered.agrees (ha : Agrees s t) (h : s.Entered) : t.Entered := by
  intro scope c n kind hk hb
  rw [ha.scopes.kindAt] at hk
  obtain ⟨hnode, hdependencies, hinst, huses⟩ := h hk (ha.bodyAt.mp hb)
  constructor
  · rwa [Node, ha.body?]
  · rwa [ha.dependencies?]
  · intro name hkind hc
    rw [HasInstance, ha.components]
    exact hinst name hkind hc
  · intro name outer hkind hc
    rw [Uses, ha.components]
    exact huses name outer hkind hc

namespace Indexed

theorem not_edge (h : Indexed p s) (scope : ScopeId) (x y : String) : ¬ s.Edge scope x y := by
  rintro ⟨b, hb, e, he, -⟩
  rw [(h.graph hb).2] at he
  exact not_mem_nil he

theorem not_depends (h : Indexed p s) (x y : String) : ¬ s.Depends x y := by
  rintro ⟨ds, hds, hy⟩
  rw [(h.origin hds).1] at hy
  exact not_mem_nil hy

theorem not_needs (h : Indexed p s) (c x : String) : ¬ s.Needs c x := by
  rintro ⟨i, hi, hx⟩
  rw [(h.component hi).2.1] at hx
  exact not_mem_nil hx

theorem agrees (h : Indexed p s) (ha : Agrees s t) : Indexed p t where
  toPlaced := h.toPlaced.agrees ha
  kinds hk := by
    rw [ha.scopes.kindAt] at hk
    obtain ⟨c, hb, hd⟩ := h.kinds hk
    exact ⟨c, ha.bodyAt.mpr hb, hd⟩
  origin hx := h.origin (ha.dependencies? _ ▸ hx)
  graph hb := h.graph (ha.body? ▸ hb)
  node hb := h.node (ha.body? ▸ hb)
  names := ha.components ▸ h.names
  component hi := by
    rw [ha.components] at hi
    obtain ⟨hb, hexts, hbd⟩ := h.component hi
    exact ⟨ha.bodyAt.mpr hb, hexts, ha.scopes.toPersists.isSome_find? hbd⟩
  hasInstance hi := by
    rw [HasInstance, ha.components] at hi
    rw [ha.dependencies?]
    exact h.hasInstance hi
  hasComponent hb := by
    rw [ha.components]
    exact h.hasComponent (ha.bodyAt.mp hb)

theorem set (h : Indexed p s) (type : Ty)
    (hunb : find? (s.scopes.bindings s.scopes.current) n = none)
    (hb : s.BodyAt s.scopes.current s.component) (hd : p.DeclaresInstance s.component n) :
    Indexed p { s with scopes := s.scopes.set n type } := by
  have hper : s.scopes.Persists (s.scopes.set n type) := Scopes.persists_set hunb
  exact { h with
    toPlaced := h.toPlaced.of_persists hper rfl fun _ _ => Iff.rfl
    kinds := by
      intro scope m hk
      rw [Scopes.kindAt_set] at hk
      split at hk
      · next hm =>
        rw [hm.1, hm.2.2]
        exact ⟨s.component, hb, hd⟩
      · exact h.kinds hk
    component := by
      intro name i hi
      obtain ⟨hsc, hexts, hbd⟩ := h.component hi
      exact ⟨hsc, hexts, hper.isSome_find? hbd⟩ }

/-- A component may get to know instances of the top level. -/
theorem modifyComponent (h : Indexed p s) (name : String) {f : ComponentInfo → ComponentInfo}
    (hsc : ∀ i, (f i).scope = i.scope) (hexts : ∀ i, (f i).externals = i.externals)
    (hinsts : ∀ i, ∀ x ∈ (f i).instances, x ∈ i.instances ∨
      p.DeclaresInstance none x ∧ (s.dependencies? x).isSome) :
    Indexed p ((Session.modifyComponent name f).run s).2 :=
  { h with
    toPlaced := h.toPlaced.of_persists (Scopes.Persists.refl _) rfl fun _ _ => Iff.rfl
    names := by
      rw [names_modifyComponent]
      exact h.names
    component := by
      intro n j hj
      obtain ⟨i, hi, rfl | ⟨-, rfl⟩⟩ := exists_of_modifyComponent hj
      · exact h.component hi
      · rw [hsc, hexts]
        exact h.component hi
    hasInstance := by
      rintro n x ⟨j, hj, hx⟩
      obtain ⟨i, hi, rfl | ⟨-, rfl⟩⟩ := exists_of_modifyComponent hj
      · exact h.hasInstance ⟨j, hi, hx⟩
      · rcases hinsts i x hx with hx | hx
        · exact h.hasInstance ⟨i, hi, hx⟩
        · exact hx
    hasComponent := by
      intro scope n hb
      obtain ⟨i, hi, rfl⟩ := h.hasComponent hb
      rw [find?_modifyComponent, hi]
      split
      · exact ⟨f i, rfl, hsc i⟩
      · exact ⟨i, rfl, rfl⟩ }

end Indexed

/-! ### Instances -/

theorem dependencies?_insert {x y : String} {i : InstanceInfo} (hi : i.dependencies = []) :
    dependencies? { s with instances := s.instances.insert x i } y =
      if y = x then some [] else s.dependencies? y := by
  unfold dependencies?
  rw [find?_insert]
  split
  · rw [Option.map_some, hi]
  · rfl

theorem grows_addInstance (name : Ident) (kind : InstanceKind) (span : Span) :
    Moves Grows (addInstance name kind span) := by
  intro s
  have hgraph := grows_modifyGraph (f := fun g => (g.addNode (s.qualified name.text)).2) s.body
    (fun g => DependencyGraph.nodes_prefix_addNode.subset) s
  refine hgraph.trans { Grows.refl _ with isSome_dependencies? := ?_ }
  intro x hx
  refine (congrArg Option.isSome (dependencies?_insert (by rfl))).trans ?_
  split
  · rfl
  · exact hx

section AddInstance

variable {name : Ident} {kind : InstanceKind} {span : Span}

theorem body?_addInstance (scope : ScopeId) :
    ((addInstance name kind span).run s).2.body? scope =
      if scope = s.body then (s.body? scope).map fun b =>
        { b with graph := (b.graph.addNode (s.qualified name.text)).2 }
      else s.body? scope :=
  body?_modifyGraph (s := s) (fun g => (g.addNode (s.qualified name.text)).2) s.body scope

theorem bodyAt_addInstance {c : Option String} :
    ((addInstance name kind span).run s).2.BodyAt scope c ↔ s.BodyAt scope c :=
  bodyAt_modifyGraph (s := s) (fun g => (g.addNode (s.qualified name.text)).2) s.body

theorem dependencies?_addInstance (x : String) :
    ((addInstance name kind span).run s).2.dependencies? x =
      if x = s.qualified name.text then some [] else s.dependencies? x :=
  dependencies?_insert (by rfl)

/-- A new instance is a node without edges. -/
theorem Indexed.addInstance (h : Indexed p s) (hb : s.BodyAt s.body s.component)
    (hq : s.qualified name.text = qualifiedName s.component name.text)
    (hd : p.DeclaresInstance s.component name.text) :
    Indexed p ((addInstance name kind span).run s).2 :=
  { h with
    toPlaced := h.toPlaced.of_persists (Scopes.Persists.refl _)
      (bodies_fst_modifyGraph (s := s) (fun g => (g.addNode (s.qualified name.text)).2) s.body)
      fun _ _ => bodyAt_addInstance
    kinds := fun hk => by
      obtain ⟨c, hc, hdecl⟩ := h.kinds hk
      exact ⟨c, bodyAt_addInstance.mpr hc, hdecl⟩
    origin := fun {x ds} hx => by
      rw [dependencies?_addInstance] at hx
      split at hx
      · next heq =>
        exact ⟨(Option.some.inj hx).symm, s.component, name.text, heq.trans hq, hd⟩
      · exact h.origin hx
    graph := fun {scope b} hb' => by
      rw [body?_addInstance] at hb'
      split at hb'
      · obtain ⟨b₀, hb₀, rfl⟩ := Option.map_eq_some_iff.mp hb'
        obtain ⟨hwf, hegs⟩ := h.graph hb₀
        exact ⟨hwf.addNode _, by rw [DependencyGraph.edges_addNode, hegs]⟩
      · exact h.graph hb'
    node := fun {scope b x} hb' hx => by
      rw [body?_addInstance] at hb'
      split at hb'
      · next hsc =>
        obtain ⟨b₀, hb₀, rfl⟩ := Option.map_eq_some_iff.mp hb'
        rcases DependencyGraph.mem_nodes_addNode.mp hx with hx | rfl
        · exact (h.node hb₀ hx : ∃ n, x = qualifiedName b₀.component n ∧ _)
        · -- the new node is the instance of the body that is being registered
          have hc : b₀.component = s.component :=
            BodyAt.component_eq ⟨b₀, hsc ▸ hb₀, rfl⟩ hb
          exact ⟨name.text, by rw [hq, hc], hc ▸ hd⟩
      · exact h.node hb' hx
    component := fun hi => by
      obtain ⟨hsc, hrest⟩ := h.component hi
      exact ⟨bodyAt_addInstance.mpr hsc, hrest⟩
    hasInstance := fun hi => by
      obtain ⟨hdecl, hx⟩ := h.hasInstance hi
      refine ⟨hdecl, ?_⟩
      rw [dependencies?_addInstance]
      split
      · rfl
      · exact hx
    hasComponent := fun hb' => h.hasComponent (bodyAt_addInstance.mp hb') }

theorem addInstance_spec (h : Indexed p s) (hcur : s.scopes.current = s.body)
    (hb : s.BodyAt s.body s.component) (hd : p.DeclaresInstance s.component name.text) :
    ((addInstance name kind span).run s).1 = qualifiedName s.component name.text ∧
    Indexed p ((addInstance name kind span).run s).2 ∧
    ((addInstance name kind span).run s).2.Node s.body (qualifiedName s.component name.text) ∧
    (((addInstance name kind span).run s).2.dependencies?
      (qualifiedName s.component name.text)).isSome := by
  have hq : s.qualified name.text = qualifiedName s.component name.text := by
    rw [qualified, hcur, h.qualify hb]
  refine ⟨hq, h.addInstance hb hq hd, ?_, ?_⟩
  · obtain ⟨b, hb₀, -⟩ := hb
    refine ⟨_, (body?_addInstance _).trans (by rw [if_pos rfl, hb₀]; rfl), ?_⟩
    exact DependencyGraph.mem_nodes_addNode.mpr (Or.inr hq.symm)
  · rw [dependencies?_addInstance, hq, if_pos rfl]
    rfl

end AddInstance

/-- Registration goes on with the members of the same body. -/
def Adds (p : Program) (s t : Session) : Prop := Registering p s → Grows s t ∧ Registering p t

theorem Adds.of_types (h : Types s t) : Adds p s t := by
  intro hs
  obtain ⟨hfr, ht⟩ := h hs.toRegular
  have hgr := hfr.grows
  refine ⟨hgr, { hs.toIndexed.agrees hfr.toAgrees, ht with
    entered := hs.entered.agrees hfr.toAgrees
    current := hfr.current.trans (hs.current.trans hfr.body.symm)
    bodyAt := ?_ }⟩
  rw [hfr.body, hfr.component]
  exact hfr.bodyAt.mpr hs.bodyAt

/-- A name is bound to an instance and listed, but no component knows of it yet. -/
structure Entering (p : Program) (s : Session) (n : String) (kind : InstanceKind) (t : Session) :
    Prop extends Indexed p t, Regular t where
  grows : Grows s t
  kindAt : ∀ {scope m kind'}, t.scopes.kindAt scope m = some kind' →
    scope = s.body ∧ m = n ∧ kind' = kind ∨ s.scopes.kindAt scope m = some kind'
  bound : t.scopes.kindAt s.body n = some kind
  isNode : t.Node s.body (qualifiedName s.component n)
  isListed : (t.dependencies? (qualifiedName s.component n)).isSome

/-- The name of an instance is bound together with its entry. -/
theorem entering (hs : Registering p s) (name : Ident) (type : Ty) (span : Span) {e : Scopes}
    (hd : p.DeclaresInstance s.component name.text)
    (hunb : find? (s.scopes.bindings s.scopes.current) name.text = none)
    (hkind : type.kind? = some kind) (hdef : type.definition? = none)
    (htys : Types { s with scopes := s.scopes.set name.text type } { s with scopes := e }) :
    ((addInstance name kind span).run { s with scopes := e }).1 =
      qualifiedName s.component name.text ∧
    Entering p s name.text kind ((addInstance name kind span).run { s with scopes := e }).2 := by
  have hbodyAt : s.BodyAt s.scopes.current s.component := hs.current ▸ hs.bodyAt
  have hgr : Grows s { s with scopes := s.scopes.set name.text type } :=
    { Grows.refl s with scopes := Scopes.persists_set hunb }
  have hrgl := hs.toRegular.set type hunb (by rw [hdef]; exact nofun)
  obtain ⟨hfr, hrgl⟩ := htys hrgl
  have hindexed := (hs.toIndexed.set type hunb hbodyAt hd).agrees hfr.toAgrees
  have hkindAt : ∀ scope m, e.kindAt scope m =
      if scope = s.scopes.current ∧ scope < s.scopes.all.length ∧ m = name.text then some kind
      else s.scopes.kindAt scope m := by
    intro scope m
    rw [hfr.scopes.kindAt, Scopes.kindAt_set, hkind]
  obtain ⟨hq, hindexed, hnode, hlst⟩ := addInstance_spec hindexed
    (hfr.current.trans hs.current) (hfr.bodyAt.mpr hs.bodyAt) hd
  exact ⟨hq, { hindexed with
    current_lt := hrgl.current_lt
    aliases := hrgl.aliases
    definitions := hrgl.definitions
    grows := (hgr.trans hfr.grows).trans (grows_addInstance name kind span _)
    kindAt := by
      intro scope m kind' hk
      have hk : e.kindAt scope m = some kind' := hk
      rw [hkindAt] at hk
      split at hk
      · next heq => exact Or.inl ⟨heq.1.trans hs.current, heq.2.2, (Option.some.inj hk).symm⟩
      · exact Or.inr hk
    bound := by
      show e.kindAt s.body name.text = some kind
      rw [hkindAt, if_pos ⟨hs.current.symm, hs.toIndexed.lt hs.bodyAt, rfl⟩]
    isNode := hnode
    isListed := hlst }⟩

theorem Entering.registering {u : Session}
    (hs : Registering p s) (he : Entering p s n kind t) (hg : Grows t u) (hi : Indexed p u)
    (hr : Regular u) (hscs : u.scopes = t.scopes)
    (hinst : ∀ name, kind = .component name → s.component = none → u.HasInstance name n)
    (huses : ∀ name outer, kind = .component name → s.component = some outer →
      u.Uses outer name) : Grows s u ∧ Registering p u := by
  have hgr := he.grows.trans hg
  refine ⟨hgr, { hi, hr with
    entered := fun scope c m kind' hk hb => ?_
    current := hgr.current.trans (hs.current.trans hgr.body.symm)
    bodyAt := ?_ }⟩
  · rw [hscs] at hk
    -- a name of an instance is the new one or was listed before
    rcases he.kindAt hk with ⟨rfl, rfl, rfl⟩ | hk
    · obtain rfl := hb.component_eq (hgr.bodyAt hs.bodyAt)
      exact ⟨hg.node he.isNode, hg.isSome_dependencies? he.isListed, hinst, huses⟩
    · obtain ⟨c', hb', -⟩ := hs.kinds (by rw [hk]; rfl)
      obtain rfl := hb.component_eq (hgr.bodyAt hb')
      exact (hs.entered hk hb').grows hgr
  · rw [hgr.body, hgr.component]
    exact hgr.bodyAt hs.bodyAt

/-! ### Members of a body -/

/-- The name of a member is bound: that of an instance to one, and that of a function to one whose
parameters are no instances. -/
def Bound (s : Session) (scope : ScopeId) : Decl → Prop
  | .resource d => ∃ kind, s.scopes.kindAt scope d.name.text = some (.resource kind)
  | .inst d => ∃ kind, s.scopes.kindAt scope d.name.text = some (.component kind)
  | .function d => ∃ type params, find? (s.scopes.bindings scope) d.name.text = some type ∧
    type.params? = some params ∧ ∀ param ∈ params, param.kind? = none
  | d => (find? (s.scopes.bindings scope) d.name.text).isSome

/-- A member was registered, or there is a finding. -/
structure Registers (p : Program) (s : Session) (d : Decl) (r : Bool × Session) : Prop where
  grows : Grows s r.2
  registering : Registering p r.2
  registered : r.2.findings = [] → d.isMember → r.1 = true ∧ r.2.Bound s.body d
  unbound : r.2.findings = [] → ∀ n, d.instanceName? = some n →
    find? (s.scopes.bindings s.body) n = none

theorem registers_report (hs : Registering p s) (d : Decl) (f : Diagnostic) (b : Bool) :
    Registers p s d (b, { s with findings := s.findings ++ [f] }) := by
  obtain ⟨hgr, hregs⟩ := Adds.of_types (types_report f s) hs
  have hne : s.findings ++ [f] ≠ [] := by simp
  exact ⟨hgr, hregs, fun h => absurd h hne, fun h => absurd h hne⟩

theorem alike_addResource (n : String) (type t : Ty) : t.Alike (addResource n type t) := by
  cases t <;> exact ⟨rfl, rfl, rfl, rfl⟩

theorem registers_resource (hs : Registering p s) (d : ResourceDecl)
    (hd : p.DeclaresInstance s.component d.name.text) :
    Registers p s (.resource d) ((registerResource d).run s) := by
  unfold registerResource
  rw [run_get_bind]
  split
  · next kind props _ _ =>
    rcases run_declare s d.name (.resource d.name.text kind props) with
      ⟨hunb, hrun⟩ | ⟨f, hrun⟩
    · rw [run_bind, hrun]
      have hrsc := alike_addResource d.name.text (.resource d.name.text kind props)
      obtain ⟨-, he⟩ := entering hs d.name (.resource d.name.text kind props) d.span hd
        hunb rfl rfl (types_modify d.schema.text hrsc _)
      obtain ⟨hgr, hregs⟩ := he.registering hs (Grows.refl _) he.toIndexed he.toRegular
        rfl nofun nofun
      refine ⟨hgr, hregs, fun _ _ => ⟨rfl, kind, he.bound⟩, ?_⟩
      rintro - n ⟨⟩
      exact hs.current ▸ hunb
    · rw [run_bind, hrun]
      exact registers_report hs _ f false
  · exact registers_report hs _ _ false
  · exact registers_report hs _ _ false

theorem enlarges_uses (used : String) :
    Enlarges fun c => { c with uses := addOnce c.uses used } where
  body _ := rfl
  scope _ := rfl
  uses _ _ hx := mem_addOnce.mpr (Or.inl hx)
  externals _ := Subset.refl _
  instances _ := Subset.refl _

theorem enlarges_instances (x : String) :
    Enlarges fun c => { c with instances := c.instances ++ [x] } where
  body _ := rfl
  scope _ := rfl
  uses _ := Subset.refl _
  externals _ := Subset.refl _
  instances _ := subset_append_left _ _

theorem Entering.tellOuter {name outer : String} (hs : Registering p s)
    (he : Entering p s n (.component name) t) (houter : s.component = some outer) :
    Grows s ((modifyComponent outer fun c => { c with uses := addOnce c.uses name }).run t).2 ∧
    Registering p
      ((modifyComponent outer fun c => { c with uses := addOnce c.uses name }).run t).2 := by
  refine he.registering hs (grows_modifyComponent outer (enlarges_uses name) t)
    (he.toIndexed.modifyComponent outer (fun _ => rfl) (fun _ => rfl) fun _ _ hx => Or.inl hx)
    (he.toRegular.modifyComponent outer _) rfl (fun _ _ hnone => ?_) fun name' outer' hk ho => ?_
  · rw [houter] at hnone
    cases hnone
  · cases hk
    obtain rfl := Option.some.inj (houter.symm.trans ho)
    obtain ⟨i, hi, -⟩ := he.hasComponent (he.grows.bodyAt (houter ▸ hs.bodyAt))
    exact ⟨_, by rw [find?_modifyComponent, if_pos rfl, hi]; rfl, mem_addOnce.mpr (Or.inr rfl)⟩

/-- A component gets to know an instance that has its entry. -/
theorem Entering.tellComponent {name x : String} (hs : Registering p s)
    (he : Entering p s n (.component name) t) (hnone : s.component = none)
    (hd : p.DeclaresInstance s.component n) (hnm : t.HasComponent name)
    (hx : x = qualifiedName s.component n) :
    Grows s ((modifyComponent name fun c => { c with instances := c.instances ++ [x] }).run t).2 ∧
    Registering p
      ((modifyComponent name fun c => { c with instances := c.instances ++ [x] }).run t).2 := by
  have hlst := he.isListed
  rw [hnone] at hd hlst hx
  obtain rfl : x = n := hx
  refine he.registering hs (grows_modifyComponent name (enlarges_instances x) t)
    (he.toIndexed.modifyComponent name (fun _ => rfl) (fun _ => rfl) fun i y hy => ?_)
    (he.toRegular.modifyComponent name _) rfl (fun name' hk _ => ?_) fun _ _ _ houter => ?_
  · rcases mem_append.mp hy with hy | hy
    · exact Or.inl hy
    · rw [mem_singleton.mp hy]
      exact Or.inr ⟨hd, hlst⟩
  · cases hk
    obtain ⟨i, hi⟩ := hnm
    exact ⟨_, by rw [find?_modifyComponent, if_pos rfl, hi]; rfl,
      mem_append_right _ (mem_singleton_self _)⟩
  · rw [hnone] at houter
    cases houter

/-- An instance of a component is entered, or is a finding. -/
theorem registers_instance (hs : Registering p s) (d : InstanceDecl)
    (hd : p.DeclaresInstance s.component d.name.text) :
    Registers p s (.inst d) ((registerInstance d).run s) := by
  unfold registerInstance
  rw [run_get_bind]
  split
  · next name inputs outputs nested hlk =>
    obtain ⟨scope, hres⟩ := Scopes.exists_of_lookup hlk
    have hnm : s.HasComponent name :=
      hs.definitions (Scopes.mem_chain_of_resolve hres).2 rfl
    rcases run_declare s d.name (.component name (some d.name.text) inputs outputs nested) with
      ⟨hunb, hrun⟩ | ⟨f, hrun⟩
    · obtain ⟨hq, he⟩ := entering hs d.name
        (.component name (some d.name.text) inputs outputs nested) d.span hd hunb rfl rfl
        fun h => ⟨Frame.refl _, h⟩
      have hfree : ∀ n, (inst d).instanceName? = some n →
          find? (s.scopes.bindings s.body) n = none := by
        rintro n ⟨⟩
        exact hs.current ▸ hunb
      rw [run_bind, hrun, if_pos rfl, run_bind, run_get_bind]
      -- in a body the component around is told what it uses; at the top level the component is
      -- told about its instance
      split
      · next outer houter =>
        obtain ⟨hgr, hregs⟩ := he.tellOuter hs houter
        exact ⟨hgr, hregs, fun _ _ => ⟨rfl, name, he.bound⟩, fun _ => hfree⟩
      · next hnone =>
        obtain ⟨hgr, hregs⟩ := he.tellComponent hs hnone hd hnm hq
        exact ⟨hgr, hregs, fun _ _ => ⟨rfl, name, he.bound⟩, fun _ => hfree⟩
    · rw [run_bind, hrun]
      exact registers_report hs _ f false
  · exact registers_report hs _ _ false
  · exact registers_report hs _ _ false

theorem registers_declare (hs : Registering p s) (d : Decl) (name : Ident) {type : Ty}
    (hty : type.Writable s.HasComponent) (hd : d.instanceName? = none)
    (hbd : ∀ t : Session, find? (t.scopes.bindings s.body) name.text = some type →
      t.Bound s.body d) : Registers p s d ((declare name type).run s) := by
  obtain ⟨hgr, hregs⟩ := Adds.of_types (types_declare name s hty) hs
  refine ⟨hgr, hregs, fun hfs _ => ?_, fun _ n hn => ?_⟩
  · rcases run_declare s name type with ⟨-, hrun⟩ | ⟨f, hrun⟩
    · rw [hrun]
      refine ⟨rfl, hbd _ ?_⟩
      rw [Scopes.find?_bindings_set, if_pos ⟨hs.current.symm, hs.lt hs.bodyAt, rfl⟩]
    · rw [hrun] at hfs
      exact absurd hfs (by simp)
  · rw [hd] at hn
    cases hn

theorem registers_typed (hs : Registering p s) (d : Decl) (name : Ident) (e : TypeExpr)
    (hd : d.instanceName? = none) (hbd : ∀ t : Session,
      (find? (t.scopes.bindings s.body) name.text).isSome → t.Bound s.body d) :
    Registers p s d ((registerTyped name e).run s) := by
  unfold registerTyped
  rw [run_get_bind]
  split
  · next type hres =>
    exact registers_declare hs d name (writable_resolveType hs.toRegular e hres) hd
      fun t ht => hbd t (by rw [ht]; rfl)
  · exact registers_report hs d _ false

theorem functionType_eq_ok (hs : s.Regular) {d : FunDecl} {type : Ty}
    (h : s.functionType d = .ok type) :
    ∃ params result, type = .function params result ∧ ∀ param ∈ params, param.kind? = none := by
  obtain ⟨params, result, hps, rfl⟩ := exists_of_functionType h
  exact ⟨params, result, rfl, fun param hparam =>
    (writable_resolveTypes hs _ hps param hparam).kind?⟩

theorem registers_function (hs : Registering p s) (d : FunDecl) :
    Registers p s (.function d) ((registerFunction d).run s) := by
  unfold registerFunction
  rw [run_get_bind]
  split
  · next type hty =>
    obtain ⟨params, result, rfl, hkinds⟩ := functionType_eq_ok hs.toRegular hty
    exact registers_declare hs _ d.name (Ty.Leaf.writable ⟨rfl, rfl, nofun⟩) rfl
      fun t ht => ⟨_, params, ht, rfl, hkinds⟩
  · exact registers_report hs _ _ false

theorem registers_skip (hs : Registering p s) (hmb : d.isMember = false) :
    Registers p s d (false, s) := by
  refine ⟨Grows.refl s, hs, fun _ h => ?_, fun _ n hn => ?_⟩
  · rw [hmb] at h
    cases h
  · rw [isMember_of_instanceName? hn] at hmb
    cases hmb

theorem registers_member (hs : Registering p s) (d : Decl)
    (hd : ∀ n, d.instanceName? = some n → p.DeclaresInstance s.component n) :
    Registers p s d ((registerMember d).run s) := by
  cases d with
  | function d => exact registers_function hs d
  | input d => exact registers_typed hs _ d.name d.type rfl fun _ => id
  | output d => exact registers_typed hs _ d.name d.type rfl fun _ => id
  | var d =>
    rw [registerMember]
    split
    · next e he => exact registers_typed hs _ d.name e rfl fun _ => id
    · next he => exact registers_skip hs (by rw [isMember, he]; rfl)
  | resource d => exact registers_resource hs d (hd _ rfl)
  | inst d => exact registers_instance hs d (hd _ rfl)
  | _ => exact registers_skip hs rfl

def Ready (s : Session) (scope : ScopeId) (d : Decl) : Prop :=
  d.isMember → s.isRegistered d.name ∧ s.Bound scope d

theorem Bound.grows (hg : Grows s t) (h : s.Bound scope d) : t.Bound scope d := by
  cases d with
  | resource d =>
    obtain ⟨kind, hk⟩ := h
    exact ⟨kind, hg.scopes.kindAt_eq_some hk⟩
  | inst d =>
    obtain ⟨kind, hk⟩ := h
    exact ⟨kind, hg.scopes.kindAt_eq_some hk⟩
  | function d =>
    obtain ⟨type, params, hty, hps, hkinds⟩ := h
    obtain ⟨type', hty', halike⟩ := hg.scopes.bound _ _ type hty
    exact ⟨type', params, hty', halike.params?.trans hps, hkinds⟩
  | _ => exact hg.scopes.isSome_find? h

theorem Bound.kindAt (h : s.Bound scope d)
    (hn : d.instanceName? = some n) : ∃ kind, s.scopes.kindAt scope n = some kind := by
  cases d with
  | resource d =>
    cases hn
    obtain ⟨kind, hkind⟩ := h
    exact ⟨_, hkind⟩
  | inst d =>
    cases hn
    obtain ⟨kind, hkind⟩ := h
    exact ⟨_, hkind⟩
  | _ => cases hn

theorem Bound.isSome_find? (h : s.Bound scope d) :
    (find? (s.scopes.bindings scope) d.name.text).isSome := by
  have hkind : ∀ {n kind}, s.scopes.kindAt scope n = some kind →
      (find? (s.scopes.bindings scope) n).isSome := by
    intro n kind hkind
    obtain ⟨type, hty, -⟩ := Option.bind_eq_some_iff.mp hkind
    rw [hty]
    rfl
  cases d with
  | resource d =>
    obtain ⟨kind, hk⟩ := h
    exact hkind hk
  | inst d =>
    obtain ⟨kind, hk⟩ := h
    exact hkind hk
  | function d =>
    obtain ⟨type, params, hty, -⟩ := h
    exact Option.isSome_iff_exists.mpr ⟨type, hty⟩
  | _ => exact h

theorem isRegistered_mono (hs : Stays s t) {name : Ident} (h : s.isRegistered name) :
    t.isRegistered name :=
  contains_iff_mem.mpr (hs.registered (contains_iff_mem.mp h))

theorem Ready.grows (hg : Grows s t) (h : s.Ready scope d) :
    t.Ready scope d := fun hmb =>
  ⟨isRegistered_mono hg.toStays (h hmb).1, (h hmb).2.grows hg⟩

theorem Ready.isSome_find? (h : s.Ready scope d)
    (hn : d.instanceName? = some n) : (find? (s.scopes.bindings scope) n).isSome := by
  rw [← name_of_instanceName? hn]
  exact (h (isMember_of_instanceName? hn)).2.isSome_find?

/-- The session after one more declaration is registered. -/
def enlist (s : Session) (d : Decl) : Session := ((registerMembers [d]).run s).2

theorem run_registerMembers_cons (d : Decl) (ds : List Decl) (s : Session) :
    ((registerMembers (d :: ds)).run s).2 = ((registerMembers ds).run (s.enlist d)).2 := by
  rw [enlist, registerMembers, registerMembers, run_bind, run_bind]
  cases ((registerMember d).run s).1 <;> rfl

theorem run_registerMembers (ds : List Decl) (s : Session) :
    ((registerMembers ds).run s).2 = ds.foldl enlist s := by
  induction ds generalizing s with
  | nil => rfl
  | cons d ds ih => rw [run_registerMembers_cons, ih, foldl_cons]

theorem run_registerMembers_append (ds es : List Decl) (s : Session) :
    ((registerMembers (ds ++ es)).run s).2 =
      ((registerMembers es).run ((registerMembers ds).run s).2).2 := by
  rw [run_registerMembers, run_registerMembers, run_registerMembers, foldl_append]

theorem enlist_eq (s : Session) (d : Decl) :
    ∃ registered, s.enlist d = { ((registerMember d).run s).2 with registered } := by
  rw [enlist, registerMembers, run_bind]
  cases ((registerMember d).run s).1 with
  | false => exact ⟨_, rfl⟩
  | true => exact ⟨d.name.span :: ((registerMember d).run s).2.registered, rfl⟩

/-- The members of a body were registered, under different names if they are instances. -/
structure RegistersAll (p : Program) (s : Session) (ds : List Decl) (t : Session) : Prop where
  grows : Grows s t
  registering : Registering p t
  ready : t.findings = [] → ∀ d ∈ ds, t.Ready s.body d
  nodup : t.findings = [] → (instanceNames ds).Nodup
  unbound : t.findings = [] → ∀ n ∈ instanceNames ds,
    find? (s.scopes.bindings s.body) n = none

/-- One member, and then the others. -/
theorem registers_step (d : Decl) (ds : List Decl) (hs : Registering p s)
    (hd : ∀ n, d.instanceName? = some n → p.DeclaresInstance s.component n) :
    ∃ t, ((registerMembers (d :: ds)).run s).2 = ((registerMembers ds).run t).2 ∧
      Grows s t ∧ Registering p t ∧ (t.findings = [] → t.Ready s.body d ∧
        ∀ n, d.instanceName? = some n → find? (s.scopes.bindings s.body) n = none) := by
  obtain ⟨hgr, hregs, hreg, hunb⟩ := registers_member hs d hd
  have hrun : ((registerMembers (d :: ds)).run s).2 = ((registerMembers ds).run
      (if ((registerMember d).run s).1 then
        ((markRegistered d.name).run ((registerMember d).run s).2).2
      else ((registerMember d).run s).2)).2 := by
    rw [registerMembers, run_bind]
    cases ((registerMember d).run s).1 <;> rfl
  cases hrt : ((registerMember d).run s).1 with
  | false =>
    rw [hrt] at hrun hreg
    refine ⟨_, hrun, hgr, hregs, fun hfs => ⟨fun hmb => ?_, hunb hfs⟩⟩
    exact absurd (hreg hfs hmb).1 Bool.false_ne_true
  | true =>
    rw [hrt] at hrun
    obtain ⟨hgr', hregs'⟩ :=
      Adds.of_types (types_markRegistered d.name _) hregs
    refine ⟨_, hrun, hgr.trans hgr', hregs', fun hfs => ⟨fun hmb => ?_,
      hunb hfs⟩⟩
    exact ⟨contains_iff_mem.mpr mem_cons_self,
      (hreg hfs hmb).2.grows hgr'⟩

/-- All members are registered, or there is a finding. -/
theorem registers_members (ds : List Decl) (hs : Registering p s)
    (hds : ∀ d ∈ ds, ∀ n, d.instanceName? = some n → p.DeclaresInstance s.component n) :
    RegistersAll p s ds ((registerMembers ds).run s).2 := by
  induction ds generalizing s with
  | nil =>
    exact ⟨Grows.refl s, hs, fun _ d hd => (not_mem_nil hd).elim, fun _ => nodup_nil,
      fun _ n hn => (not_mem_nil hn).elim⟩
  | cons d ds ih =>
    obtain ⟨t, hrun, hgr, ht, hready⟩ := registers_step d ds hs (hds d mem_cons_self)
    have hrest := ih ht fun e he n hn => hgr.component ▸ hds e (mem_cons_of_mem d he) n hn
    rw [hrun]
    -- without findings at the end there were none after the first member
    have hnil := hrest.grows.findings_eq_nil
    have hnms : ∀ n, d.instanceName? = some n → n ∉ instanceNames ds →
        (instanceNames ds).Nodup → (instanceNames (d :: ds)).Nodup := by
      intro n hn hmem hnd
      rw [instanceNames, filterMap_cons_some hn]
      exact nodup_cons.mpr ⟨hmem, hnd⟩
    refine ⟨hgr.trans hrest.grows, hrest.registering, fun hfs e he => ?_,
      fun hfs => ?_, fun hfs n hn => ?_⟩
    · rcases mem_cons.mp he with rfl | he
      · exact (hready (hnil hfs)).1.grows hrest.grows
      · exact hgr.body ▸ hrest.ready hfs e he
    · have hnd := hrest.nodup hfs
      cases hn : d.instanceName? with
      | none => rwa [instanceNames, filterMap_cons_none hn]
      | some n =>
        refine hnms n hn (fun hmem => ?_) hnd
        -- the name is bound after the first member, so no later one can have it
        have hbd := (hready (hnil hfs)).1.isSome_find? hn
        rw [← hgr.body, hrest.unbound hfs n hmem] at hbd
        cases hbd
    · obtain ⟨e, he, hen⟩ := mem_instanceNames.mp hn
      rcases mem_cons.mp he with rfl | he
      · exact (hready (hnil hfs)).2 n hen
      · have hnone := hrest.unbound hfs n (mem_instanceNames.mpr ⟨e, he, hen⟩)
        by_contra hsome
        have hpersist := hgr.scopes.isSome_find? (Option.isSome_iff_ne_none.mpr hsome)
        rw [← hgr.body, hnone] at hpersist
        cases hpersist

end Provision.Session
