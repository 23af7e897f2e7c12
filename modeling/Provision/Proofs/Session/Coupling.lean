import Provision.Proofs.Session.Abreast.Checking
import Provision.Proofs.Session.Mirror

/-!
# Checks leave the same notes

In sessions that look the same an expression has types that differ in the order of resources only,
and what it reads is noted in the same way (`Session.tracks_coupled`). The notes that reading and
referring to instances leave are found first, one basic operation after the other. So the check of
any declarations comes to sessions that look the same, and leaves the same notes
(`Session.couples_checkDecls`). This needs decorators that do not look at the order in which schemas
list their resources.
-/

namespace Provision.Session

variable {k : Checker} {s t : Session}

/-! ### Findings -/

theorem rests_report (d : Diagnostic) : Moves Rests (report d) := fun _ h =>
  { Mirrors.refl h with }

theorem notes_add_findings (s : Session) (more : List Diagnostic) :
    { s with findings := s.findings ++ more }.notes =
      s.notes ∪ {n | n = .finding ∧ more ≠ [] ∨ n = .cycle ∧ ∃ d ∈ more, d.isCycle} := by
  ext n
  cases n with
  | finding =>
    show s.findings ++ more ≠ [] ↔ s.findings ≠ [] ∨ _
    simp [imp_iff_not_or]
  | cycle =>
    show (∃ d ∈ s.findings ++ more, d.isCycle) ↔ (∃ d ∈ s.findings, d.isCycle) ∨ _
    simp [or_and_right, exists_or]
  | _ => exact (or_iff_left (by simp)).symm

theorem couples_report {d e : Diagnostic} (h : d.isCycle = e.isCycle) :
    Couples Eq (report d) (report e) :=
  couples_of_rests (rests_report d) (rests_report e) fun s t _ =>
    ⟨_, notes_add_findings s [d], (notes_add_findings t [e]).trans (by simp [h])⟩

/-! ### Links -/

theorem rests_modifyComponent (name : String) {f : ComponentInfo → ComponentInfo}
    (hf : ∀ c, (f c).outline = c.outline) : Moves Rests (modifyComponent name f) := fun s h => by
  have hcomps : ((modifyComponent name f).run s).2.components.map
      (fun c => (c.1, c.2.outline)) = s.components.map fun c => (c.1, c.2.outline) :=
    Table.map_modify_of_eq s.components name hf
  exact { Mirrors.refl h with
    components := hcomps
    sound' := h.of_outline hcomps rfl h.1 }

theorem rests_addExternals (c : String) (ys : List String) : Moves Rests
    (modifyComponent c fun i => { i with externals := ys.foldl addOnce i.externals }) :=
  rests_modifyComponent c fun _ => rfl

theorem rests_modifyGraph (scope : ScopeId) {f : DependencyGraph → DependencyGraph}
    (hf : ∀ g, g.WellFormed → (f g).WellFormed) : Moves Rests (modifyGraph f scope) := fun s h => by
  have hbds : ((modifyGraph f scope).run s).2.bodies.map (fun b => (b.1, b.2.component)) =
      s.bodies.map fun b => (b.1, b.2.component) := by
    show (s.bodies.map _).map _ = _
    rw [List.map_map]
    refine List.map_congr_left fun b _ => ?_
    by_cases hb : b.1 = scope <;> simp [hb]
  have hgraphs : ∀ b ∈ ((modifyGraph f scope).run s).2.bodies, b.2.graph.WellFormed := by
    intro b hb
    obtain ⟨b₀, hb₀, rfl⟩ := List.mem_map.mp hb
    split
    · exact hf _ (h.1 b₀ hb₀)
    · exact h.1 b₀ hb₀
  exact { Mirrors.refl h with
    bodies := hbds
    sound' := h.of_outline rfl hbds hgraphs }

theorem rests_modifyInstance (x : String) (f : InstanceInfo → InstanceInfo) :
    Moves Rests (modifyInstance x f) := fun s h =>
  { Mirrors.refl h with
    instances := by
      intro y
      rw [dependencies?_modifyInstance]
      split
      · rw [dependencies?, Option.isSome_map, Option.isSome_map]
      · rfl }

theorem notes_add_externals (c : String) (ys : List String) (s : Session) :
    ((modifyComponent c fun i => { i with externals := ys.foldl addOnce i.externals }).run
      s).2.notes = s.notes ∪
        {n | ∃ y ∈ ys, n = .external c y ∧ (Table.find? s.components c).isSome} := by
  ext n
  cases n with
  | external d x =>
    show Needs _ d x ↔ s.Needs d x ∨ _
    unfold Needs
    rw [find?_modifyComponent]
    by_cases hd : d = c
    · subst hd
      cases Table.find? s.components d <;> simp [mem_foldl_addOnce]
    · simp [hd]
  | member d x =>
    refine Iff.trans ?_ (or_iff_left (by simp)).symm
    show HasInstance _ d x ↔ s.HasInstance d x
    unfold HasInstance
    rw [find?_modifyComponent]
    by_cases hd : d = c
    · subst hd
      cases Table.find? s.components d <;> simp
    · simp [hd]
  | _ => exact (or_iff_left (by simp)).symm

theorem couples_addExternal (c y : String) :
    Couples Eq (modifyComponent c fun i => { i with externals := addOnce i.externals y })
      (modifyComponent c fun i => { i with externals := addOnce i.externals y }) := by
  have hrst := rests_addExternals c [y]
  refine couples_of_rests hrst hrst fun s t hst => ⟨_, notes_add_externals c [y] s, ?_⟩
  have hnotes := notes_add_externals c [y] t
  rw [hst.isSome_component] at hnotes
  exact hnotes

theorem notes_add_edge (hs : Sound s) (x y : String) (kind : EdgeKind) (scope : ScopeId) :
    ((modifyGraph (fun g => g.addEdge x y kind) scope).run s).2.notes =
      s.notes ∪ {n | n = .edge scope x y ∧ (s.body? scope).isSome} := by
  ext n
  cases n with
  | edge scope' a b =>
    show Edge _ scope' a b ↔ s.Edge scope' a b ∨ _
    unfold Edge
    rw [body?_modifyGraph]
    by_cases hsc : scope' = scope
    · subst hsc
      cases hb : s.body? scope' with
      | none => simp
      | some b₀ => simp [DependencyGraph.hasEdge_addEdge (hs.wellFormed hb)]
    · simp [hsc]
  | _ => exact (or_iff_left (by simp)).symm

theorem notes_add_dependency (x y : String) (s : Session) :
    ((addDependency x y).run s).2.notes =
      s.notes ∪ {n | n = .dependency x y ∧ (s.dependencies? x).isSome} := by
  ext n
  cases n with
  | dependency a b =>
    refine depends_addDependency.trans (or_congr_right ?_)
    simp [and_comm]
  | _ => exact (or_iff_left (by simp)).symm

theorem rests_addEdge (x y : String) (kind : EdgeKind) (scope : ScopeId) :
    Moves Rests (modifyGraph (fun g => g.addEdge x y kind) scope) :=
  rests_modifyGraph scope fun _ hg => hg.addEdge x y kind

theorem couples_addEdge (x y : String) (kind : EdgeKind) (scope : ScopeId) :
    Couples Eq (modifyGraph (fun g => g.addEdge x y kind) scope)
      (modifyGraph (fun g => g.addEdge x y kind) scope) := by
  have hrst := rests_addEdge x y kind scope
  refine couples_of_rests hrst hrst fun s t hst =>
    ⟨_, notes_add_edge hst.sound x y kind scope, ?_⟩
  rw [notes_add_edge hst.sound', hst.isSome_body]

theorem couples_addDependency (x y : String) :
    Couples Eq (addDependency x y) (addDependency x y) := by
  have hrst := rests_modifyInstance x fun i => { i with dependencies := addOnce i.dependencies y }
  refine couples_of_rests hrst hrst fun s t hst => ⟨_, notes_add_dependency x y s, ?_⟩
  rw [notes_add_dependency, hst.instances]

/-! ### Expressions -/

theorem Coupled.same_notes {s₀ t₀ u v : Session} (h : Coupled s₀ t₀ s t) (hmir : Mirrors u v)
    (hs : u.notes = s.notes) (ht : v.notes = t.notes) : Coupled s₀ t₀ u v :=
  ⟨hmir, hs.symm ▸ ht.symm ▸ h.notes⟩

/-- What expressions read looks the same, and what they note is the same. -/
theorem tracks_coupled (s₀ t₀ : Session) :
    Tracks Ty.Like (fun d e => d.isCycle = e.isCycle) (Coupled s₀ t₀) where
  slack := Ty.slack_like
  resolve h := h.scopes.resolve
  get? h := h.scopes.get?
  current h := h.scopes.current.symm
  length h := h.scopes.length.symm
  qualify h scope n := (h.scopes.qualify scope n).symm
  aliases h _ := by rw [h.aliases]
  isRegistered h name := (h.toMirrors.isRegistered name).symm
  body h := h.body.symm
  component h := h.component.symm
  reader h := h.reader.symm
  depth h := h.depth.symm
  report h := couples_report h s₀ t₀
  set h hab _ := h.same_notes { h.toMirrors with scopes := h.scopes.set _ hab } rfl rfl
  within h scope := h.same_notes { h.toMirrors with scopes := h.scopes.enter scope } rfl rfl
  inside h _ scope := h.same_notes
    { h.toMirrors with scopes := h.scopes.enter scope, body := rfl, component := rfl } rfl rfl
  outside {s t _ _} h h' := by
    refine h'.same_notes
      { h'.toMirrors with scopes := ?_, body := h.body, component := rfl } rfl rfl
    show Scopes.Mirrors _ (Scopes.enter _ s.scopes.current) (Scopes.enter _ t.scopes.current)
    rw [h.scopes.current]
    exact h'.scopes.enter _
  newChild h h' name := h'.same_notes { h'.toMirrors with scopes := h.scopes.newChild name } rfl rfl
  atDepth h _ := h.same_notes { h.toMirrors with depth := rfl } rfl rfl
  reading h _ := h.same_notes { h.toMirrors with reader := rfl } rfl rfl
  edge x y kind scope := couples_addEdge x y kind scope s₀ t₀
  external c y := couples_addExternal c y s₀ t₀
  dependency x y := couples_addDependency x y s₀ t₀

/-! ### Declarations -/

theorem matched_checkSite {decorator : Decorator} (hdec : decorator.Extensional)
    (d : Decoration) (site : Site) {a b : Ty} (h : a.Like b) :
    Matched Eq (checkSite decorator d site a) (checkSite decorator d site b) := by
  unfold checkSite
  cases decorator.checkTarget d site with
  | error finding => exact .error rfl
  | ok refs =>
    simp only [bind, Except.bind]
    have hty := hdec d site a b h
    generalize decorator.checkType d site a = x, decorator.checkType d site b = y at hty ⊢
    cases hty with
    | ok _ => exact .ok rfl
    | error hcyc => exact .error hcyc

theorem couples_runDecorations (hk : k.registry.Extensional) (site : Site) {a b : Ty}
    (h : a.Like b) (value : Option Expr) (refs : List Reference) (ds : List Decoration) :
    Couples Eq (runDecorations k site a value refs ds)
      (runDecorations k site b value refs ds) := by
  intro s₀ t₀
  induction ds generalizing refs with
  | nil => exact Abreast.pure rfl
  | cons d ds ih =>
    rw [runDecorations, runDecorations]
    cases hget : k.registry.get? d.name.text with
    | none => exact Abreast.pure rfl
    | some decorator =>
      dsimp only
      have hsite := matched_checkSite (hk _ (List.mem_of_find?_eq_some hget)) d site h
      generalize checkSite decorator d site a = x, checkSite decorator d site b = y at hsite ⊢
      cases hsite with
      | error hcyc => exact (couples_report hcyc s₀ t₀).bind_eq fun _ => Abreast.pure rfl
      | @ok more _ hmore =>
        subst hmore
        refine Abreast.ite (Abreast.bind_eq (Abreast.modify fun _ _ hst => ?_) fun _ => ih _) (ih _)
        exact hst.same_notes { hst.toMirrors with } rfl rfl

theorem notes_recordDecorations (x : String) (ds : List Decoration) (s : Session) :
    ((recordDecorations x ds).run s).2.notes = s.notes := by
  ext n
  cases n with
  | dependency a b =>
    show Depends _ a b ↔ s.Depends a b
    unfold Depends recordDecorations
    rw [dependencies?_modifyInstance]
    split
    · rfl
    · rfl
  | _ => exact Iff.rfl

theorem couples_recordDecorations (x : String) (ds : List Decoration) :
    Couples Eq (recordDecorations x ds) (recordDecorations x ds) :=
  couples_of_rests (rests_modifyInstance x _) (rests_modifyInstance x _) fun s t _ =>
    ⟨∅, by rw [notes_recordDecorations, Set.union_empty],
      by rw [notes_recordDecorations, Set.union_empty]⟩

theorem Mirrors.schemaDecl? (h : Mirrors s t) (n : String) : t.schemaDecl? n = s.schemaDecl? n := by
  unfold Session.schemaDecl?
  rw [h.schemas]
  have hfound := h.scopes.resolve n
  generalize s.scopes.resolve n = x, t.scopes.resolve n = y at hfound ⊢
  cases hfound <;> rfl

/-- Decorators that do not look at the order of resources go along. -/
theorem follows_coupled (hk : k.registry.Extensional) (s₀ t₀ : Session) :
    Follows k id (fun _ => True) Ty.Like (fun d e => d.isCycle = e.isCycle) (Coupled s₀ t₀) where
  toTracks := tracks_coupled s₀ t₀
  rebind h hab := h.same_notes { h.toMirrors with scopes := h.scopes.set _ hab } rfl rfl
  requiredProperties h n := by rw [h.toMirrors.schemaDecl?]
  components {s t} h n := by
    have hotl := congrArg (Option.map fun o : List Decl × ScopeId × List String =>
      (o.2.1, requiredInputs o.1)) (h.toMirrors.outline n)
    rw [Option.map_map, Option.map_map] at hotl
    exact hotl.symm
  runDecorators site value _ hab := by
    refine Abreast.get_bind fun s t hst => ?_
    rw [hst.toMirrors.isHalted]
    exact Abreast.ite (Abreast.pure rfl) (couples_runDecorations hk site hab value [] _ s₀ t₀)
  record x l := couples_recordDecorations x l s₀ t₀
  checkAlias {d} _ := by
    show Abreast _ _ (checkAlias d) (checkAlias d)
    unfold checkAlias
    split
    · refine Abreast.get_bind fun s t hst => ?_
      rw [hst.toMirrors.isHalted]
      exact Abreast.ite (Abreast.pure rfl) ((tracks_coupled s₀ t₀).reportProblem _ _)
    · exact Abreast.pure rfl

theorem couples_checkDecl (hk : k.registry.Extensional) (d : Decl) :
    Couples Eq (checkDecl k d) (checkDecl k d) := fun s₀ t₀ => by
  have hd := (follows_coupled hk s₀ t₀).checkDecl (d := d) fun _ _ => trivial
  rwa [Decl.redecorate_id] at hd

/-- From sessions that look the same the check of any declarations comes to sessions that look the
same, and leaves the same notes. -/
theorem couples_checkDecls (hk : k.registry.Extensional) (ds : List Decl) :
    Couples Eq (checkDecls k ds) (checkDecls k ds) := fun s₀ t₀ => by
  have hds := (follows_coupled hk s₀ t₀).checkDecls fun d (_ : d ∈ ds) _ _ => trivial
  rwa [Decl.redecorateAll_id] at hds

end Provision.Session
