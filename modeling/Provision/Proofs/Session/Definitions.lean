import Provision.Proofs.Session.Registration

/-!
# Registration of a program

Components get a scope for their body and a signature before the bodies are registered. Without
findings, registration ends with a session in which every declaration is ready to be checked
(`Session.registers_program`).
-/

namespace Provision.Session

open List Table

variable {p : Program} {s t : Session} {name : Ident} {c : Option String}

/-! ### A new component -/

/-- The session with one more component, whose body has a scope already. -/
def withComponent (s : Session) (name : Ident) (type : Ty) (body : List Decl) (scope : ScopeId) :
    Session :=
  { s with
    scopes := s.scopes.set name.text type
    registered := name.span :: s.registered
    components := s.components.insert name.text { body, scope }
    bodies := s.bodies ++ [(scope, { component := some name.text })] }

section WithComponent

variable {name : Ident} {type : Ty} {body : List Decl} {scope : ScopeId}

theorem body?_withComponent (hfresh : s.body? scope = none) (scope' : ScopeId) :
    (s.withComponent name type body scope).body? scope' =
      if scope' = scope then some { component := some name.text } else s.body? scope' := by
  show lookup scope' (s.bodies ++ [_]) = _
  rw [lookup_append]
  by_cases hs : scope' = scope
  · subst hs
    have hnone : lookup scope' s.bodies = none := hfresh
    simp [hnone]
  · have hne : (scope' == scope) = false := beq_eq_false_iff_ne.mpr hs
    rw [if_neg hs, lookup_cons, hne, lookup_nil, Option.or_none, body?]

theorem find?_withComponent (n : String) :
    find? (s.withComponent name type body scope).components n =
      if n = name.text then some { body, scope } else find? s.components n :=
  find?_insert

theorem bodyAt_withComponent (hfresh : s.body? scope = none) {scope' : ScopeId} :
    (s.withComponent name type body scope).BodyAt scope' c ↔
      scope' = scope ∧ c = some name.text ∨ s.BodyAt scope' c := by
  unfold BodyAt
  rw [body?_withComponent hfresh]
  by_cases hs : scope' = scope
  · subst hs
    simp [hfresh, eq_comm]
  · simp [hs]

/-- A new component takes nothing away. -/
theorem grows_withComponent (hfresh : s.body? scope = none)
    (hunb : find? (s.scopes.bindings s.scopes.current) name.text = none)
    (hnew : find? s.components name.text = none) :
    Grows s (s.withComponent name type body scope) := by
  have hfind : ∀ n i, find? s.components n = some i →
      find? (s.withComponent name type body scope).components n = some i := by
    intro n i hi
    rw [find?_withComponent, if_neg, hi]
    rintro rfl
    rw [hnew] at hi
    cases hi
  exact { Stays.refl s with
    registered := subset_cons_self _ _
    scopes := Scopes.persists_set hunb
    bodyAt := fun hb => (bodyAt_withComponent hfresh).mpr (Or.inr hb)
    node := fun {scope' x} hx => by
      obtain ⟨b, hb, hx⟩ := hx
      refine ⟨b, ?_, hx⟩
      rw [body?_withComponent hfresh, if_neg, hb]
      rintro rfl
      rw [hfresh] at hb
      cases hb
    isSome_dependencies? := id
    component_find? := fun {n i} hi => ⟨i, hfind n i hi, rfl, rfl⟩
    uses := fun ⟨i, hi, hu⟩ => ⟨i, hfind _ i hi, hu⟩
    needs := fun ⟨i, hi, hx⟩ => ⟨i, hfind _ i hi, hx⟩
    hasInstance := fun ⟨i, hi, hx⟩ => ⟨i, hfind _ i hi, hx⟩ }

theorem AtTop.current_eq_global (hs : AtTop p s) : s.scopes.current = ScopeId.global :=
  hs.current.trans (hs.eq_global (hs.component_none ▸ hs.bodyAt))

theorem AtTop.find?_component (hs : AtTop p s)
    (hunb : find? (s.scopes.bindings s.scopes.current) name.text = none) :
    find? s.components name.text = none := by
  rw [hs.current_eq_global] at hunb
  cases hi : find? s.components name.text with
  | none => rfl
  | some i =>
    have hbd := (hs.component hi).2.2
    rw [hunb] at hbd
    cases hbd

/-- A component has a place of its own. -/
theorem Placed.withComponent (hs : Placed s) (hsc : scope < s.scopes.all.length)
    (hfresh : s.body? scope = none) (hnm : (s.scopes.scope scope).name = some name.text)
    (hpar : (s.scopes.scope scope).parent = some ScopeId.global)
    (hper : s.scopes.Persists (s.scopes.set name.text type))
    (hnew : ∀ scope', ¬ s.BodyAt scope' (some name.text)) :
    Placed (s.withComponent name type body scope) where
  nodup := by
    have hmap : (s.withComponent name type body scope).bodies.map (·.1) =
        s.bodies.map (·.1) ++ [scope] := by
      rw [Session.withComponent, map_append]
      rfl
    rw [hmap]
    refine hs.nodup.append (nodup_singleton scope) fun scope' hmem hmem' => ?_
    obtain ⟨⟨scope'', b⟩, hb, rfl⟩ := mem_map.mp hmem
    obtain rfl := mem_singleton.mp hmem'
    rw [hs.mem_bodies, hfresh] at hb
    cases hb
  top := (bodyAt_withComponent hfresh).mpr (Or.inr hs.top)
  unique hb hb' := by
    rcases (bodyAt_withComponent hfresh).mp hb with ⟨rfl, rfl⟩ | hold
    · rcases (bodyAt_withComponent hfresh).mp hb' with ⟨rfl, -⟩ | hold'
      · rfl
      · exact absurd hold' (hnew _)
    · rcases (bodyAt_withComponent hfresh).mp hb' with ⟨rfl, rfl⟩ | hold'
      · exact absurd hold (hnew _)
      · exact hs.unique hold hold'
  lt hb := by
    rcases (bodyAt_withComponent hfresh).mp hb with ⟨rfl, rfl⟩ | hold
    · exact hsc.trans_le hper.length_le
    · exact (hs.lt hold).trans_le hper.length_le
  name hb := by
    rcases (bodyAt_withComponent hfresh).mp hb with ⟨rfl, rfl⟩ | hold
    · exact (hper.name _ hsc).trans hnm
    · exact (hper.name _ (hs.lt hold)).trans (hs.name hold)
  parent hb := by
    rcases (bodyAt_withComponent hfresh).mp hb with ⟨rfl, rfl⟩ | hold
    · exact (hper.parent _ hsc).trans hpar
    · exact (hper.parent _ (hs.lt hold)).trans (hs.parent hold)

/-- A component that is defined has no instances as yet. -/
theorem Indexed.withComponent (hs : Indexed p s) (hsc : scope < s.scopes.all.length)
    (hfresh : s.body? scope = none) (hnm : (s.scopes.scope scope).name = some name.text)
    (hpar : (s.scopes.scope scope).parent = some ScopeId.global)
    (hkeeps : s.scopes.Keeps (s.scopes.set name.text type))
    (hnew : find? s.components name.text = none)
    (hbd : find? ((s.scopes.set name.text type).bindings ScopeId.global) name.text =
      some type) : Indexed p (s.withComponent name type body scope) := by
  -- no body is that of a component of this name yet
  have hno : ∀ scope', ¬ s.BodyAt scope' (some name.text) := by
    intro scope' hb
    obtain ⟨i, hi, -⟩ := hs.hasComponent hb
    rw [hnew] at hi
    cases hi
  refine { hs.toPlaced.withComponent hsc hfresh hnm hpar hkeeps.toPersists hno with
    kinds := fun {scope' n} hk => ?_
    origin := hs.origin
    graph := fun {scope' b} hb => ?_
    node := fun {scope' b x} hb hx => ?_
    names := nodup_names_insert hs.names
    component := fun {n i} hi => ?_
    hasInstance := fun {n x} hx => ?_
    hasComponent := fun {scope' n} hb => ?_ }
  · have hk' : (s.scopes.kindAt scope' n).isSome := hkeeps.kindAt scope' n ▸ hk
    obtain ⟨c, hb, hd⟩ := hs.kinds hk'
    exact ⟨c, (bodyAt_withComponent hfresh).mpr (Or.inr hb), hd⟩
  · rw [body?_withComponent hfresh] at hb
    split at hb
    · cases hb
      exact ⟨DependencyGraph.wellFormed_empty, rfl⟩
    · exact hs.graph hb
  · rw [body?_withComponent hfresh] at hb
    split at hb
    · cases hb
      exact (not_mem_nil hx).elim
    · exact hs.node hb hx
  · rw [find?_withComponent] at hi
    split at hi
    · next hn =>
      cases hi
      refine ⟨(bodyAt_withComponent hfresh).mpr (Or.inl ⟨rfl, congrArg some hn⟩), rfl, ?_⟩
      rw [hn]
      exact Option.isSome_iff_exists.mpr ⟨type, hbd⟩
    · obtain ⟨hb, hexts, hn⟩ := hs.component hi
      exact ⟨(bodyAt_withComponent hfresh).mpr (Or.inr hb), hexts,
        hkeeps.toPersists.isSome_find? hn⟩
  · obtain ⟨i, hi, hx⟩ := hx
    rw [find?_withComponent] at hi
    split at hi
    · cases hi
      exact (not_mem_nil hx).elim
    · exact hs.hasInstance ⟨i, hi, hx⟩
  · rw [find?_withComponent]
    rcases (bodyAt_withComponent hfresh).mp hb with ⟨rfl, hn⟩ | hold
    · exact ⟨_, if_pos (Option.some.inj hn), rfl⟩
    · have hne : n ≠ name.text := fun hn => hno scope' (hn ▸ hold)
      rw [if_neg hne]
      exact hs.hasComponent hold

/-- A component is bound by its name, and its body is new. -/
theorem AtTop.withComponent (hs : AtTop p s)
    (hsc : scope < s.scopes.all.length) (hfresh : s.body? scope = none)
    (hnm : (s.scopes.scope scope).name = some name.text)
    (hpar : (s.scopes.scope scope).parent = some ScopeId.global)
    (hunb : find? (s.scopes.bindings s.scopes.current) name.text = none)
    (hkind : type.kind? = none) (hdef : ∀ n, type.definition? = some n → n = name.text) :
    Registering p (s.withComponent name type body scope) := by
  have hnew := hs.find?_component hunb
  have hgr : Grows s (s.withComponent name type body scope) :=
    grows_withComponent hfresh hunb hnew
  have hkeeps : s.scopes.Keeps (s.scopes.set name.text type) := Scopes.keeps_set hunb hkind
  have hbd : find? ((s.scopes.set name.text type).bindings ScopeId.global) name.text =
      some type := by
    rw [Scopes.find?_bindings_set,
      if_pos ⟨hs.current_eq_global.symm, hs.lt hs.top, rfl⟩]
  have hknown : ∀ n, s.HasComponent n →
      (s.withComponent name type body scope).HasComponent n := fun n ⟨i, hi⟩ =>
    (hgr.component_find? hi).imp fun _ hj => hj.1
  refine { hs.toIndexed.withComponent hsc hfresh hnm hpar hkeeps hnew hbd with
    current_lt := hs.current_lt.trans_le hkeeps.length_le
    aliases := fun ha => ?_
    definitions := fun {scope' n t n'} ht hn => ?_
    entered := fun scope' c n kind hk hb => ?_
    current := hs.current
    bodyAt := hgr.bodyAt hs.bodyAt }
  · obtain ⟨t, ht, hw⟩ := hs.aliases ha
    obtain ⟨t', ht', halike⟩ := hkeeps.bound _ _ t ht
    exact ⟨t', ht', (hw.alike halike).mono hknown⟩
  · have ht : find? ((s.scopes.set name.text type).bindings scope') n = some t := ht
    rw [Scopes.find?_bindings_set] at ht
    split at ht
    · cases ht
      obtain rfl := hdef n' hn
      exact ⟨_, by rw [find?_withComponent, if_pos rfl]⟩
    · exact hknown n' (hs.definitions ht hn)
  · have hk : (s.scopes.set name.text type).kindAt scope' n = some kind := hk
    rw [hkeeps.kindAt] at hk
    obtain ⟨c', hb', -⟩ := hs.kinds (by rw [hk]; rfl)
    obtain rfl := hb.component_eq (hgr.bodyAt hb')
    exact (hs.entered hk hb').grows hgr

end WithComponent

/-! ### Defining components -/

/-- The session in which a component has a scope and its signature is known. -/
def afterSignature (s : Session) (name : Ident) (body : List Decl) : Signature × Session :=
  (inScope s.scopes.all.length do
    registerTypes body
    signatureOf name.text {} body).run
      { s with scopes := (s.scopes.newChild (some name.text)).2 }

theorem types_afterSignature (s : Session) (name : Ident) (body : List Decl) :
    Types s (s.afterSignature name body).2 := by
  refine IsTrans.trans (r := Types) _ _ _ (types_newChild s (some name.text)) ?_
  refine types_inScope (Moves.bind (types_registerTypes body) fun _ => types_signatureOf _ _ _) ?_
  simp [Scopes.newChild]

theorem scope_afterSignature (hs : s.Regular) (name : Ident) (body : List Decl) :
    s.scopes.all.length < (s.afterSignature name body).2.scopes.all.length ∧
    ((s.afterSignature name body).2.scopes.scope s.scopes.all.length).name = some name.text ∧
    ((s.afterSignature name body).2.scopes.scope s.scopes.all.length).parent =
      some s.scopes.current := by
  have hlt := s.scopes.length_lt_newChild (some name.text)
  obtain ⟨-, hch⟩ := types_newChild s (some name.text) hs
  obtain ⟨hfr, -⟩ := types_inScope
    (Moves.bind (types_registerTypes body) fun _ => types_signatureOf name.text {} body) hlt hch
  have hper := hfr.scopes.toPersists
  refine ⟨hlt.trans_le hper.length_le, ?_, ?_⟩
  · rw [afterSignature, hper.name _ hlt]
    exact congrArg Scope.name Scopes.scope_newChild
  · rw [afterSignature, hper.parent _ hlt]
    exact congrArg Scope.parent Scopes.scope_newChild

theorem flat_of_afterSignature (hs : s.Regular) {body : List Decl}
    (h : (s.afterSignature name body).2.findings = []) : ∀ d ∈ body, d.isComponent = false := by
  have hlt := s.scopes.length_lt_newChild (some name.text)
  obtain ⟨-, hch⟩ := types_newChild s (some name.text) hs
  obtain ⟨-, htys⟩ := types_registerTypes body _ (hch.within hlt)
  exact signatureOf_flat htys h

/-- A component is registered, and bound at the top level. -/
def IsDefined (s : Session) (name : Ident) : Prop :=
  s.isRegistered name ∧ (find? (s.scopes.bindings ScopeId.global) name.text).isSome

theorem IsDefined.grows (h : s.IsDefined name) (hg : Grows s t) : t.IsDefined name :=
  ⟨isRegistered_mono hg.toStays h.1, hg.scopes.isSome_find? h.2⟩

theorem isDefined_withComponent {type : Ty} {body : List Decl} {scope : ScopeId}
    (hlt : s.scopes.current < s.scopes.all.length) (hcur : s.scopes.current = ScopeId.global) :
    (s.withComponent name type body scope).IsDefined name := by
  refine ⟨contains_iff_mem.mpr mem_cons_self, ?_⟩
  show (find? ((s.scopes.set name.text type).bindings ScopeId.global) name.text).isSome
  rw [Scopes.find?_bindings_set, if_pos ⟨hcur.symm, hcur ▸ hlt, rfl⟩]
  rfl

/-- A component was defined, or there is a finding. -/
structure Defines (p : Program) (s : Session) (name : Ident) (body : List Decl)
    (r : Option Defined × Session) : Prop where
  grows : Grows s r.2
  registering : Registering p r.2
  defined : ∀ c, r.1 = some c → c.name = name ∧ c.body = body ∧ r.2.IsDefined name ∧
    find? r.2.components name.text = some { body, scope := c.scope }
  flat : r.2.findings = [] → (∀ d ∈ body, d.isComponent = false) ∧ r.1.isSome
  known : ∀ {n}, r.2.HasComponent n → s.HasComponent n ∨ name.text = n

/-- The type that the name of a component is bound to first. -/
def definitionOf (s : Session) (name : Ident) (body : List Decl) : Ty :=
  .component name.text none (s.afterSignature name body).1.inputs
    (s.afterSignature name body).1.outputs []

def finishComponent (name : Ident) (body : List Decl) (scope : ScopeId) (type : Ty) :
    Checking (Option Defined) := do
  if ← declare name type then
    markRegistered name
    modify fun s => { s with
      components := s.components.insert name.text { body, scope }
      bodies := s.bodies ++ [(scope, { component := some name.text })] }
    return some ⟨name, body, scope⟩
  else return none

/-- A component is bound if its name is free, once its signature is read. -/
theorem run_defineComponent (s : Session) (name : Ident) (body : List Decl) :
    find? ((s.afterSignature name body).2.scopes.bindings
        (s.afterSignature name body).2.scopes.current) name.text = none ∧
      (defineComponent name body).run s =
        (some ⟨name, body, s.scopes.all.length⟩, (s.afterSignature name body).2.withComponent name
          (s.definitionOf name body) body s.scopes.all.length) ∨
    ∃ f, (defineComponent name body).run s =
      (none, ((report f).run (s.afterSignature name body).2).2) := by
  let r := s.afterSignature name body
  let type : Ty := s.definitionOf name body
  have hrun : (defineComponent name body).run s =
      (if ((declare name type).run r.2).1 then
        (some ⟨name, body, s.scopes.all.length⟩,
          { ((declare name type).run r.2).2 with
            registered := name.span :: ((declare name type).run r.2).2.registered
            components := ((declare name type).run r.2).2.components.insert name.text
              { body, scope := s.scopes.all.length }
            bodies := ((declare name type).run r.2).2.bodies ++
              [(s.scopes.all.length, { component := some name.text })] })
      else (none, ((declare name type).run r.2).2)) := by
    show (finishComponent name body s.scopes.all.length type).run r.2 = _
    rw [finishComponent, run_bind]
    cases ((declare name type).run r.2).1 <;> rfl
  rcases run_declare r.2 name type with ⟨hunb, hdecl⟩ | ⟨f, hdecl⟩
  · rw [hdecl] at hrun
    exact Or.inl ⟨hunb, hrun⟩
  · rw [hdecl] at hrun
    exact Or.inr ⟨f, hrun⟩

/-- One component of the top level is defined. -/
theorem defines_component (hs : AtTop p s) (name : Ident)
    (body : List Decl) : Defines p s name body ((defineComponent name body).run s) := by
  obtain ⟨hgr, hregs⟩ := Adds.of_types (types_afterSignature s name body) hs.toRegistering
  obtain ⟨hsc, hnm, hpar⟩ := scope_afterSignature hs.toRegular name body
  obtain ⟨hfr, -⟩ := types_afterSignature s name body hs.toRegular
  rcases run_defineComponent s name body with ⟨hunb, hrun⟩ | ⟨f, hrun⟩
  · -- bodies have scopes that exist, and this one is the next to come
    have hfresh : (s.afterSignature name body).2.body? s.scopes.all.length = none := by
      rw [hfr.body?]
      by_contra hsome
      obtain ⟨b, hb⟩ := Option.ne_none_iff_exists'.mp hsome
      exact Nat.lt_irrefl _ (hs.lt ⟨b, hb, rfl⟩)
    have htop := hs.grows hgr hregs
    rw [hs.current_eq_global] at hpar
    have hnew := htop.find?_component hunb
    rw [hrun]
    refine ⟨hgr.trans (grows_withComponent hfresh hunb hnew),
      htop.withComponent hsc hfresh hnm hpar hunb rfl fun n hn => ?_,
      ?_, fun hfs => ⟨flat_of_afterSignature hs.toRegular hfs, rfl⟩, ?_⟩
    · exact (Option.some.inj hn).symm
    · rintro c ⟨⟩
      refine ⟨rfl, rfl, isDefined_withComponent htop.current_lt htop.current_eq_global, ?_⟩
      rw [find?_withComponent, if_pos rfl]
    · rintro n ⟨i, hi⟩
      rw [find?_withComponent] at hi
      split at hi
      · next heq => exact Or.inr heq.symm
      · exact Or.inl ⟨i, hfr.components ▸ hi⟩
  · obtain ⟨hgr', hregs'⟩ := Adds.of_types (types_report f _) hregs
    rw [hrun]
    refine ⟨hgr.trans hgr', hregs', nofun, fun hfs => ?_, fun ⟨i, hi⟩ => ?_⟩
    · exact absurd hfs (concat_ne_nil _ _)
    · exact Or.inl ⟨i, hfr.components ▸ hi⟩

def Knows (s : Session) (c : Defined) : Prop :=
  ∃ i, find? s.components c.name.text = some i ∧ i.body = c.body ∧ i.scope = c.scope

theorem Knows.grows {c : Defined} (h : s.Knows c) (hg : Grows s t) : t.Knows c := by
  obtain ⟨i, hi, hbody, hsc⟩ := h
  obtain ⟨j, hj, hbody', hsc'⟩ := hg.component_find? hi
  exact ⟨j, hj, hbody'.trans hbody, hsc'.trans hsc⟩

theorem run_defineComponents_cons (decs : List Decoration) (name : Ident) (body : List Decl)
    (span : Span) (ds : List Decl) (s : Session) :
    (defineComponents (.component decs name body span :: ds)).run s =
      (((defineComponent name body).run s).1.toList ++
        ((defineComponents ds).run ((defineComponent name body).run s).2).1,
        ((defineComponents ds).run ((defineComponent name body).run s).2).2) := rfl

/-- The components among declarations were defined, or there is a finding. -/
structure DefinesAll (p : Program) (s : Session) (ds : List Decl) (r : List Defined × Session) :
    Prop where
  grows : Grows s r.2
  registering : Registering p r.2
  defined : ∀ c ∈ r.1, (∃ decs span, .component decs c.name c.body span ∈ ds) ∧
    r.2.Knows c
  complete : r.2.findings = [] → ∀ {decs name body span},
    .component decs name body span ∈ ds → (∀ d ∈ body, d.isComponent = false) ∧
      r.2.IsDefined name ∧ ∃ c ∈ r.1, c.name = name ∧ c.body = body
  known : ∀ {n}, r.2.HasComponent n → s.HasComponent n ∨
    ∃ decs name body span, .component decs name body span ∈ ds ∧ name.text = n

/-- All components are defined, each with those before it known. -/
theorem defines_components (ds : List Decl) (hs : AtTop p s) :
    DefinesAll p s ds ((defineComponents ds).run s) := by
  induction ds generalizing s with
  | nil => exact ⟨Grows.refl s, hs.toRegistering, nofun, nofun, Or.inl⟩
  | cons d ds ih =>
    -- only components are defined; each is then known all the way to the end
    cases d with
    | component decs name body span =>
      have hone := defines_component hs name body
      have hrest := ih (hs.grows hone.grows hone.registering)
      rw [run_defineComponents_cons]
      refine ⟨hone.grows.trans hrest.grows, hrest.registering, fun c hc => ?_,
        fun hfs decorations' name' body' span' hmem => ?_, fun hn => ?_⟩
      · rcases mem_append.mp hc with hc | hc
        · obtain ⟨hnm, hbody, -, hfind⟩ := hone.defined c (Option.mem_toList.mp hc)
          refine ⟨⟨decs, span, by rw [hnm, hbody]; exact mem_cons_self⟩, ?_⟩
          have hknows : Knows ((defineComponent name body).run s).2 c :=
            ⟨_, by rw [hnm, hfind], hbody.symm, rfl⟩
          exact hknows.grows hrest.grows
        · obtain ⟨⟨decorations', span', hmem⟩, hknows⟩ := hrest.defined c hc
          exact ⟨⟨decorations', span', mem_cons_of_mem _ hmem⟩, hknows⟩
      · rcases mem_cons.mp hmem with heq | hmem
        · cases heq
          obtain ⟨hflat, hsome⟩ := hone.flat (hrest.grows.findings_eq_nil hfs)
          obtain ⟨c, hc⟩ := Option.isSome_iff_exists.mp hsome
          obtain ⟨hnm, hbody, hdefined, -⟩ := hone.defined c hc
          exact ⟨hflat, hdefined.grows hrest.grows, c,
            mem_append_left _ (Option.mem_toList.mpr hc), hnm, hbody⟩
        · obtain ⟨hflat, hdefined, c, hc, hnms⟩ := hrest.complete hfs hmem
          exact ⟨hflat, hdefined, c, mem_append_right _ hc, hnms⟩
      · rcases hrest.known hn with hn | ⟨decorations', name', body', span', hmem, hn⟩
        · exact (hone.known hn).imp_right fun hn =>
            ⟨decs, name, body, span, mem_cons_self, hn⟩
        · exact Or.inr ⟨decorations', name', body', span', mem_cons_of_mem _ hmem, hn⟩
    | _ =>
      have hrest := ih hs
      refine ⟨hrest.grows, hrest.registering, fun c hc => ?_, fun hfs _ _ _ _ hmem => ?_,
        fun hn => ?_⟩
      · obtain ⟨⟨decs, span, hmem⟩, hknows⟩ := hrest.defined c hc
        exact ⟨⟨decs, span, mem_cons_of_mem _ hmem⟩, hknows⟩
      · rcases mem_cons.mp hmem with heq | hmem
        · cases heq
        · exact hrest.complete hfs hmem
      · refine (hrest.known hn).imp_right fun ⟨decs, name, body, span, hmem, hn⟩ => ?_
        exact ⟨decs, name, body, span, mem_cons_of_mem _ hmem, hn⟩

/-! ### The bodies of components -/

/-- The members of the body of a component were registered. -/
structure RegistersBody (p : Program) (s : Session) (c : Defined) (t : Session) : Prop where
  grows : Grows s t
  registering : Registering p t
  ready : t.findings = [] → ∀ d ∈ c.body, t.Ready c.scope d
  nodup : t.findings = [] → (Decl.instanceNames c.body).Nodup

theorem Registering.inside (hs : Registering p s) {c : Defined} (hc : s.Knows c) :
    Registering p (s.inside c.name.text c.scope) := by
  have hb : s.BodyAt c.scope (some c.name.text) := by
    obtain ⟨i, hi, -, hsc⟩ := hc
    exact hsc ▸ (hs.component hi).1
  exact { hs.toIndexed.agrees (agrees_inside s c.name.text c.scope) with
    current_lt := hs.lt hb
    aliases := hs.aliases
    definitions := hs.definitions
    entered := hs.entered.agrees (agrees_inside s c.name.text c.scope)
    current := rfl
    bodyAt := hb }

theorem AtTop.outside (hs : AtTop p s)
    (ht : Registering p t) (hg : Grows s (s.outside t)) : Registering p (s.outside t) := by
  have hb := hs.bodyAt
  rw [hs.component_none] at hb
  exact { ht.toIndexed.agrees (agrees_outside s t) with
    current_lt := hs.current_lt.trans_le hg.scopes.length_le
    aliases := ht.aliases
    definitions := ht.definitions
    entered := ht.entered.agrees (agrees_outside s t)
    current := hs.current
    bodyAt := hg.bodyAt hb }

/-- The type of a component that has the given instances. -/
def withNested (nested : List Ty) : Ty → Ty
  | .component name inst inputs outputs _ => .component name inst inputs outputs nested
  | other => other

theorem alike_withNested (nested : List Ty) (t : Ty) : Ty.Alike t (withNested nested t) := by
  cases t with
  | component name inst _ _ _ => cases inst <;> exact ⟨rfl, rfl, rfl, rfl⟩
  | _ => exact Ty.Alike.refl _

theorem run_registerBody (c : Defined) (s : Session) : ∃ nested,
    ((registerBody c).run s).2 = ((modify fun t => { t with
      scopes := t.scopes.modify c.name.text (withNested nested) } : Checking Unit).run
        (s.outside ((registerMembers c.body).run (s.inside c.name.text c.scope)).2)).2 :=
  ⟨_, rfl⟩

theorem registers_body (hs : AtTop p s) {c : Defined}
    (hc : s.Knows c) (hbody : p.Body (some c.name.text) c.body) :
    RegistersBody p s c ((registerBody c).run s).2 := by
  have hmems := registers_members c.body (hs.inside hc) fun d hd n hn =>
    ⟨c.body, hbody, d, hd, hn⟩
  have hgr := hmems.grows.outside hs.component_none
  have hregs := hs.outside hmems.registering hgr
  obtain ⟨nested, hrun⟩ := run_registerBody c s
  rw [hrun]
  have htys := types_modify c.name.text (alike_withNested nested)
    (s.outside ((registerMembers c.body).run (s.inside c.name.text c.scope)).2)
  obtain ⟨hgr', hregs'⟩ := Adds.of_types htys hregs
  refine ⟨hgr.trans hgr', hregs', fun hfs d hd => ?_, hmems.nodup⟩
  have hready := hmems.ready hfs d hd
  exact Ready.grows hgr' hready

theorem registers_bodies (cs : List Defined) (hs : AtTop p s)
    (hcs : ∀ c ∈ cs, s.Knows c ∧ p.Body (some c.name.text) c.body) :
    Grows s ((registerBodies cs).run s).2 ∧ Registering p ((registerBodies cs).run s).2 ∧
      (((registerBodies cs).run s).2.findings = [] → ∀ c ∈ cs,
        (∀ d ∈ c.body, ((registerBodies cs).run s).2.Ready c.scope d) ∧
          (Decl.instanceNames c.body).Nodup) := by
  induction cs generalizing s with
  | nil => exact ⟨Grows.refl s, hs.toRegistering, nofun⟩
  | cons c cs ih =>
    have hone := registers_body hs (hcs c mem_cons_self).1 (hcs c mem_cons_self).2
    obtain ⟨hgr, hregs, hready⟩ := ih (hs.grows hone.grows hone.registering)
      fun c' hc' =>
        ⟨(hcs c' (mem_cons_of_mem c hc')).1.grows hone.grows,
          (hcs c' (mem_cons_of_mem c hc')).2⟩
    refine ⟨hone.grows.trans hgr, hregs, fun hfs c' hc' => ?_⟩
    rcases mem_cons.mp hc' with rfl | hc'
    · have hnil := hgr.findings_eq_nil hfs
      exact ⟨fun d hd => (hone.ready hnil d hd).grows hgr, hone.nodup hnil⟩
    · exact hready hfs c' hc'

/-- The components of a program were registered. -/
structure RegistersComponents (p : Program) (s t : Session) : Prop where
  grows : Grows s t
  registering : Registering p t
  isDefined : t.findings = [] → ∀ {decs name body span},
    .component decs name body span ∈ p.items → t.IsDefined name
  flat : t.findings = [] → ∀ {decs name body span},
    .component decs name body span ∈ p.items → ∀ d ∈ body, d.isComponent = false
  nodup : t.findings = [] → ∀ {decs name body span},
    .component decs name body span ∈ p.items → (Decl.instanceNames body).Nodup
  ready : t.findings = [] → ∀ {decs name body span},
    .component decs name body span ∈ p.items →
      ∃ scope, t.BodyAt scope (some name.text) ∧ ∀ d ∈ body, t.Ready scope d
  body : t.findings = [] → ∀ {decs name body span},
    .component decs name body span ∈ p.items →
      ∃ i, find? t.components name.text = some i ∧ i.body = body

/-- Components are defined, and then their bodies are registered. -/
theorem registers_components (hs : AtTop p s) :
    RegistersComponents p s ((defineComponents p.items >>= registerBodies).run s).2 := by
  have hdefs := defines_components p.items hs
  have hknown : ∀ c ∈ ((defineComponents p.items).run s).1,
      Knows ((defineComponents p.items).run s).2 c ∧ p.Body (some c.name.text) c.body := by
    intro c hc
    obtain ⟨⟨decs, span, hmem⟩, hknows⟩ := hdefs.defined c hc
    exact ⟨hknows, .component hmem⟩
  obtain ⟨hgr, hregs, hready⟩ := registers_bodies _
    (hs.grows hdefs.grows hdefs.registering) hknown
  refine ⟨hdefs.grows.trans hgr, hregs, fun hfs _ _ _ _ hmem => ?_,
    fun hfs _ _ _ _ hmem => ?_, fun hfs _ _ _ _ hmem => ?_,
    fun hfs _ _ _ _ hmem => ?_, fun hfs _ _ _ _ hmem => ?_⟩
  all_goals
    obtain ⟨hflat, hdefined, c, hc, rfl, rfl⟩ :=
      hdefs.complete (hgr.findings_eq_nil hfs) hmem
  · exact hdefined.grows hgr
  · exact hflat
  · exact (hready hfs c hc).2
  · obtain ⟨i, hi, -, hsc⟩ := (hknown c hc).1.grows hgr
    exact ⟨c.scope, hsc ▸ (hregs.component hi).1, (hready hfs c hc).1⟩
  · obtain ⟨i, hi, hbody, -⟩ := (hknown c hc).1.grows hgr
    exact ⟨i, hi, hbody⟩

/-! ### The whole program -/

section Initial

variable {findings : List Diagnostic} {halted : List Span} {scope : ScopeId}

theorem body?_initial {b : Body}
    (hb : ({ findings, halted } : Session).body? scope = some b) :
    scope = ScopeId.global ∧ b = {} := by
  by_cases hs : scope = ScopeId.global
  · subst hs
    exact ⟨rfl, (Option.some.inj hb).symm⟩
  · have hnone : ({ findings, halted } : Session).body? scope = none := by
      show lookup scope [(ScopeId.global, ({} : Body))] = none
      rw [lookup_cons, beq_eq_false_iff_ne.mpr hs, lookup_nil]
    rw [hnone] at hb
    cases hb

theorem bodyAt_initial (hb : ({ findings, halted } : Session).BodyAt scope c) :
    scope = ScopeId.global ∧ c = none := by
  obtain ⟨b, hb, rfl⟩ := hb
  obtain ⟨rfl, rfl⟩ := body?_initial hb
  exact ⟨rfl, rfl⟩

theorem find?_initial (scope : ScopeId) (n : String) :
    find? (({} : Session).scopes.bindings scope) n = none := by
  cases scope <;> rfl

theorem kindAt_initial (scope : ScopeId) (n : String) :
    ({} : Session).scopes.kindAt scope n = none := by
  rw [Scopes.kindAt, find?_initial]
  rfl

end Initial

theorem atTop_initial (p : Program) (findings : List Diagnostic) (halted : List Span) :
    AtTop p { findings, halted } where
  component_none := rfl
  nodup := nodup_singleton _
  top := ⟨{}, rfl, rfl⟩
  unique hb hb' := (bodyAt_initial hb).1.trans (bodyAt_initial hb').1.symm
  lt hb := by
    rw [(bodyAt_initial hb).1]
    exact Nat.zero_lt_one
  name hb := by
    obtain ⟨rfl, rfl⟩ := bodyAt_initial hb
    rfl
  parent hb := by
    obtain ⟨rfl, rfl⟩ := bodyAt_initial hb
    rfl
  kinds hk := by
    rw [kindAt_initial] at hk
    cases hk
  origin := nofun
  graph hb := (body?_initial hb).2 ▸ ⟨DependencyGraph.wellFormed_empty, rfl⟩
  node hb hx := by
    rw [(body?_initial hb).2] at hx
    exact (not_mem_nil hx).elim
  names := nodup_nil
  component := nofun
  hasInstance := nofun
  hasComponent hb := nomatch (bodyAt_initial hb).2
  current_lt := Nat.zero_lt_one
  aliases ha := (not_mem_nil ha).elim
  definitions ht _ := by
    rw [find?_initial] at ht
    cases ht
  entered _ _ _ _ hk _ := by
    rw [kindAt_initial] at hk
    cases hk
  current := rfl
  bodyAt := ⟨{}, rfl, rfl⟩

/-- All declarations of a program are registered. -/
structure Prepared (p : Program) (s : Session) : Prop extends Registering p s where
  component_none : s.component = none
  nodup_instanceNames : ∀ {c ds}, p.Body c ds → (Decl.instanceNames ds).Nodup
  ready : ∀ {c ds}, p.Body c ds → ∃ scope, s.BodyAt scope c ∧ ∀ d ∈ ds, s.Ready scope d
  isDefined : ∀ {decs name body span}, .component decs name body span ∈ p.items →
    s.IsDefined name
  flat : ∀ {decs name body span}, .component decs name body span ∈ p.items →
    ∀ d ∈ body, d.isComponent = false
  body : ∀ {decs name body span}, .component decs name body span ∈ p.items →
    ∃ i, find? s.components name.text = some i ∧ i.body = body

theorem Prepared.body_unique (hs : Prepared p s) {ds ds' : List Decl} (h : p.Body c ds)
    (h' : p.Body c ds') : ds = ds' := by
  cases h with
  | top => cases h' with | top => rfl
  | @component decs name body span hmem =>
    generalize hnm : some name.text = c at h'
    cases h' with
    | top => cases hnm
    | @component decorations' name' body' span' hmem' =>
      obtain ⟨i, hi, rfl⟩ := hs.body hmem
      obtain ⟨j, hj, rfl⟩ := hs.body hmem'
      rw [Option.some.inj hnm, hj] at hi
      rw [Option.some.inj hi]

theorem AtTop.registerTypes (hs : AtTop p s) (ds : List Decl) :
    Grows s ((registerTypes ds).run s).2 ∧ AtTop p ((registerTypes ds).run s).2 := by
  obtain ⟨hgr, hregs⟩ := Adds.of_types (types_registerTypes ds s) hs.toRegistering
  exact ⟨hgr, hs.grows hgr hregs⟩

theorem AtTop.registerMembers (hs : AtTop p s) {ds : List Decl} (hds : ds ⊆ p.items) :
    RegistersAll p s ds ((registerMembers ds).run s).2 :=
  registers_members ds hs.toRegistering fun d hd _ hn =>
    ⟨p.items, hs.component_none ▸ .top, d, hds hd, hn⟩

/-- After registration every declaration is registered, or there is a finding. -/
theorem registers_program (hs : AtTop p s) :
    Grows s ((registerProgram p.items).run s).2 ∧ AtTop p ((registerProgram p.items).run s).2 ∧
      (((registerProgram p.items).run s).2.findings = [] →
        Prepared p ((registerProgram p.items).run s).2) := by
  obtain ⟨hgr₁, hs₁⟩ := hs.registerTypes p.items
  have hcomps := registers_components hs₁
  have hs₂ := hs₁.grows hcomps.grows hcomps.registering
  have hmems := hs₂.registerMembers (Subset.refl p.items)
  have hgr := (hgr₁.trans hcomps.grows).trans hmems.grows
  refine ⟨hgr, hs.grows hgr hmems.registering, fun hfs => ?_⟩
  -- a finding of an earlier part would still be there
  have hnil := hmems.grows.findings_eq_nil hfs
  refine { hmems.registering with
    component_none := hgr.component.trans hs.component_none
    nodup_instanceNames := fun {c ds} hbody => ?_
    ready := fun {c ds} hbody => ?_
    isDefined := fun hmem => (hcomps.isDefined hnil hmem).grows hmems.grows
    flat := hcomps.flat hnil
    body := fun hmem => by
      obtain ⟨i, hi, rfl⟩ := hcomps.body hnil hmem
      obtain ⟨j, hj, hbody, -⟩ := hmems.grows.component_find? hi
      exact ⟨j, hj, hbody⟩ }
  · cases hbody with
    | top => exact hmems.nodup hfs
    | component hmem => exact hcomps.nodup hnil hmem
  · cases hbody with
    | top =>
      refine ⟨ScopeId.global, hmems.registering.top, fun d hd => ?_⟩
      have hready := hmems.ready hfs d hd
      rwa [← hs₂.current, hs₂.current_eq_global] at hready
    | component hmem =>
      obtain ⟨scope, hsc, hready⟩ := hcomps.ready hnil hmem
      exact ⟨scope, hmems.grows.bodyAt hsc, fun d hd => (hready d hd).grows hmems.grows⟩

end Provision.Session
