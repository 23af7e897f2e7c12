import Provision.Proofs.Session.Abreast.Checking

/-!
# Two runs of registration

Registration does not look at decorations. If a relation of sessions allows what it writes
(`Session.Enrols`), the registrations of programs that differ in decorations keep it
(`Session.Enrols.registerProgram`). Here the two runs agree in all types and findings.
-/

namespace Provision.Session

open List Abreast Decl

variable {f : List Decoration → List Decoration} {R : Session → Session → Prop} {s t : Session}

/-- In related sessions registration reads the same, and what it writes keeps them related. -/
structure Enrols (f : List Decoration → List Decoration) (R : Session → Session → Prop) : Prop
    extends Tracks Eq Eq R where
  mark : ∀ name, Abreast R Eq (markRegistered name) (markRegistered name)
  noteAlias : ∀ {s t}, R s t → ∀ x,
    R { s with aliases := x :: s.aliases } { t with aliases := x :: t.aliases }
  noteSchema : ∀ {s t}, R s t → ∀ x d, R { s with schemas := (x, d) :: s.schemas }
    { t with schemas := (x, d.redecorate f) :: t.schemas }
  modify : ∀ {s t}, R s t → ∀ n {g : Ty → Ty}, (∀ a, (g a).instanceName? = a.instanceName?) →
    R { s with scopes := s.scopes.modify n g } { t with scopes := t.scopes.modify n g }
  nested : ∀ {s t}, R s t → ∀ scope,
    (s.scopes.bindings scope).filterMap (fun b =>
      if b.2.instanceName?.isSome then some b.2 else none) =
    (t.scopes.bindings scope).filterMap fun b =>
      if b.2.instanceName?.isSome then some b.2 else none
  node : ∀ x scope, Abreast R Eq (modifyGraph (fun g => (g.addNode x).2) scope)
    (modifyGraph (fun g => (g.addNode x).2) scope)
  entry : ∀ {s t}, R s t → ∀ x info, R { s with instances := s.instances.insert x info }
    { t with instances := t.instances.insert x info }
  use : ∀ c x, Abreast R Eq (modifyComponent c fun i => { i with uses := addOnce i.uses x })
    (modifyComponent c fun i => { i with uses := addOnce i.uses x })
  count : ∀ c x, Abreast R Eq
    (modifyComponent c fun i => { i with instances := i.instances ++ [x] })
    (modifyComponent c fun i => { i with instances := i.instances ++ [x] })
  addComponent : ∀ {s t}, R s t → ∀ (name : String) (body : List Decl) (scope : ScopeId),
    R { s with
        components := s.components.insert name { body, scope }
        bodies := s.bodies ++ [(scope, { component := some name })] }
      { t with
        components := t.components.insert name { body := redecorateAll f body, scope }
        bodies := t.bodies ++ [(scope, { component := some name })] }

namespace Tracks

variable (h : Tracks Eq Eq R)
include h

theorem resolve_eq (hst : R s t) (n : String) : s.scopes.resolve n = t.scopes.resolve n :=
  Scopes.locates_eq.mp (h.resolve hst n)

theorem resolveType (hst : R s t) (e : TypeExpr) : s.resolveType e = t.resolveType e :=
  resolveType_congr (h.resolve_eq hst) (h.aliases hst) e

theorem functionType (hst : R s t) (d : FunDecl) : s.functionType d = t.functionType d := by
  have hps := resolveTypes_congr (h.resolve_eq hst) (h.aliases hst)
  unfold Session.functionType
  rw [hps]
  simp only [h.resolveType hst]

theorem lookup (hst : R s t) (n : String) : s.scopes.lookup n = t.scopes.lookup n := by
  rw [Scopes.lookup, Scopes.lookup, h.resolve_eq hst]

end Tracks

namespace Enrols

variable (h : Enrols f R)
include h

/-! ### Types -/

theorem declareSchemas (ds : List Decl) :
    Abreast R Eq (declareSchemas ds) (declareSchemas (redecorateAll f ds)) := by
  induction ds with
  | nil =>
    rw [redecorateAll]
    exact Abreast.pure rfl
  | cons d ds ih =>
    rw [redecorateAll]
    cases d with
    | schema d =>
      rw [redecorate, Session.declareSchemas, Session.declareSchemas]
      refine (h.declare _ rfl).bind_eq fun declared => ?_
      refine ite ((h.mark _).bind_eq fun _ => ?_) ih
      refine Abreast.bind_eq (Abreast.modify fun s t hst => ?_) fun _ => ih
      rw [h.current hst]
      exact h.noteSchema hst _ d
    | _ =>
      rw [redecorate]
      exact ih

omit h in
theorem aliasesOf_redecorateAll (ds : List Decl) :
    aliasesOf (redecorateAll f ds) = (aliasesOf ds).map (AliasDecl.redecorate f) := by
  induction ds with
  | nil =>
    rw [redecorateAll]
    rfl
  | cons d ds ih =>
    rw [redecorateAll]
    cases d with
    | «alias» d =>
      rw [redecorate]
      exact congrArg (d.redecorate f :: ·) ih
    | _ =>
      rw [redecorate]
      exact ih

theorem bindAliases (as : List AliasDecl) :
    Abreast R (fun stuck stuck' => stuck' = stuck.map (AliasDecl.redecorate f)) (bindAliases as)
      (bindAliases (as.map (AliasDecl.redecorate f))) := by
  induction as with
  | nil => exact Abreast.pure rfl
  | cons a as ih =>
    rw [map_cons, Session.bindAliases, Session.bindAliases]
    refine get_bind fun s t hst => ?_
    have hread : s.resolveType a.type = t.resolveType (a.redecorate f).type :=
      h.resolveType hst a.type
    rw [hread]
    cases t.resolveType (a.redecorate f).type with
    | error finding =>
      refine ih.bind fun stuck _ hstuck => ?_
      rw [hstuck]
      exact Abreast.pure rfl
    | ok type =>
      refine (h.declare _ rfl).bind_eq fun declared => ite ?_ ih
      refine Abreast.bind_eq (Abreast.modify fun s t hst => ?_) fun _ => ih
      rw [h.current hst]
      exact h.noteAlias hst _

theorem reportAliases (as : List AliasDecl) :
    Abreast R Eq (reportAliases as) (reportAliases (as.map (AliasDecl.redecorate f))) := by
  induction as with
  | nil => exact Abreast.pure rfl
  | cons a as ih =>
    rw [map_cons, Session.reportAliases, Session.reportAliases]
    refine get_bind fun s t hst => ?_
    have hread : s.resolveType a.type = t.resolveType (a.redecorate f).type :=
      h.resolveType hst a.type
    rw [hread]
    cases t.resolveType (a.redecorate f).type with
    | error finding => exact (h.report rfl).bind_eq fun _ => ih
    | ok type => exact ih

theorem registerAliases (rounds : Nat) (as : List AliasDecl) :
    Abreast R Eq (registerAliases rounds as)
      (registerAliases rounds (as.map (AliasDecl.redecorate f))) := by
  induction rounds generalizing as with
  | zero => exact Abreast.pure rfl
  | succ rounds ih =>
    cases as with
    | nil => exact Abreast.pure rfl
    | cons a as =>
      rw [Session.registerAliases, map_cons, Session.registerAliases, ← map_cons]
      · refine (h.bindAliases (a :: as)).bind fun stuck _ hstuck => ?_
        rw [hstuck, length_map, length_map]
        exact ite (h.reportAliases stuck) (ih stuck)
      · exact cons_ne_nil _ _
      · exact cons_ne_nil _ _

theorem propertyTypes (types : Table Ty) (qs : List SchemaProperty) :
    Abreast R Eq (propertyTypes types qs)
      (propertyTypes types (qs.map (SchemaProperty.redecorate f))) := by
  induction qs generalizing types with
  | nil => exact Abreast.pure rfl
  | cons q qs ih =>
    rw [map_cons, Session.propertyTypes, Session.propertyTypes]
    refine ite ((h.report rfl).bind_eq fun _ => ih types) ?_
    refine get_bind fun s t hst => ?_
    have hread : s.resolveType q.type = t.resolveType (q.redecorate f).type :=
      h.resolveType hst q.type
    rw [hread]
    cases t.resolveType (q.redecorate f).type with
    | ok type => exact ih _
    | error finding => exact (h.report rfl).bind_eq fun _ => ih _

theorem fillSchemas (ds : List Decl) :
    Abreast R Eq (fillSchemas ds) (fillSchemas (redecorateAll f ds)) := by
  induction ds with
  | nil =>
    rw [redecorateAll]
    exact Abreast.pure rfl
  | cons d ds ih =>
    rw [redecorateAll]
    cases d with
    | schema d =>
      rw [redecorate, Session.fillSchemas, Session.fillSchemas]
      refine get_bind fun s t hst => ?_
      rw [h.isRegistered hst]
      refine ite ((h.propertyTypes [] d.properties).bind_eq fun types => ?_) ih
      refine Abreast.bind_eq (Abreast.modify fun s t hst => h.modify hst d.name.text fun a => ?_)
        fun _ => ih
      cases a <;> rfl
    | _ =>
      rw [redecorate]
      exact ih

/-- Types are registered alike whatever the decorations. -/
theorem registerTypes (ds : List Decl) :
    Abreast R Eq (registerTypes ds) (registerTypes (redecorateAll f ds)) := by
  refine (h.declareSchemas ds).bind_eq fun _ => ?_
  rw [aliasesOf_redecorateAll]
  dsimp only
  rw [length_map]
  exact (h.registerAliases _ _).bind_eq fun _ => h.fillSchemas ds

/-! ### Members -/

theorem addInstance (name : Ident) (kind : InstanceKind) (span : Span) :
    Abreast R Eq (addInstance name kind span) (addInstance name kind span) := by
  refine get_bind fun s t hst => ?_
  rw [h.qualified hst, h.component hst, h.body hst]
  exact (h.node _ _).bind_eq fun _ => Abreast.bind_eq
    (Abreast.modify fun s t hst => h.entry hst _ _) fun _ => Abreast.pure rfl

theorem registerTyped (name : Ident) (e : TypeExpr) :
    Abreast R Eq (registerTyped name e) (registerTyped name e) := by
  refine get_bind fun s t hst => ?_
  rw [h.resolveType hst]
  cases t.resolveType e with
  | ok type => exact h.declare name rfl
  | error finding => exact (h.report rfl).bind_eq fun _ => Abreast.pure rfl

theorem registerFunction (d : FunDecl) :
    Abreast R Eq (registerFunction d) (registerFunction d) := by
  refine get_bind fun s t hst => ?_
  rw [h.functionType hst]
  cases t.functionType d with
  | ok type => exact h.declare d.name rfl
  | error finding => exact (h.report rfl).bind_eq fun _ => Abreast.pure rfl

theorem registerResource (d : ResourceDecl) :
    Abreast R Eq (registerResource d) (registerResource d) := by
  refine get_bind fun s t hst => ?_
  rw [h.lookup hst]
  split
  · refine (h.declare _ rfl).bind_eq fun declared => ite ?_ (Abreast.pure rfl)
    refine Abreast.bind_eq (Abreast.modify fun s t hst => h.modify hst d.schema.text fun a => ?_)
      fun _ => (h.addInstance _ _ _).bind_eq fun _ => Abreast.pure rfl
    cases a <;> rfl
  · exact (h.reportProblem _ _).bind_eq fun _ => Abreast.pure rfl
  · exact (h.report rfl).bind_eq fun _ => Abreast.pure rfl

theorem registerInstance (d : InstanceDecl) :
    Abreast R Eq (registerInstance d) (registerInstance d) := by
  refine get_bind fun s t hst => ?_
  rw [h.lookup hst]
  split
  · refine (h.declare _ rfl).bind_eq fun declared => ite ?_ (Abreast.pure rfl)
    refine (h.addInstance _ _ _).bind_eq fun qualified => get_bind fun s t hst => ?_
    rw [h.component hst]
    split
    · exact (h.use _ _).bind_eq fun _ => Abreast.pure rfl
    · exact (h.count _ _).bind_eq fun _ => Abreast.pure rfl
  · exact (h.reportProblem _ _).bind_eq fun _ => Abreast.pure rfl
  · exact (h.report rfl).bind_eq fun _ => Abreast.pure rfl

theorem registerMember (d : Decl) : Abreast R Eq (registerMember d) (registerMember d) := by
  cases d with
  | function d => exact h.registerFunction d
  | input d => exact h.registerTyped d.name d.type
  | output d => exact h.registerTyped d.name d.type
  | var d =>
    rw [Session.registerMember]
    split
    · exact h.registerTyped d.name _
    · exact Abreast.pure rfl
  | resource d => exact h.registerResource d
  | inst d => exact h.registerInstance d
  | _ => exact Abreast.pure rfl

/-- Members are registered alike in two related sessions. -/
theorem registerMembers (ds : List Decl) :
    Abreast R Eq (registerMembers ds) (registerMembers ds) := by
  induction ds with
  | nil => exact Abreast.pure rfl
  | cons d ds ih =>
    rw [Session.registerMembers]
    exact (h.registerMember d).bind_eq fun _ =>
      ite ((h.mark _).bind_eq fun _ => ih) ih

omit h in
theorem registerMembers_redecorateAll (ds : List Decl) :
    Session.registerMembers (redecorateAll f ds) = Session.registerMembers ds := by
  induction ds with
  | nil => rw [redecorateAll]
  | cons d ds ih =>
    rw [redecorateAll, Session.registerMembers, Session.registerMembers, ih]
    cases d <;> (rw [redecorate]; rfl)

/-! ### Components -/

theorem signatureOf (comp : String) (sig : Signature) (ds : List Decl) :
    Abreast R Eq (signatureOf comp sig ds)
      (signatureOf comp sig (redecorateAll f ds)) := by
  induction ds generalizing sig with
  | nil =>
    rw [redecorateAll]
    exact Abreast.pure rfl
  | cons d ds ih =>
    rw [redecorateAll]
    cases d with
    | input d =>
      rw [redecorate, Session.signatureOf, Session.signatureOf]
      refine get_bind fun s t hst => ?_
      rw [h.resolveType hst]
      exact ih _
    | output d =>
      rw [redecorate, Session.signatureOf, Session.signatureOf]
      refine get_bind fun s t hst => ?_
      rw [h.resolveType hst]
      exact ih _
    | component _ name _ _ =>
      rw [redecorate]
      exact (h.reportProblem _ _).bind_eq fun _ => ih _
    | _ =>
      rw [redecorate]
      exact ih _

end Enrols

def Defined.redecorate (f : List Decoration → List Decoration) (c : Defined) : Defined :=
  { c with body := redecorateAll f c.body }

namespace Enrols

variable (h : Enrols f R)
include h

theorem defineComponent (name : Ident) (body : List Decl) :
    Abreast R (fun c c' => c' = c.map (Defined.redecorate f)) (defineComponent name body)
      (defineComponent name (redecorateAll f body)) := by
  refine get_bind fun s t hst => ?_
  have hsc : (s.scopes.newChild (some name.text)).1 = (t.scopes.newChild (some name.text)).1 :=
    h.length hst
  dsimp only
  rw [hsc]
  refine Abreast.bind_eq (Abreast.modify fun _ _ huv => h.newChild hst huv _) fun _ =>
    (h.inScope _ ((h.registerTypes body).bind_eq fun _ =>
      h.signatureOf name.text {} body)).bind_eq fun sig => ?_
  refine (h.declare _ rfl).bind_eq fun declared => ite ?_ (Abreast.pure rfl)
  exact (h.mark _).bind_eq fun _ => Abreast.bind_eq
    (Abreast.modify fun s t hst => h.addComponent hst _ _ _) fun _ => Abreast.pure rfl

/-- Components are defined alike, each with its decorations changed. -/
theorem defineComponents (ds : List Decl) :
    Abreast R (fun cs cs' => cs' = cs.map (Defined.redecorate f)) (defineComponents ds)
      (defineComponents (redecorateAll f ds)) := by
  induction ds with
  | nil =>
    rw [redecorateAll]
    exact Abreast.pure rfl
  | cons d ds ih =>
    rw [redecorateAll]
    cases d with
    | component _ name body _ =>
      rw [redecorate]
      refine (h.defineComponent name body).bind fun c _ hc => ih.bind fun cs _ hcs => ?_
      refine Abreast.pure ?_
      rw [hc, hcs, map_append]
      cases c <;> rfl
    | _ =>
      rw [redecorate]
      exact ih

theorem registerBodies (cs : List Defined) :
    Abreast R Eq (registerBodies cs) (registerBodies (cs.map (Defined.redecorate f))) := by
  induction cs with
  | nil => exact Abreast.pure rfl
  | cons c cs ih =>
    rw [map_cons, Session.registerBodies, Session.registerBodies]
    refine Abreast.bind_eq ?_ fun _ => ih
    have hmems : Session.registerMembers (c.redecorate f).body =
        Session.registerMembers c.body := registerMembers_redecorateAll c.body
    unfold registerBody
    rw [hmems]
    refine (h.inBody _ _ (h.registerMembers c.body)).bind_eq fun _ =>
      get_bind fun s t hst => ?_
    have hnst := h.nested hst c.scope
    refine Abreast.modify fun u v huv => ?_
    dsimp only [Defined.redecorate]
    rw [hnst]
    refine h.modify huv c.name.text fun a => ?_
    cases a <;> rfl

/-- The registrations of programs that differ in decorations keep sessions related. -/
theorem registerProgram (ds : List Decl) :
    Abreast R Eq (registerProgram ds) (registerProgram (redecorateAll f ds)) := by
  refine (h.registerTypes ds).bind_eq fun _ => (h.defineComponents ds).bind fun cs _ hcs => ?_
  rw [hcs, registerMembers_redecorateAll]
  exact (h.registerBodies cs).bind_eq fun _ => h.registerMembers ds

end Enrols

end Provision.Session
