import Provision.Proofs.Session.Places
import Provision.Proofs.Session.Traversal
import Provision.Proofs.Ty.Outline

/-!
# Schemas and their properties

Without findings every schema of a program is registered, and it is bound with a type for each of
its properties (`Session.filled_registerProgram`). Once its types are filled in, nothing takes them
away: neither the rest of registration nor the check of declarations (`Session.Retains`,
`Session.traversed_retains`). Only the schemas of the current scope are filled in
(`Session.Elsewhere`), so the types in the body of one component have nothing to do with those of
another.
-/

namespace Provision

open List Table Scopes

variable {m : Checking α} {d : SchemaDecl} {ds : List Decl}

theorem Ty.eq_schema_of_core {t : Ty} {name : String} {props resources types : Table Ty}
    (h : t.core = (Ty.schema name props resources).core) (ht : t.properties? = some types) :
    ∃ resources', t = .schema name types resources' := by
  cases t with
  | schema name' types' resources' =>
    obtain ⟨rfl, -, -⟩ := Ty.schema.inj h
    cases ht
    exact ⟨resources', rfl⟩
  | _ => cases ht

theorem Ty.eq_resource_of_core {t : Ty} {name schema : String} {properties : Table Ty}
    (h : t.core = (Ty.resource name schema properties).core) :
    t = .resource name schema properties := by
  cases t with
  | resource _ _ _ => exact h
  | _ => cases h

namespace Session

variable {k : Checker} {p : Program} {s t : Session}

/-! ### What stays of a binding -/

/-- Names stay bound to types of one core, a schema with its properties. -/
structure Retains (s t : Session) : Prop where
  current : t.scopes.current = s.scopes.current
  bound : ∀ {scope n type}, find? (s.scopes.bindings scope) n = some type →
    ∃ type', find? (t.scopes.bindings scope) n = some type' ∧
      type'.properties? = type.properties? ∧ type'.core = type.core

instance : IsPreorder Session Retains where
  refl _ := ⟨rfl, fun h => ⟨_, h, rfl, rfl⟩⟩
  trans _ _ _ h h' := by
    refine ⟨h'.current.trans h.current, fun hbd => ?_⟩
    obtain ⟨type', hty', hprops, hcore⟩ := h.bound hbd
    obtain ⟨type'', hty'', hprops', hcore'⟩ := h'.bound hty'
    exact ⟨type'', hty'', hprops'.trans hprops, hcore'.trans hcore⟩

theorem retains_of_scopes (h : t.scopes = s.scopes) : Retains s t :=
  ⟨by rw [h], fun hbd => ⟨_, by rw [h]; exact hbd, rfl, rfl⟩⟩

theorem retains_of_steady (h : Moves Steady m) : Moves Retains m :=
  fun s => retains_of_scopes (h s).scopes

theorem retains_report (d : Diagnostic) : Moves Retains (report d) :=
  fun _ => retains_of_scopes rfl

theorem retains_set {n : String} {type : Ty}
    (hunb : find? (s.scopes.bindings s.scopes.current) n = none) :
    Retains s { s with scopes := s.scopes.set n type } := by
  refine ⟨rfl, fun {scope m type'} hbd => ⟨type', ?_, rfl, rfl⟩⟩
  rw [find?_bindings_set, if_neg, hbd]
  rintro ⟨rfl, -, rfl⟩
  rw [hunb] at hbd
  cases hbd

theorem retains_declare (name : Ident) (type : Ty) : Moves Retains (declare name type) := fun s =>
  of_declare (P := Retains s) name retains_set fun d => retains_report d s

theorem retains_modify (n : String) {f : Ty → Ty}
    (hf : ∀ type, (f type).properties? = type.properties? ∧ (f type).core = type.core) :
    Moves Retains (modify fun s => { s with scopes := s.scopes.modify n f } : Checking Unit) := by
  intro s
  refine ⟨rfl, fun {scope m type} hbd => ?_⟩
  have hfind : find? ((s.scopes.modify n f).bindings scope) m =
      if scope = s.scopes.current ∧ scope < s.scopes.all.length ∧ m = n then
        (find? (s.scopes.bindings scope) m).map f
      else find? (s.scopes.bindings scope) m := find?_bindings_modify
  rw [hbd] at hfind
  split at hfind
  · exact ⟨f type, hfind, hf type⟩
  · exact ⟨type, hfind, rfl, rfl⟩

theorem retains_inBody (comp : String) (scope : ScopeId)
    (hm : Moves Retains m) : Moves Retains (inBody comp scope m) := fun s =>
  ⟨rfl, (hm (s.inside comp scope)).bound⟩

theorem retains_inChild (hm : Moves Retains m) (s : Session) :
    Retains s ((m.run s.inChild).2.within s.scopes.current) := by
  refine ⟨rfl, fun {scope n type} hbd => ?_⟩
  have hch : find? (s.inChild.scopes.bindings scope) n = some type := by
    show find? ((s.scopes.newChild none).2.bindings scope) n = some type
    rw [bindings_newChild, hbd]
  exact (hm s.inChild).bound hch

theorem Retains.refine {name : String} {params : List Ty} {result body : Ty}
    (hs : s.scopes.get? name = some (.function params result)) (h : Retains s t) :
    Retains t { t with scopes := t.scopes.set name (.function params body) } := by
  obtain ⟨type, hty, -, hcore⟩ := h.bound hs
  rw [← h.current] at hty
  obtain ⟨result', rfl⟩ := exists_function (Ty.Alike.of_core hcore).params?
  refine ⟨rfl, fun {scope n type} hbd => ?_⟩
  have hfind : find? ((t.scopes.set name (.function params body)).bindings scope) n =
      if scope = t.scopes.current ∧ scope < t.scopes.all.length ∧ n = name then
        some (.function params body)
      else find? (t.scopes.bindings scope) n := find?_bindings_set
  split at hfind
  · next hnew =>
    obtain ⟨rfl, -, rfl⟩ := hnew
    obtain rfl := Option.some.inj (hty.symm.trans hbd)
    exact ⟨_, hfind, rfl, rfl⟩
  · exact ⟨type, hfind.trans hbd, rfl, rfl⟩

theorem traversed_retains : Traversed k Retains where
  report := retains_report
  infer e expected := retains_of_steady (steady_infer e expected)
  runDecorators ds site type value := retains_of_steady (steady_runDecorators ds site type value)
  depend x scope y kind := retains_of_steady (steady_depend x scope y kind)
  record _ _ := fun _ => retains_of_scopes rfl
  declare := retains_declare
  readingFor x _ hm s := ⟨(hm (s.readingFor x)).current, (hm (s.readingFor x)).bound⟩
  inChild := retains_inChild
  refine := Retains.refine
  inBody comp scope _ := retains_inBody comp scope

/-! ### Members -/

theorem retains_registerMembers (ds : List Decl) : Moves Retains (registerMembers ds) := by
  have hmb : Enlists (fun _ => True) Retains := {
    report := retains_report
    declare := fun name _ _ => retains_declare name _ _
    mark := fun _ _ => retains_of_scopes rfl
    -- a schema gets a resource, its properties stay
    addResource := fun _ _ _ => retains_modify _ fun type => by cases type <;> exact ⟨rfl, rfl⟩
    addInstance := fun _ _ _ _ => retains_of_scopes rfl
    tell := fun _ _ _ => retains_of_scopes rfl }
  exact hmb.registerMembers ds fun _ _ => trivial

theorem retains_registerBody (c : Defined) : Moves Retains (registerBody c) := by
  unfold registerBody
  refine Moves.bind (retains_inBody _ _ (retains_registerMembers c.body)) fun _ =>
    Moves.get_bind fun s => retains_modify _ (fun type => ?_) s
  cases type <;> exact ⟨rfl, rfl⟩

theorem retains_registerBodies (cs : List Defined) : Moves Retains (registerBodies cs) := by
  induction cs with
  | nil => exact Moves.pure _
  | cons c cs ih => exact Moves.bind (retains_registerBody c) fun _ => ih

/-! ### Types -/

theorem binds_retains : BindsTypes (fun _ => True) Retains where
  report := retains_report
  bindAlias _ _ hfree := ⟨rfl, (retains_set hfree).bound⟩
  withSchema _ hfree := ⟨rfl, (retains_set hfree).bound⟩

/-- Only the current scope has changed. -/
structure Elsewhere (s t : Session) : Prop where
  current : t.scopes.current = s.scopes.current
  bindings : ∀ scope, scope ≠ s.scopes.current → t.scopes.bindings scope = s.scopes.bindings scope

instance : IsPreorder Session Elsewhere where
  refl _ := ⟨rfl, fun _ _ => rfl⟩
  trans _ _ _ h h' := ⟨h'.current.trans h.current, fun scope hsc =>
    (h'.bindings scope (h.current ▸ hsc)).trans (h.bindings scope hsc)⟩

theorem elsewhere_modifyBindings (f : Table Ty → Table Ty) (s : Session) :
    Elsewhere s { s with scopes := s.scopes.modifyBindings f } := by
  refine ⟨rfl, fun scope hsc => ?_⟩
  show (s.scopes.modifyBindings f).bindings scope = _
  rw [bindings_modifyBindings, if_neg fun hc => hsc hc.1]

theorem binds_elsewhere : BindsTypes (fun _ => True) Elsewhere where
  report _ _ := ⟨rfl, fun _ _ => rfl⟩
  bindAlias {s _ _ _} _ _ _ := ⟨rfl, (elsewhere_modifyBindings _ s).bindings⟩
  withSchema {s _} _ _ := ⟨rfl, (elsewhere_modifyBindings _ s).bindings⟩

theorem elsewhere_registerTypes (ds : List Decl) : Moves Elsewhere (registerTypes ds) :=
  binds_elsewhere.registerTypes (fun _ _ s => elsewhere_modifyBindings _ s) fun _ _ => trivial

/-! ### Schemas -/

/-- A schema is registered, and bound with a type for each of its properties. -/
structure Filled (s : Session) (scope : ScopeId) (d : SchemaDecl) : Prop where
  isRegistered : s.isRegistered d.name
  bound : ∃ type types, find? (s.scopes.bindings scope) d.name.text = some type ∧
    type.properties? = some types ∧ ∀ q ∈ d.properties, (find? types q.name.text).isSome

theorem Filled.mono {scope : ScopeId} (h : s.Filled scope d)
    (hreg : s.registered ⊆ t.registered) (hrtn : Retains s t) : t.Filled scope d := by
  obtain ⟨type, types, hty, htys, hall⟩ := h.bound
  obtain ⟨type', hty', hprops, -⟩ := hrtn.bound hty
  refine ⟨?_, type', types, hty', hprops.trans htys, hall⟩
  exact contains_iff_mem.mpr (hreg (contains_iff_mem.mp h.isRegistered))

def schema? : Decl → Option SchemaDecl
  | .schema d => some d
  | _ => none

/-- A schema is registered, and bound without properties. -/
def Declared (s : Session) (d : SchemaDecl) : Prop :=
  s.isRegistered d.name ∧ ∃ resources,
    find? (s.scopes.bindings s.scopes.current) d.name.text =
      some (.schema d.name.text [] resources)

theorem Declared.mono (h : s.Declared d) (hreg : s.registered ⊆ t.registered)
    (hrtn : Retains s t) : t.Declared d := by
  obtain ⟨hd, resources, hty⟩ := h
  obtain ⟨type', hty', hprops, hcore⟩ := hrtn.bound hty
  obtain ⟨resources', rfl⟩ := Ty.eq_schema_of_core hcore hprops
  rw [← hrtn.current] at hty'
  exact ⟨contains_iff_mem.mpr (hreg (contains_iff_mem.mp hd)), resources', hty'⟩

def schemasOf (ds : List Decl) : List SchemaDecl := ds.filterMap schema?

theorem schemasOf_append (ds es : List Decl) :
    schemasOf (ds ++ es) = schemasOf ds ++ schemasOf es := filterMap_append

theorem mem_schemasOf : d ∈ schemasOf ds ↔ .schema d ∈ ds := by
  refine mem_filterMap.trans ⟨?_, fun h => ⟨_, h, rfl⟩⟩
  rintro ⟨e, he, hd⟩
  cases e with
  | schema e => exact Option.some.inj hd ▸ he
  | _ => cases hd

theorem not_mem_of_nodup_schemasOf {before after : List Decl}
    (h : ((schemasOf (before ++ .schema d :: after)).map (·.name.text)).Nodup) :
    d.name.text ∉ (schemasOf before).map (·.name.text) ∧
      d.name.text ∉ (schemasOf after).map (·.name.text) := by
  rw [schemasOf_append, map_append] at h
  obtain ⟨-, haft, hdisj⟩ := nodup_append'.mp h
  exact ⟨fun hmem => hdisj hmem mem_cons_self, (nodup_cons.mp haft).1⟩

theorem find?_withSchema (hs : s.Regular) (d : SchemaDecl) (n : String) :
    find? ((s.withSchema d).scopes.bindings s.scopes.current) n =
      if n = d.name.text then some (.schema d.name.text [] [])
      else find? (s.scopes.bindings s.scopes.current) n := by
  show find? ((s.scopes.set _ _).bindings s.scopes.current) n = _
  rw [find?_bindings_set]
  simp [hs.current_lt]

theorem run_declareSchemas_cons (hs : s.Regular)
    (hfs : ((declareSchemas (.schema d :: ds)).run s).2.findings = []) :
    find? (s.scopes.bindings s.scopes.current) d.name.text = none ∧
      (declareSchemas (.schema d :: ds)).run s = (declareSchemas ds).run (s.withSchema d) ∧
      (s.withSchema d).Regular := by
  rcases run_declareSchemas_step d ds s with ⟨hfree, hrun⟩ | ⟨f, hrun⟩
  · exact ⟨hfree, hrun, (binds_types.withSchema trivial hfree hs).2⟩
  · -- a name that is taken is a finding
    rw [hrun] at hfs
    have hnil := (types_declareSchemas ds _ (types_report f s hs).2).1.findings_eq_nil hfs
    exact absurd hnil (concat_ne_nil _ _)

/-- Schemas that are declared without findings have names of their own. -/
theorem declared_declareSchemas (hs : s.Regular)
    (hfs : ((declareSchemas ds).run s).2.findings = []) :
    (∀ d ∈ schemasOf ds, ((declareSchemas ds).run s).2.Declared d) ∧
      ((schemasOf ds).map (·.name.text)).Nodup ∧
      ∀ n, (find? (s.scopes.bindings s.scopes.current) n).isSome →
        n ∉ (schemasOf ds).map (·.name.text) := by
  induction ds generalizing s with
  | nil => exact ⟨nofun, nodup_nil, fun _ _ => not_mem_nil⟩
  | cons d ds ih =>
    cases d with
    | schema d =>
      obtain ⟨hunb, hrest, hrgl⟩ := run_declareSchemas_cons hs hfs
      rw [hrest] at hfs ⊢
      obtain ⟨hdecl, hnd, hfresh⟩ := ih hrgl hfs
      have hbd := find?_withSchema hs d
      have hd : (s.withSchema d).Declared d :=
        ⟨contains_iff_mem.mpr mem_cons_self, [], (hbd _).trans (if_pos rfl)⟩
      have hfr := (types_declareSchemas ds _ hrgl).1
      refine ⟨forall_mem_cons.mpr ⟨hd.mono hfr.registered
        (binds_retains.declareSchemas (fun _ _ => trivial) _), hdecl⟩,
        nodup_cons.mpr ⟨?_, hnd⟩, ?_⟩
      · exact hfresh _ (Option.isSome_iff_exists.mpr ⟨_, (hbd _).trans (if_pos rfl)⟩)
      · intro n hn
        have hne : n ≠ d.name.text := by
          rintro rfl
          rw [hunb] at hn
          cases hn
        refine not_mem_cons_of_ne_of_not_mem hne (hfresh n ?_)
        exact ((hbd n).trans (if_neg hne)).symm ▸ hn
    | _ => exact ih hs hfs

theorem run_propertyTypes (types : Table Ty) (ps : List SchemaProperty) :
    ∃ findings, ((propertyTypes types ps).run s).2 = { s with findings } := by
  induction ps generalizing s types with
  | nil => exact ⟨s.findings, rfl⟩
  | cons p ps ih =>
    have hrep : ∀ d types, ∃ findings,
        ((propertyTypes types ps).run ((report d).run s).2).2 = { s with findings } :=
      fun d types => ih (s := ((report d).run s).2) types
    rw [propertyTypes]
    split
    · exact hrep _ _
    · rw [run_get_bind]
      cases s.resolveType p.type with
      | ok type => exact ih _
      | error d => exact hrep _ _

/-- Every property gets a type, and none loses it. -/
theorem isSome_propertyTypes (types : Table Ty) (ps : List SchemaProperty) :
    (∀ n, (find? types n).isSome →
        (find? ((propertyTypes types ps).run s).1 n).isSome) ∧
      ∀ q ∈ ps, (find? ((propertyTypes types ps).run s).1 q.name.text).isSome := by
  induction ps generalizing s types with
  | nil => exact ⟨fun _ hn => hn, nofun⟩
  | cons p ps ih =>
    have hinsert : ∀ (s : Session) (type : Ty),
        (∀ n, (find? types n).isSome →
          (find? ((propertyTypes (types.insert p.name.text type) ps).run s).1 n).isSome) ∧
        ∀ q ∈ p :: ps, (find? ((propertyTypes (types.insert p.name.text type) ps).run s).1
          q.name.text).isSome := by
      intro s type
      obtain ⟨hold, hnew⟩ := ih (s := s) (types.insert p.name.text type)
      refine ⟨fun n hn => hold n ?_, forall_mem_cons.mpr ⟨hold _ ?_, hnew⟩⟩
      · rw [find?_insert]
        split
        · rfl
        · exact hn
      · rw [find?_insert, if_pos rfl]
        rfl
    rw [propertyTypes]
    split
    · next hcontains =>
      rw [run_bind]
      obtain ⟨hold, hnew⟩ := ih (s := ((report (.declarationExists p.name.text
        p.name.span)).run s).2) types
      exact ⟨hold, forall_mem_cons.mpr ⟨hold _ hcontains, hnew⟩⟩
    · rw [run_get_bind]
      cases s.resolveType p.type with
      | ok type => exact hinsert s type
      | error d => exact hinsert ((report d).run s).2 .any

theorem run_fillSchemas_cons (ds : List Decl) (h : s.isRegistered d.name) :
    (fillSchemas (.schema d :: ds)).run s = (fillSchemas ds).run { s with
      findings := ((propertyTypes [] d.properties).run s).2.findings
      scopes := s.scopes.modify d.name.text (fill ((propertyTypes [] d.properties).run s).1) } := by
  obtain ⟨findings, hrun⟩ := run_propertyTypes (s := s) [] d.properties
  rw [fillSchemas, run_get_bind]
  rw [if_pos h, run_bind, run_bind, hrun]
  rfl

theorem find?_bindings_fill {types : Table Ty} (hs : s.Regular) {scope : ScopeId} {n : String} :
    find? ((s.scopes.modify d.name.text (fill types)).bindings scope) n =
      if scope = s.scopes.current ∧ n = d.name.text then
        (find? (s.scopes.bindings scope) n).map (fill types)
      else find? (s.scopes.bindings scope) n := by
  rw [find?_bindings_modify]
  by_cases hsc : scope = s.scopes.current
  · subst hsc
    simp [hs.current_lt]
  · simp [hsc]

theorem Regular.fill (hs : s.Regular) (n : String) (types : Table Ty)
    (findings : List Diagnostic) :
    Regular { s with findings, scopes := s.scopes.modify n (fill types) } := by
  obtain ⟨-, h⟩ := types_modify n (f := Session.fill types) (fun t => by
    cases t with
    | schema name _ resources => exact ⟨rfl, rfl, rfl, rfl⟩
    | _ => exact Ty.Alike.refl _) s hs
  exact ⟨h.current_lt, h.aliases, h.definitions⟩

theorem find?_fillSchemas (hs : s.Regular) {n : String} (hn : n ∉ (schemasOf ds).map (·.name.text))
    (scope : ScopeId) :
    find? (((fillSchemas ds).run s).2.scopes.bindings scope) n =
      find? (s.scopes.bindings scope) n := by
  induction ds generalizing s with
  | nil => rfl
  | cons d ds ih =>
    cases d with
    | schema d =>
      have hne : n ≠ d.name.text := fun heq => hn (heq ▸ mem_cons_self)
      have hrest : n ∉ (schemasOf ds).map (·.name.text) := fun hmem =>
        hn (mem_cons_of_mem _ hmem)
      by_cases hreg : s.isRegistered d.name = true
      · rw [run_fillSchemas_cons ds hreg, ih (hs.fill _ _ _) hrest, find?_bindings_fill hs,
          if_neg fun hc => hne hc.2]
      · have hrun : (fillSchemas (.schema d :: ds)).run s = (fillSchemas ds).run s := by
          rw [fillSchemas, run_get_bind]
          rw [if_neg hreg]
        rw [hrun, ih hs hrest]
    | _ => exact ih hs hn

theorem run_fillSchemas_append (ds es : List Decl) (s : Session) :
    (fillSchemas (ds ++ es)).run s = (fillSchemas es).run ((fillSchemas ds).run s).2 := by
  induction ds generalizing s with
  | nil => rfl
  | cons d ds ih =>
    cases d with
    | schema d =>
      rw [cons_append, fillSchemas, fillSchemas, run_get_bind, run_get_bind]
      split
      · exact ih _
      · exact ih s
    | _ => exact ih s

theorem find?_fillSchemas_schema (hs : s.Regular) {before after : List Decl} (hd : s.Declared d)
    (hbef : d.name.text ∉ (schemasOf before).map (·.name.text))
    (haft : d.name.text ∉ (schemasOf after).map (·.name.text)) :
    ∃ resources, find? (((fillSchemas (before ++ .schema d :: after)).run s).2.scopes.bindings
      s.scopes.current) d.name.text = some (.schema d.name.text
        ((propertyTypes [] d.properties).run ((fillSchemas before).run s).2).1 resources) := by
  obtain ⟨hreg, resources, hbd⟩ := hd
  obtain ⟨hfr, hrgl⟩ := types_fillSchemas before s hs
  rw [run_fillSchemas_append, run_fillSchemas_cons after
    (isRegistered_mono hfr.toStays hreg), find?_fillSchemas (hrgl.fill _ _ _) haft]
  refine ⟨resources, (find?_bindings_fill hrgl).trans ?_⟩
  rw [if_pos ⟨hfr.current.symm, rfl⟩, find?_fillSchemas hs hbef, hbd]
  rfl

theorem filled_fillSchemas (hs : s.Regular) (hdecl : ∀ d ∈ schemasOf ds, s.Declared d)
    (hnd : ((schemasOf ds).map (·.name.text)).Nodup) :
    ∀ d ∈ schemasOf ds, ((fillSchemas ds).run s).2.Filled s.scopes.current d := by
  intro d hd
  obtain ⟨before, after, rfl⟩ := append_of_mem (mem_schemasOf.mp hd)
  obtain ⟨hbef, haft⟩ := not_mem_of_nodup_schemasOf hnd
  obtain ⟨resources, hbd⟩ := find?_fillSchemas_schema hs (hdecl d hd) hbef haft
  refine ⟨?_, _, _, hbd, rfl, (isSome_propertyTypes _ _).2⟩
  exact isRegistered_mono (types_fillSchemas _ s hs).1.toStays (hdecl d hd).1

theorem filled_registerTypes (hs : s.Regular)
    (hfs : ((registerTypes ds).run s).2.findings = [])
    (hd : .schema d ∈ ds) : ((registerTypes ds).run s).2.Filled s.scopes.current d := by
  have hrun : (registerTypes ds).run s = (fillSchemas ds).run
      ((registerAliases ((aliasesOf ds).length + 1) (aliasesOf ds)).run
        ((declareSchemas ds).run s).2).2 := rfl
  rw [hrun] at hfs ⊢
  obtain ⟨hfr₁, hrgl₁⟩ := types_declareSchemas ds s hs
  have hrtn := binds_retains.registerAliases ((aliasesOf ds).length + 1)
    (fun (_ : AliasDecl) (_ : _ ∈ aliasesOf ds) => trivial)
    ((declareSchemas ds).run s).2
  obtain ⟨hfr₂, hrgl₂⟩ := types_registerAliases ((aliasesOf ds).length + 1) (aliasesOf ds)
    ((declareSchemas ds).run s).2 hrgl₁
  have hnil := hfr₂.findings_eq_nil
    ((types_fillSchemas ds _ hrgl₂).1.findings_eq_nil hfs)
  obtain ⟨hdecl, hnd, -⟩ := declared_declareSchemas hs hnil
  have hfill := filled_fillSchemas hrgl₂
    (fun e he => (hdecl e he).mono hfr₂.registered hrtn) hnd d (mem_schemasOf.mpr hd)
  rwa [hfr₂.current, hfr₁.current] at hfill

/-! ### Components -/

theorem retains_afterSignature (s : Session) (name : Ident) (body : List Decl) :
    Retains s (s.afterSignature name body).2 := by
  refine ⟨rfl, fun {scope n type} hbd => ?_⟩
  -- the scope of the component is a new one
  have hne : scope ≠ s.scopes.all.length := by
    rintro rfl
    rw [bindings, scope, getElem?_eq_none le_rfl] at hbd
    cases hbd
  have helsewhere := (Moves.bind (elsewhere_registerTypes body) fun _ =>
    binds_elsewhere.signatureOf name.text {} body)
      (({ s with scopes := (s.scopes.newChild (some name.text)).2 } : Session).within
        s.scopes.all.length)
  have hsame := helsewhere.bindings scope hne
  refine ⟨type, ?_, rfl, rfl⟩
  show find? (bindings _ scope) n = some type
  rw [afterSignature, run_inScope]
  refine (congrArg (find? · n) hsame).trans ?_
  show find? ((s.scopes.newChild (some name.text)).2.bindings scope) n = some type
  rw [bindings_newChild, hbd]

theorem filled_afterSignature (hs : s.Regular) {name : Ident} {body : List Decl}
    (hfs : (s.afterSignature name body).2.findings = [])
    (hd : .schema d ∈ body) : (s.afterSignature name body).2.Filled s.scopes.all.length d := by
  have hlt := s.scopes.length_lt_newChild (some name.text)
  obtain ⟨-, hch⟩ := types_newChild s (some name.text) hs
  have hin := hch.within hlt
  obtain ⟨-, hrgl⟩ := types_registerTypes body _ hin
  have hsig := (types_signatureOf name.text {} body _ hrgl).1
  have hfill := filled_registerTypes hin (hsig.findings_eq_nil hfs) hd
  have hlast := hfill.mono hsig.registered (binds_retains.signatureOf name.text {} body _)
  exact ⟨hlast.isRegistered, hlast.bound⟩

theorem filled_defineComponent (hs : s.Regular) (name : Ident) (body : List Decl) :
    Retains s ((defineComponent name body).run s).2 ∧
      (((defineComponent name body).run s).2.findings = [] →
        ∀ c, ((defineComponent name body).run s).1 = some c → ∀ d, .schema d ∈ c.body →
          ((defineComponent name body).run s).2.Filled c.scope d) := by
  have hsig := retains_afterSignature s name body
  rcases run_defineComponent s name body with ⟨hunb, hrun⟩ | ⟨f, hrun⟩
  · have hset : Retains (s.afterSignature name body).2 ((s.afterSignature name body).2.withComponent
        name (s.definitionOf name body) body s.scopes.all.length) :=
      ⟨rfl, (retains_set hunb).bound⟩
    rw [hrun]
    refine ⟨IsTrans.trans (r := Retains) _ _ _ hsig hset, ?_⟩
    rintro hfs c ⟨⟩ d hd
    exact (filled_afterSignature hs hfs hd).mono (subset_cons_self _ _) hset
  · rw [hrun]
    exact ⟨IsTrans.trans (r := Retains) _ _ _ hsig (retains_report f _), nofun⟩

/-- The schemas of a body are filled when its component is defined. -/
theorem filled_defineComponents (ds : List Decl) (hs : AtTop p s) :
    Retains s ((defineComponents ds).run s).2 ∧
      (((defineComponents ds).run s).2.findings = [] →
        ∀ c ∈ ((defineComponents ds).run s).1, ∀ d, .schema d ∈ c.body →
          ((defineComponents ds).run s).2.Filled c.scope d) := by
  induction ds generalizing s with
  | nil => exact ⟨Std.Refl.refl s, fun _ => nofun⟩
  | cons e ds ih =>
    cases e with
    | component decs name body span =>
      have hone := defines_component hs name body
      obtain ⟨hrtn, hfill⟩ := filled_defineComponent hs.toRegular name body
      have htop := hs.grows hone.grows hone.registering
      obtain ⟨hrtn', hfill'⟩ := ih htop
      have hrest := defines_components ds htop
      rw [run_defineComponents_cons]
      refine ⟨IsTrans.trans (r := Retains) _ _ _ hrtn hrtn', fun hfs c hc d hd => ?_⟩
      rcases mem_append.mp hc with hc | hc
      · have hnil := hrest.grows.findings_eq_nil hfs
        exact (hfill hnil c (Option.mem_toList.mp hc) d hd).mono hrest.grows.registered hrtn'
      · exact hfill' hfs c hc d hd
    | _ => exact ih hs

/-! ### Programs -/

/-- Without findings the schemas of every body are filled in. -/
theorem filled_registerProgram (hs : AtTop p s)
    (hfs : ((registerProgram p.items).run s).2.findings = []) {c : Option String}
    (hbody : p.Body c ds) :
    ∃ scope, ((registerProgram p.items).run s).2.BodyAt scope c ∧
      ∀ d, .schema d ∈ ds → ((registerProgram p.items).run s).2.Filled scope d := by
  obtain ⟨-, hs₁⟩ := hs.registerTypes p.items
  have hdefs := defines_components p.items hs₁
  have hs₂ := hs₁.grows hdefs.grows hdefs.registering
  obtain ⟨hrtn₂, hfill₂⟩ := filled_defineComponents p.items hs₁
  have hrun : ((registerProgram p.items).run s).2 =
      ((registerMembers p.items).run ((registerBodies ((defineComponents p.items).run
        ((registerTypes p.items).run s).2).1).run ((defineComponents p.items).run
          ((registerTypes p.items).run s).2).2).2).2 := rfl
  rw [hrun] at hfs ⊢
  generalize (defineComponents p.items).run ((registerTypes p.items).run s).2 = r at *
  have hknown : ∀ c ∈ r.1, r.2.Knows c ∧ p.Body (some c.name.text) c.body := by
    intro c hc
    obtain ⟨⟨decs, span, hmem⟩, hknows⟩ := hdefs.defined c hc
    exact ⟨hknows, .component hmem⟩
  obtain ⟨hgr₃, hs₃, -⟩ := registers_bodies _ hs₂ hknown
  have hrtn₃ := retains_registerBodies r.1 r.2
  have hmems := (hs₂.grows hgr₃ hs₃).registerMembers (Subset.refl p.items)
  have hrtn₄ := retains_registerMembers p.items ((registerBodies r.1).run r.2).2
  have hgr₄ := hgr₃.trans hmems.grows
  have hnil₂ := hgr₄.findings_eq_nil hfs
  have hlast := IsTrans.trans (r := Retains) _ _ _ hrtn₃ hrtn₄
  cases hbody with
  | top =>
    refine ⟨ScopeId.global, hmems.registering.top, fun d hd => ?_⟩
    have hfill := filled_registerTypes hs.toRegular (hdefs.grows.findings_eq_nil hnil₂) hd
    rw [hs.current_eq_global] at hfill
    exact hfill.mono (hdefs.grows.trans hgr₄).registered
      (IsTrans.trans (r := Retains) _ _ _ hrtn₂ hlast)
  | component hmem =>
    obtain ⟨-, -, c, hc, rfl, rfl⟩ := hdefs.complete hnil₂ hmem
    obtain ⟨i, hi, -, hsc⟩ := (hknown c hc).1.grows hgr₄
    refine ⟨c.scope, hsc ▸ (hmems.registering.component hi).1, fun d hd => ?_⟩
    exact (hfill₂ hnil₂ c hc d hd).mono hgr₄.registered hlast

end Session

end Provision
