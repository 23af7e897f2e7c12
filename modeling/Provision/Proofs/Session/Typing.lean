import Provision.Proofs.Session.Signing

/-!
# How the types of a body are bound

The types of a body are bound in three steps: its schemas without properties, its aliases, and then
the properties of its schemas. `Session.Typing` says of a body that this happened to it, and that
what it led to lasts.

* A schema is bound with a table of its properties, in order, each with a type that equals what is
  written for it (`Session.Typing.describes`).
* An alias of a schema of the same body is bound to the schema as it was in between, and never gets
  to know a property (`Session.Typing.find?_alias`).
* The declaration of a schema is noted under its scope and its name (`Session.Typing.lookup`).
-/

namespace Provision

open List Table

namespace Scopes

/-- What a name means in the types of the schemas of a body: a type of the body itself, or else one
of the top level. -/
def typeIn? (e : Scopes) (scope : ScopeId) (ds : List Decl) (n : String) : Option Ty :=
  find? (e.bindings (if n ∈ Decl.typeNames ds then scope else ScopeId.global)) n

/-- A schema of a body is bound with a table of its properties: they have a type each, in order, and
one that equals what is written. -/
structure Describes (e : Scopes) (scope : ScopeId) (ds : List Decl) (d : SchemaDecl)
    (types : Table Ty) : Prop where
  bound : ∃ resources, find? (e.bindings scope) d.name.text =
    some (.schema d.name.text types resources)
  names : types.names = d.properties.map (·.name.text)
  same : ∀ q ∈ d.properties, ∃ type written, find? types q.name.text = some type ∧
    q.type.meaning (e.typeIn? scope ds) = some written ∧ Ty.same type written = true

end Scopes

namespace Session

variable {p : Program} {s t u : Session} {σ : ScopeId}

/-! ### Properties -/

/-- A table gives each property of a schema, in order, what is written for it. -/
structure Lists (s : Session) (d : SchemaDecl) (types : Table Ty) : Prop where
  names : types.names = d.properties.map (·.name.text)
  meaning : ∀ q ∈ d.properties, ∃ type, s.resolveType q.type = .ok type ∧
    find? types q.name.text = some type

/-- Properties keep their order, and get what is written for them. -/
theorem propertyTypes_spec (hs : s.Regular) {types : Table Ty} {ps : List SchemaProperty}
    (hnil : ((propertyTypes types ps).run s).2.findings = []) :
    ((propertyTypes types ps).run s).1.names = types.names ++ ps.map (·.name.text) ∧
      (∀ n type, find? types n = some type →
        find? ((propertyTypes types ps).run s).1 n = some type) ∧
      ∀ q ∈ ps, ∃ type, s.resolveType q.type = .ok type ∧
        find? ((propertyTypes types ps).run s).1 q.name.text = some type := by
  induction ps generalizing types with
  | nil => exact ⟨(append_nil _).symm, fun _ _ h => h, forall_mem_nil _⟩
  | cons q ps ih =>
    -- a finding would still be there in the end
    have hrep : ∀ d types,
        ((propertyTypes types ps).run ((report d).run s).2).2.findings ≠ [] := by
      intro d types hrest
      have hfr := (binds_types.propertyTypes types ps _ (types_report d s hs).2).1
      exact absurd (hfr.findings_eq_nil hrest)
        (concat_ne_nil _ _)
    rw [propertyTypes] at hnil ⊢
    split at hnil
    · exact absurd hnil (hrep _ _)
    · next hnew =>
      rw [if_neg hnew]
      rw [run_get_bind] at hnil ⊢
      cases hres : s.resolveType q.type with
      | error d =>
        rw [hres] at hnil
        exact absurd hnil (hrep _ _)
      | ok type =>
        rw [hres] at hnil
        have hfree : find? types q.name.text = none := Option.not_isSome_iff_eq_none.mp hnew
        obtain ⟨hnms, hold, hrest⟩ := ih hnil
        have hinsert : types.insert q.name.text type = types ++ [(q.name.text, type)] :=
          insert_of_find?_eq_none hfree
        refine ⟨?_, fun n type' hn => hold n type' ?_, forall_mem_cons.mpr
          ⟨⟨type, hres, hold _ _ ?_⟩, hrest⟩⟩
        · rw [hnms, hinsert]
          simp [names]
        · have hne : n ≠ q.name.text := by
            rintro rfl
            rw [hfree] at hn
            cases hn
          rw [find?_insert, if_neg hne, hn]
        · rw [find?_insert, if_pos rfl]

/-! ### What is noted of schemas -/

def SameSchemas (s t : Session) : Prop := t.schemas = s.schemas

instance : IsPreorder Session SameSchemas where
  refl _ := rfl
  trans _ _ _ h h' := Eq.trans h' h

theorem sameSchemas_declare (name : Ident) (type : Ty) :
    Moves SameSchemas (declare name type) := fun s =>
  of_declare (P := SameSchemas s) name (fun _ => rfl) fun _ => rfl

theorem binds_sameSchemas : Binds (fun _ => True) SameSchemas where
  report _ _ := rfl
  bindAlias _ _ _ := rfl

theorem enlists_sameSchemas : Enlists (fun _ => True) SameSchemas where
  report _ _ := rfl
  declare name _ _ := sameSchemas_declare name _ _
  mark _ _ := rfl
  addResource _ _ _ _ := rfl
  addInstance _ _ _ _ := rfl
  tell _ _ _ := rfl

theorem sameSchemas_registerBodies (cs : List Defined) :
    Moves SameSchemas (registerBodies cs) := by
  induction cs with
  | nil => exact Moves.pure _
  | cons c cs ih =>
    refine Moves.bind (fun s => ?_) fun _ => ih
    exact enlists_sameSchemas.registerMembers c.body (fun _ _ => trivial)
      (s.inside c.name.text c.scope)

/-- What is noted of the schemas of one scope stays, as long as the session is in another one. -/
structure Spares (σ : ScopeId) (s t : Session) : Prop where
  current : t.scopes.current = s.scopes.current
  lookup : s.scopes.current ≠ σ → ∀ n, t.schemas.lookup (σ, n) = s.schemas.lookup (σ, n)

instance : IsPreorder Session (Spares σ) where
  refl _ := ⟨rfl, fun _ _ => rfl⟩
  trans _ _ _ h h' := ⟨h'.current.trans h.current, fun hne n =>
    (h'.lookup (h.current ▸ hne) n).trans (h.lookup hne n)⟩

theorem binds_spares : BindsTypes (fun _ => True) (Spares σ) where
  report _ _ := ⟨rfl, fun _ _ => rfl⟩
  bindAlias _ _ _ := ⟨rfl, fun _ _ => rfl⟩
  withSchema {s d} _ _ := by
    refine ⟨rfl, fun hne n => ?_⟩
    have hkey : ((σ, n) == (s.scopes.current, d.name.text)) = false :=
      beq_false_of_ne fun heq => hne (congrArg Prod.fst heq).symm
    exact lookup_cons.trans (by rw [hkey])

theorem lookup_defineComponents (ds : List Decl) (hs : AtTop p s)
    (hσ : σ < s.scopes.all.length) (n : String) :
    ((defineComponents ds).run s).2.schemas.lookup (σ, n) = s.schemas.lookup (σ, n) := by
  induction ds generalizing s with
  | nil => rfl
  | cons d ds ih =>
    cases d with
    | component decs name body span =>
      have hone := defines_component hs name body
      have hrest := ih (hs.grows hone.grows hone.registering)
        (hσ.trans_le hone.grows.scopes.length_le)
      -- the types of the component are bound in a scope that is new
      have hsig : (s.afterSignature name body).2.schemas.lookup (σ, n) =
          s.schemas.lookup (σ, n) :=
        ((Moves.bind (binds_spares.registerTypes (fun _ _ _ => ⟨rfl, fun _ _ => rfl⟩)
          fun _ _ => trivial) fun _ =>
            binds_spares.signatureOf name.text {} body) (s.inNewScope name)).lookup hσ.ne' n
      refine hrest.trans ?_
      rcases run_defineComponent s name body with ⟨-, hrun⟩ | ⟨d, hrun⟩
      · rw [hrun]
        exact hsig
      · rw [hrun]
        exact hsig
    | _ => exact ih hs hσ

/-- A schema is noted under its name, where it is declared. -/
theorem lookup_declareSchemas (hs : s.Regular) {ds : List Decl}
    (hfs : ((declareSchemas ds).run s).2.findings = [])
    (hnd : ((schemasOf ds).map (·.name.text)).Nodup) :
    (∀ n ∉ (schemasOf ds).map (·.name.text), ((declareSchemas ds).run s).2.schemas.lookup
        (s.scopes.current, n) = s.schemas.lookup (s.scopes.current, n)) ∧
      ∀ d ∈ schemasOf ds, ((declareSchemas ds).run s).2.schemas.lookup
        (s.scopes.current, d.name.text) = some d := by
  induction ds generalizing s with
  | nil => exact ⟨fun _ _ => rfl, forall_mem_nil _⟩
  | cons d ds ih =>
    cases d with
    | schema d =>
      obtain ⟨hfresh, hnd⟩ := nodup_cons.mp hnd
      obtain ⟨-, hrest, hrgl⟩ := run_declareSchemas_cons hs hfs
      rw [hrest] at hfs ⊢
      obtain ⟨hoth, hown⟩ := ih hrgl hfs hnd
      have hfst : ∀ n, (s.withSchema d).schemas.lookup (s.scopes.current, n) =
          if n = d.name.text then some d else s.schemas.lookup (s.scopes.current, n) := by
        intro n
        by_cases hn : n = d.name.text
        · simp [withSchema, hn]
        · have hkey : ((s.scopes.current, n) == (s.scopes.current, d.name.text)) = false :=
            beq_false_of_ne fun heq => hn (congrArg Prod.snd heq)
          rw [if_neg hn, withSchema, lookup_cons, hkey]
      refine ⟨fun n hn => ?_, forall_mem_cons.mpr ⟨?_, hown⟩⟩
      · have hne : n ≠ d.name.text := fun heq => hn (heq ▸ mem_cons_self)
        have hn' : n ∉ (schemasOf ds).map (·.name.text) := fun hmem =>
          hn (mem_cons_of_mem _ hmem)
        exact (hoth n hn').trans ((hfst n).trans (if_neg hne))
      · exact (hoth _ hfresh).trans ((hfst _).trans (if_pos rfl))
    | _ => exact ih hs hfs hnd

/-! ### The types of a body -/

/-- The session in which the aliases of a body are bound, but its schemas have no properties yet. -/
def aliased (s : Session) (ds : List Decl) : Session :=
  ((registerAliases ((aliasesOf ds).length + 1) (aliasesOf ds)).run
    ((declareSchemas ds).run s).2).2

theorem run_registerTypes (ds : List Decl) (s : Session) :
    (registerTypes ds).run s = (fillSchemas ds).run (s.aliased ds) := rfl

/-- The types of a body were bound, beginning in `s` with a scope that was empty, and `t` still
knows them. -/
structure Typing (t : Session) (c : Option String) (ds : List Decl) (s : Session) : Prop where
  regular : s.Regular
  coherent : s.Coherent
  top : (s.scopes.scope ScopeId.global).parent = none
  parent : (s.scopes.scope s.scopes.current).parent = c.map fun _ => ScopeId.global
  empty : ∀ n, find? (s.scopes.bindings s.scopes.current) n = none
  findings : ((registerTypes ds).run s).2.findings = []
  atBody : t.BodyAt s.scopes.current c
  lasting : Lasting ((registerTypes ds).run s).2 t
  noted : ∀ n, t.schemas.lookup (s.scopes.current, n) =
    ((registerTypes ds).run s).2.schemas.lookup (s.scopes.current, n)

theorem Typing.mono {c : Option String} {ds : List Decl} (h : Typing t c ds s)
    (hlasting : Lasting t u) (hschs : SameSchemas t u)
    (hbody : ∀ {scope c}, t.BodyAt scope c → u.BodyAt scope c) : Typing u c ds s :=
  { h with
    atBody := hbody h.atBody
    lasting := h.lasting.trans hlasting
    noted := fun n => by rw [hschs, h.noted] }

namespace Typing

variable {c : Option String} {ds : List Decl} (h : Typing t c ds s)
include h

/-- The session in which the aliases of a body are bound. -/
theorem aliased_spec : (s.aliased ds).Regular ∧ (s.aliased ds).Coherent ∧
    (s.aliased ds).scopes.current = s.scopes.current ∧
    Introduces (fun scope n => scope = s.scopes.current → n ∈ Decl.typeNames ds) (fun _ => True) s
      (s.aliased ds) ∧ ((declareSchemas ds).run s).2.findings = [] ∧
    (s.aliased ds).findings = [] := by
  obtain ⟨hfr₁, hrgl₁⟩ := types_declareSchemas ds s h.regular
  obtain ⟨hfr₂, hrgl₂⟩ := types_registerAliases ((aliasesOf ds).length + 1) (aliasesOf ds)
    _ hrgl₁
  have hnil : (s.aliased ds).findings = [] :=
    (types_fillSchemas ds _ hrgl₂).1.findings_eq_nil h.findings
  have hbinds := binds_introducing (σ := s.scopes.current) (A := fun _ => True)
    (W := fun scope n => scope = s.scopes.current → n ∈ Decl.typeNames ds) trivial
  obtain ⟨hintr₁, hcoh₁⟩ := hbinds.declareSchemas (fun n hn _ => hn) s rfl h.coherent
  have halias : ∀ a ∈ aliasesOf ds, a.name.text ∈ Decl.typeNames ds := fun a ha =>
    Decl.mem_typeNames.mpr ⟨_, mem_aliasesOf.mp ha, rfl⟩
  obtain ⟨hintr₂, hcoh₂⟩ := hbinds.registerAliases ((aliasesOf ds).length + 1)
    (fun a ha _ => halias a ha) _ hfr₁.current hcoh₁
  exact ⟨hrgl₂, hcoh₂, hfr₂.current.trans hfr₁.current,
    hintr₁.trans hintr₂, hfr₂.findings_eq_nil hnil, hnil⟩

/-- When a schema is filled, the types of the body are bound already. -/
theorem exists_lists {d : SchemaDecl} (hd : .schema d ∈ ds) : ∃ u types resources,
    u.Coherent ∧ u.scopes.current = s.scopes.current ∧
    Introduces (fun scope n => scope = s.scopes.current → n ∈ Decl.typeNames ds) (fun _ => True)
      s u ∧
    Introduces (fun _ _ => False) (fun _ => False) u ((registerTypes ds).run s).2 ∧
    u.Lists d types ∧
    find? (((registerTypes ds).run s).2.scopes.bindings s.scopes.current) d.name.text =
      some (.schema d.name.text types resources) := by
  obtain ⟨hrgl, hcoh, hcur, hintr, hnil₁, -⟩ := h.aliased_spec
  obtain ⟨hdecl, hnd, -⟩ := declared_declareSchemas h.regular hnil₁
  have hd' : (s.aliased ds).Declared d :=
    (hdecl d (mem_schemasOf.mpr hd)).mono
      (types_registerAliases _ _ _ (types_declareSchemas ds s h.regular).2).1.registered
      (binds_retains.registerAliases _ (fun _ _ => trivial) _)
  -- the schemas before it have their properties already
  obtain ⟨before, after, hds⟩ := append_of_mem hd
  obtain ⟨hbef, haft⟩ := not_mem_of_nodup_schemasOf (hds ▸ hnd)
  set u : Session := ((fillSchemas before).run (s.aliased ds)).2 with hu
  obtain ⟨hfr, hrglU⟩ := types_fillSchemas before _ hrgl
  obtain ⟨hto, hcohU⟩ := introducing_fillSchemas
    (W := fun scope n => scope = s.scopes.current → n ∈ Decl.typeNames ds) (A := fun _ => True)
    before _ hcur hcoh
  have hrun : (registerTypes ds).run s = (fillSchemas (.schema d :: after)).run u := by
    rw [run_registerTypes, hu, ← run_fillSchemas_append, ← hds]
  obtain ⟨hfrom, -⟩ := introducing_fillSchemas (W := fun _ _ => False) (A := fun _ => False)
    (.schema d :: after) u (hfr.current.trans hcur) hcohU
  have hnilU : ((propertyTypes [] d.properties).run u).2.findings = [] := by
    have hfs := h.findings
    rw [hrun, run_fillSchemas_cons after (isRegistered_mono hfr.toStays hd'.1)] at hfs
    exact (types_fillSchemas after _ (hrglU.fill _ _ _)).1.findings_eq_nil hfs
  obtain ⟨resources, hbd⟩ := find?_fillSchemas_schema hrgl hd' hbef haft
  obtain ⟨hnms, -, hmean⟩ := propertyTypes_spec hrglU hnilU
  refine ⟨u, _, resources, hcohU, hfr.current.trans hcur, hintr.trans hto,
    hrun ▸ hfrom, ⟨hnms, hmean⟩, ?_⟩
  rw [run_registerTypes, ← hcur]
  exact hds ▸ hbd

/-- What a name denotes then is what it denotes in the end. -/
theorem outline_typeIn? (hcoh : u.Coherent) (hcur : u.scopes.current = s.scopes.current)
    (hto : Introduces (fun scope n => scope = s.scopes.current → n ∈ Decl.typeNames ds)
      (fun _ => True) s u)
    (hfrom : Introduces (fun _ _ => False) (fun _ => False) u ((registerTypes ds).run s).2)
    {n : String} {type : Ty} (hn : u.denotes? n = some type) :
    (t.scopes.typeIn? s.scopes.current ds n).map Ty.outline = some type.outline := by
  obtain ⟨scope, hres, -⟩ := resolve_of_denotes? hn
  obtain ⟨hflat, -⟩ := hcoh.denotes hn
  obtain ⟨hchain, hbd⟩ := Scopes.mem_chain_of_resolve hres
  have hgl : ScopeId.global < s.scopes.all.length := Nat.zero_lt_of_lt h.regular.current_lt
  have hsc : scope = s.scopes.current ∨ scope = ScopeId.global := by
    rw [hcur] at hchain
    refine Scopes.chainFrom_subset _ ?_ ?_ scope hchain
    · rw [hto.persists.parent _ hgl, h.top]
    · rw [hto.persists.parent _ h.regular.current_lt, h.parent]
      cases c <;> simp
  -- the scope of the body binds the types of the body, and nothing else
  have hown : (find? (u.scopes.bindings s.scopes.current) n).isSome ↔
      n ∈ Decl.typeNames ds := by
    constructor
    · intro hsome
      rcases hto.fresh hsome with hbef | hmem
      · rw [h.empty] at hbef
        cases hbef
      · exact hmem rfl
    · exact fun hmem =>
        (hfrom.fresh (isSome_of_mem_typeNames h.regular h.findings hmem)).resolve_right id
  have hhome : (if n ∈ Decl.typeNames ds then s.scopes.current else ScopeId.global) = scope := by
    split
    · next hmem =>
      by_contra hne
      have hunb := Scopes.unbound_of_resolve hcoh.current_lt hres
        (hcur ▸ Ne.symm hne)
      rw [hcur] at hunb
      rw [← hown, hunb] at hmem
      cases hmem
    · next hmem =>
      rcases hsc with rfl | rfl
      · exact absurd (hown.mp (Option.isSome_iff_exists.mpr ⟨type, hbd⟩)) hmem
      · rfl
  obtain ⟨type₁, hty₁, hcore₁⟩ := hfrom.bound hbd
  obtain ⟨type₂, hty₂, -, hcore₂⟩ := h.lasting hty₁
  rw [Scopes.typeIn?, hhome, hty₂, Option.map_some,
    Ty.outline_of_core (hcore₂.trans hcore₁) hflat.params?]

/-- A schema is bound with what is written for its properties. -/
theorem describes {d : SchemaDecl} (hd : .schema d ∈ ds) :
    ∃ types, t.scopes.Describes s.scopes.current ds d types := by
  obtain ⟨u, types, resources, hcoh, hcur, hto, hfrom, hls, hbd⟩ := h.exists_lists hd
  obtain ⟨type', hty', hprops, hcore⟩ := h.lasting hbd
  obtain ⟨resources', rfl⟩ := Ty.eq_schema_of_core hcore hprops
  refine ⟨types, ⟨resources', hty'⟩, hls.names, fun q hq => ?_⟩
  obtain ⟨type, hres, hfind⟩ := hls.meaning q hq
  have hmean : q.type.meaning u.denotes? = some type := by
    rw [← resolveType_eq, hres]
    rfl
  have hnms : ∀ n ∈ q.type.names, (t.scopes.typeIn? s.scopes.current ds n).map Ty.outline =
      (u.denotes? n).map Ty.outline := by
    intro n hn
    cases hden : u.denotes? n with
    | none =>
      have hnone := (TypeExpr.meaning_eq_none q.type).mpr ⟨n, hn, hden⟩
      rw [hmean] at hnone
      cases hnone
    | some type => exact h.outline_typeIn? hcoh hcur hto hfrom hden
  have hotl : (q.type.meaning (t.scopes.typeIn? s.scopes.current ds)).map Ty.outline =
      some type.outline := by
    rw [TypeExpr.outline_meaning, TypeExpr.meaning_congr q.type hnms,
      ← TypeExpr.outline_meaning, hmean, Option.map_some]
  obtain ⟨written, hwr, heq⟩ := Option.map_eq_some_iff.mp hotl
  exact ⟨type, written, hfind, hwr, (hcoh.resolveType hres).1.same_of_outline heq⟩

/-- An alias of a schema of the same body is bound to the schema without properties. -/
theorem find?_alias {a : AliasDecl} {name : Ident} {d : SchemaDecl} (ha : .alias a ∈ ds)
    (hty : a.type = .named name) (hword : TypeExpr.builtIn? name.text = none)
    (hd : .schema d ∈ ds) (hnm : d.name.text = name.text) :
    ∃ resources, find? (t.scopes.bindings s.scopes.current) a.name.text =
      some (.schema d.name.text [] resources) := by
  obtain ⟨hrgl, -, -, -, hnil₁, hnil₂⟩ := h.aliased_spec
  obtain ⟨hdecl, -, -⟩ := declared_declareSchemas h.regular hnil₁
  obtain ⟨hfr₁, hrgl₁⟩ := types_declareSchemas ds s h.regular
  obtain ⟨u, type, type', hrglU, hrtn, hres, hfree, hbd, hprops, hcore⟩ :=
    assigned_registerAliases hrgl₁ (Nat.lt_succ_self _) hnil₂ a (mem_aliasesOf.mpr ha)
  -- when the alias is bound, so are all schemas, and they have no properties
  have hsch : ∀ e ∈ schemasOf ds, ∃ resources, find?
      (u.scopes.bindings u.scopes.current) e.name.text =
        some (.schema e.name.text [] resources) := by
    intro e he
    obtain ⟨-, resources, hbd⟩ := hdecl e he
    obtain ⟨type, hty, hprops, hcore⟩ := hrtn.bound hbd
    obtain ⟨resources', rfl⟩ := Ty.eq_schema_of_core hcore hprops
    exact ⟨resources', hrtn.current ▸ hty⟩
  obtain ⟨resources, hschD⟩ := hsch d (mem_schemasOf.mpr hd)
  obtain rfl : type = .schema d.name.text [] resources := by
    have hmean := resolveType_eq (s := u) a.type
    rw [hres, hty, TypeExpr.meaning, hword, Option.none_or, denotes?, ← hnm,
      Scopes.resolve_of_find? hrglU.current_lt hschD] at hmean
    have hnominal : (Ty.schema d.name.text [] resources).isNominal = true := rfl
    simp only [hnominal, Bool.or_true, if_true] at hmean
    exact Option.some.inj hmean
  obtain ⟨resources', rfl⟩ := Ty.eq_schema_of_core hcore hprops
  have hoth : a.name.text ∉ (schemasOf ds).map (·.name.text) := by
    intro hmem
    obtain ⟨e, he, heq⟩ := mem_map.mp hmem
    obtain ⟨_, hboundE⟩ := hsch e he
    rw [hrtn.current, heq, hfree] at hboundE
    cases hboundE
  rw [hfr₁.current] at hbd
  have hfill := (find?_fillSchemas hrgl hoth s.scopes.current).trans hbd
  obtain ⟨type₁, hty₁, hprops₁, hcore₁⟩ := h.lasting hfill
  obtain ⟨resources₁, rfl⟩ := Ty.eq_schema_of_core hcore₁ hprops₁
  exact ⟨resources₁, hty₁⟩

/-- The declaration of a schema is found by its scope and its name. -/
theorem lookup {d : SchemaDecl} (hd : .schema d ∈ ds) :
    t.schemas.lookup (s.scopes.current, d.name.text) = some d := by
  obtain ⟨-, -, -, -, hnil, -⟩ := h.aliased_spec
  obtain ⟨-, hnd, -⟩ := declared_declareSchemas h.regular hnil
  have hsame : ((registerTypes ds).run s).2.schemas = ((declareSchemas ds).run s).2.schemas :=
    (Moves.bind (binds_sameSchemas.registerAliases _ fun _ _ => trivial) fun _ =>
      binds_sameSchemas.fillSchemas (fun _ _ _ => rfl) ds) ((declareSchemas ds).run s).2
  rw [h.noted, hsame]
  exact (lookup_declareSchemas h.regular hnil hnd).2 d (mem_schemasOf.mpr hd)

end Typing

/-! ### All bodies -/

section Program

variable (hs : AtTop p s)
include hs

theorem lasting_typed : Lasting (typed p s) ((registerProgram p.items).run s).2 := by
  have hdfn := (filled_defineComponents p.items (atTop_typed hs)).1.lasting
  have hbds := (retains_registerBodies (defining p s).1 (defining p s).2).lasting
  have hmems := (retains_registerMembers p.items (bodied p s (defining p s).1)).lasting
  exact hdfn.trans (hbds.trans hmems)

omit hs in
theorem sameSchemas_registerProgram :
    SameSchemas (defining p s).2 ((registerProgram p.items).run s).2 :=
  IsTrans.trans (r := SameSchemas) _ _ _ (sameSchemas_registerBodies _ _)
    (enlists_sameSchemas.registerMembers p.items (fun _ _ => trivial)
      (bodied p s (defining p s).1))

theorem typing_top (hcoh : s.Coherent)
    (hempty : ∀ scope n, find? (s.scopes.bindings scope) n = none)
    (hnil : ((registerProgram p.items).run s).2.findings = []) :
    Typing ((registerProgram p.items).run s).2 none p.items s := by
  have htop := atTop_typed hs
  have hcur := hs.current_eq_global
  have hdefs := definesAll_defining hs
  have hgr := grows_registerProgram hs
  have hpar : (s.scopes.scope ScopeId.global).parent = none := hs.parent hs.top
  exact {
    regular := hs.toRegular
    coherent := hcoh
    top := hpar
    parent := by rw [hcur]; exact hpar
    empty := hempty _
    findings := hdefs.grows.findings_eq_nil (hgr.findings_eq_nil hnil)
    atBody := by rw [hcur]; exact hgr.bodyAt (hdefs.grows.bodyAt htop.top)
    lasting := lasting_typed hs
    noted := fun n => by
      rw [sameSchemas_registerProgram]
      exact lookup_defineComponents p.items htop
        (hcur ▸ Nat.zero_lt_of_lt htop.current_lt) n }

/-- The types of a component are bound in a scope of its own. -/
theorem typing_component (hcoh : s.Coherent)
    (hnil : ((registerProgram p.items).run s).2.findings = []) {before after : List Decl}
    {decs : List Decoration} {name : Ident} {body : List Decl} {span : Span}
    (hits : p.items = before ++ .component decs name body span :: after) :
    Typing ((registerProgram p.items).run s).2 (some name.text) body
      ((reached p s before).2.inNewScope name) := by
  have hnil' := (grows_registerProgram hs).findings_eq_nil hnil
  obtain ⟨hdfn, hpassed, hnilC⟩ := defining_eq hs hits hnil'
  obtain ⟨hpassed_eq, hunb⟩ := passed_eq hs hits hnil'
  obtain ⟨-, htop⟩ := definesAll_reached hs before
  obtain ⟨-, hrchd⟩ := introduces_reached hs hcoh before
  have hnst := nested_inNewScope htop name
  obtain ⟨-, hch⟩ := introducing_newChild (W := fun _ _ => True) (A := fun _ => True)
    (reached p s before).2 (some name.text) rfl hrchd
  obtain ⟨-, hrgl⟩ := types_newChild (reached p s before).2 (some name.text) htop.toRegular
  -- from the types of the body to the binding of the component
  set x := (reached p s before).2.inNewScope name
  have hrtn : Retains (((registerTypes body).run x).2.within ScopeId.global)
      (passed p s before name body) := by
    rw [hpassed_eq]
    exact ⟨rfl, (retains_set hunb).bound⟩
  have hschs : (passed p s before name body).schemas =
      ((registerTypes body).run x).2.schemas := by
    rw [hpassed_eq]
    rfl
  exact {
    regular := hrgl.within hnst.lt
    coherent := hch.within hnst.lt
    top := hnst.top
    parent := hnst.parent
    empty := fun n => (congrArg (find? · n) Scopes.bindings_newChild).trans
      (find?_bindings_length _ n)
    findings := by
      rw [hpassed_eq] at hnilC
      exact hnilC
    atBody := bodyAt_reached hs hits hnil'
    lasting := hrtn.lasting.trans (lasting_passed hs hits hnil')
    noted := fun n => by
      rw [sameSchemas_registerProgram, hdfn, ← hschs]
      exact lookup_defineComponents after hpassed
        (length_reached_lt hs hits hnil' hcoh) n }

theorem exists_typing (hcoh : s.Coherent)
    (hempty : ∀ scope n, find? (s.scopes.bindings scope) n = none)
    (hnil : ((registerProgram p.items).run s).2.findings = []) {c : Option String} {ds : List Decl}
    (hbody : p.Body c ds) : ∃ u, Typing ((registerProgram p.items).run s).2 c ds u := by
  cases hbody with
  | top => exact ⟨s, typing_top hs hcoh hempty hnil⟩
  | component hmem =>
    obtain ⟨before, after, hits⟩ := append_of_mem hmem
    exact ⟨_, typing_component hs hcoh hnil hits⟩

end Program

end Session

end Provision
