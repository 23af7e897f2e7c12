import Provision.Proofs.Session.Origins
import Provision.Proofs.Session.Visibility

/-!
# Resources and their schemas

The schema of a resource is looked up twice. When the resource is registered, the type that its
schema name is bound to gives the fields that may be initialised
(`Checker.Accepted.exists_resource`); when it is checked, the declaration that is noted under that
name says which of them must be (`Checker.Accepted.resource_checked`). The two agree where the name
means the schema itself both times. An alias of a schema is another matter: it is bound before the
schema has its properties, so a resource gets none of them through it
(`Checker.resource_of_check`).
-/

namespace Provision

open List Table

variable {d : ResourceDecl} {properties : Table Ty}

/-- The name that an alias stands for, if that is all. -/
def AliasDecl.target? (a : AliasDecl) : Option Ident :=
  match a.type with
  | .named name => some name
  | _ => none

theorem AliasDecl.type_of_target? {a : AliasDecl} {name : Ident} (h : a.target? = some name) :
    a.type = .named name := by
  unfold target? at h
  split at h
  · next heq => rw [heq, Option.some.inj h]
  · cases h

namespace Session

variable {k : Checker} {p : Program} {s t : Session}

/-! ### Initialisers -/

/-- Where a session stands, an expression has a type that is assignable to the expected one. -/
def Suits (k : Checker) (s : Session) (e : Expr) (expected : Ty) : Prop :=
  ∃ found, ((infer k e (some expected)).run.run s).1 = .ok found ∧
    found.assignable expected = true

theorem Suits.shallower {e : Expr} {expected : Ty} (h : Suits k s e expected)
    (hst : Shallower s t) : Suits k t e expected := by
  obtain ⟨found, hfound, hasg⟩ := h
  exact ⟨found, repeatable_infer e _ hst hfound, hasg⟩

theorem suits_of_checkValue {subject : Subject} {e : Expr} {expected : Ty}
    (hnil : ((checkValue k subject expected e).run s).2.findings = []) : Suits k s e expected := by
  have hfnd : ∀ (u : Session) d, ((report d).run u).2.findings ≠ [] := fun _ _ =>
    concat_ne_nil _ _
  rw [run_checkValue] at hnil
  split at hnil
  · next found hfound =>
    split at hnil
    · next hasg => exact ⟨found, hfound, hasg⟩
    · exact absurd hnil (hfnd _ _)
  · exact absurd hnil (hfnd _ _)

section Inits

variable {holder : Holder} {span : Span} {fields : Table Ty} {inits : List Init}

/-- Without findings every initialiser has a name of its own, which is that of a field, and a value
that suits the field. -/
theorem checkFields_spec {seen : List String}
    (hnil : ((checkFields k holder fields seen inits).run s).2.findings = []) :
    (∀ i ∈ inits, i.name.text ∉ seen ∧
      ∃ type, find? fields i.name.text = some type ∧ Suits k s i.value type) ∧
      (inits.map (·.name.text)).Nodup := by
  induction inits generalizing s seen with
  | nil => exact ⟨forall_mem_nil _, nodup_nil⟩
  | cons i inits ih =>
    -- a finding would still be there in the end
    have hrep : ∀ f (m : Checking Unit), Moves Notes m →
        ((report f >>= fun _ => m).run s).2.findings ≠ [] := by
      intro f m hm hrest
      have hone := (hm ((report f).run s).2).findings_eq_nil hrest
      exact absurd hone (concat_ne_nil _ _)
    have hflds : ∀ seen, Moves Notes (checkFields k holder fields seen inits) := fun seen =>
      traversed_notes.checkFields holder fields seen inits
    rw [checkFields] at hnil
    split at hnil
    · exact absurd hnil (hrep _ _ (hflds _))
    · next hnew =>
      have hnew : i.name.text ∉ seen := fun hmem => hnew (contains_iff_mem.mpr hmem)
      split at hnil
      · next type hfind =>
        rw [run_bind] at hnil
        obtain ⟨hall, hnd⟩ := ih hnil
        have hsuits := suits_of_checkValue ((hflds _ _).findings_eq_nil hnil)
        have hstd := respected_steady.checkValue (k := k) (holder.subject i.name.text) type
          i.value s
        refine ⟨forall_mem_cons.mpr ⟨⟨hnew, type, hfind, hsuits⟩, fun j hj => ?_⟩, ?_⟩
        · obtain ⟨hseen, type', hfind', hsuits'⟩ := hall j hj
          exact ⟨fun hmem => hseen (mem_cons_of_mem _ hmem), type', hfind',
            hsuits'.shallower hstd.shallower⟩
        · refine nodup_cons.mpr ⟨fun hmem => ?_, hnd⟩
          obtain ⟨j, hj, heq⟩ := mem_map.mp hmem
          exact (hall j hj).1 (heq ▸ mem_cons_self)
      · exact absurd hnil (hrep _ _ (Moves.bind (traversed_notes.infer i.value none)
          fun _ => hflds _))

theorem checkRequired_spec {given required : List String}
    (hnil : ((checkRequired holder span given required).run s).2.findings = []) :
    ∀ n ∈ required, n ∈ given := by
  induction required generalizing s with
  | nil => exact forall_mem_nil _
  | cons n required ih =>
    rw [checkRequired] at hnil
    split at hnil
    · next hgiven => exact forall_mem_cons.mpr ⟨contains_iff_mem.mp hgiven, ih hnil⟩
    · have hrest : Moves Notes (checkRequired holder span given required) :=
        (traversed_notes (k := Checker.builtin)).checkRequired holder span given required
      have hone := (hrest _).findings_eq_nil hnil
      exact absurd hone (concat_ne_nil _ _)

theorem checkInits_spec {x : String} {required : List String}
    (hnil : ((checkInits k x holder span fields required inits).run s).2.findings = []) :
    (inits.map (·.name.text)).Nodup ∧
      (∀ i ∈ inits, ∃ type, find? fields i.name.text = some type ∧ Suits k s i.value type) ∧
      ∀ n ∈ required, n ∈ inits.map (·.name.text) := by
  have hreq : Moves Notes (checkRequired holder span (inits.map (·.name.text)) required) :=
    (traversed_notes (k := k)).checkRequired holder span _ required
  obtain ⟨hall, hnd⟩ := checkFields_spec ((hreq _).findings_eq_nil hnil)
  refine ⟨hnd, fun i hi => ?_, checkRequired_spec hnil⟩
  obtain ⟨-, type, hfind, hsuits⟩ := hall i hi
  exact ⟨type, hfind, hsuits.shallower ⟨rfl, rfl, le_rfl⟩⟩

end Inits

/-- Without findings the initialisers of a resource have different names, all of them those of its
properties, and the required ones of the schema that its schema name means are among them. -/
theorem checkResource_spec {name schema : String}
    (hty : s.boundType d.name = .resource name schema properties)
    (hnil : ((checkResource k d).run s).2.findings = []) :
    (d.body.map (·.name.text)).Nodup ∧
      (∀ i ∈ d.body, (find? properties i.name.text).isSome) ∧
      ∀ S, s.schemaDecl? d.schema.text = some S → ∀ q ∈ S.properties, q.default = none →
        q.name.text ∈ d.body.map (·.name.text) := by
  unfold checkResource at hnil
  rw [run_get_bind] at hnil
  rw [hty, run_bind] at hnil
  rw [run_get_bind] at hnil
  obtain ⟨hnd, hflds, hreq⟩ := checkInits_spec hnil
  refine ⟨hnd, fun i hi => ?_, fun S hS q hq hdefault => hreq _ ?_⟩
  · obtain ⟨type, hfind, -⟩ := hflds i hi
    exact hfind ▸ rfl
  -- decorators change neither what a name means nor what is noted of schemas
  set t := ((checkInstanceDecorators k d.decorations .resource d.name.text
    (.resource name schema properties)).run s).2
  have hscs : t.scopes = s.scopes := (steady_checkInstanceDecorators s).scopes
  have hschs : SameSchemas s t :=
    traversed_sameSchemas.checkInstanceDecorators traversed_sameSchemas.toRespected _ _ _ _ s
  have hsame : t.schemaDecl? d.schema.text = some S := by
    rw [← hS, schemaDecl?, hscs, hschs, schemaDecl?]
  rw [hsame, Option.map_some, Option.getD_some]
  exact mem_map.mpr ⟨q, mem_filter.mpr ⟨hq, by rw [hdefault]; rfl⟩, rfl⟩

/-! ### Registration -/

/-- The session with a resource bound, which its schema gets to know. -/
def withResource (s : Session) (d : ResourceDecl) (schema : String) (properties : Table Ty) :
    Session :=
  let type : Ty := .resource d.name.text schema properties
  { s with
    scopes := (s.scopes.set d.name.text type).modify d.schema.text (addResource d.name.text type) }

theorem find?_withResource {schema : String} (hlt : s.scopes.current < s.scopes.all.length) :
    find? ((s.withResource d schema properties).scopes.bindings s.scopes.current)
      d.name.text = some (.resource d.name.text schema properties) := by
  have hset : find? ((s.scopes.set d.name.text
      (.resource d.name.text schema properties)).bindings s.scopes.current) d.name.text =
        some (.resource d.name.text schema properties) :=
    Scopes.find?_bindings_set.trans (if_pos ⟨rfl, hlt, rfl⟩)
  refine Scopes.find?_bindings_modify.trans ?_
  rw [hset]
  split <;> rfl

/-- Without findings the schema name of a resource means a schema, whose properties the resource
gets. -/
theorem run_registerResource (hnil : ((registerResource d).run s).2.findings = []) :
    ∃ scope schema properties resources,
      s.scopes.resolve d.schema.text = .ok (scope, .schema schema properties resources) ∧
      find? (s.scopes.bindings s.scopes.current) d.name.text = none ∧
      ((registerResource d).run s).2 = ((addInstance d.name (.resource schema) d.span).run
        (s.withResource d schema properties)).2 := by
  have hfnd : ∀ f : Diagnostic, s.findings ++ [f] ≠ [] := fun f =>
    concat_ne_nil _ _
  unfold registerResource at hnil ⊢
  rw [run_get_bind] at hnil ⊢
  cases hlk : s.scopes.lookup d.schema.text with
  | error e =>
    rw [hlk] at hnil
    exact absurd hnil (hfnd _)
  | ok type =>
    rw [hlk] at hnil
    cases type with
    | schema schema properties resources =>
      obtain ⟨scope, hres⟩ := Scopes.exists_of_lookup hlk
      rw [run_bind] at hnil ⊢
      rcases run_declare s d.name (.resource d.name.text schema properties) with
        ⟨hunb, hrun⟩ | ⟨f, hrun⟩
      · rw [hrun]
        exact ⟨scope, schema, properties, resources, hres, hunb, rfl⟩
      · rw [hrun] at hnil
        exact absurd hnil (hfnd _)
    | _ => exact absurd hnil (hfnd _)

theorem enlist_resource (hlt : s.scopes.current < s.scopes.all.length)
    (hnil : (s.enlist (.resource d)).findings = []) :
    ∃ scope schema properties resources,
      s.scopes.resolve d.schema.text = .ok (scope, .schema schema properties resources) ∧
      find? ((s.enlist (.resource d)).scopes.bindings s.scopes.current) d.name.text =
        some (.resource d.name.text schema properties) := by
  obtain ⟨registered, heq⟩ := enlist_eq s (.resource d)
  rw [heq] at hnil ⊢
  obtain ⟨scope, schema, properties, resources, hres, -, hrun⟩ := run_registerResource hnil
  refine ⟨scope, schema, properties, resources, hres, ?_⟩
  rw [registerMember, hrun]
  exact find?_withResource hlt

end Session

/-! ### Accepted programs -/

/-- A checked program binds a schema of a body with its properties and what is written for them. -/
def CheckedProgram.Describes (c : CheckedProgram) (home : Option String) (ds : List Decl)
    (d : SchemaDecl) (types : Table Ty) : Prop :=
  ∃ scope, c.scopeOf? home = some scope ∧ c.scopes.Describes scope ds d types

open Session

namespace Checker

variable {k : Checker} {p : Program} {c : CheckedProgram} {home : Option String} {ds : List Decl}

theorem sameSchemas_linked (k : Checker) (p : Program) :
    SameSchemas (k.registered p) (k.linked p) :=
  IsTrans.trans (r := SameSchemas) _ _ _ (traversed_sameSchemas.checkDecls p.items _)
    (moves_linkComponents (fun _ _ => rfl)
      ⟨fun _ _ _ _ _ => rfl, fun _ _ _ => rfl, fun _ _ _ => rfl⟩ (k.checked p))

theorem Accepted.exists_typing (h : Accepted k p c) (hbody : p.Body home ds) {scope : ScopeId}
    (hb : (k.registered p).BodyAt scope home) :
    ∃ s, s.scopes.current = scope ∧ Typing (k.registered p) home ds s := by
  obtain ⟨hsta, -⟩ := atTop k p
  obtain ⟨hcoh, hempty⟩ := walked k p
  obtain ⟨s, hs⟩ := Session.exists_typing hsta hcoh hempty h.findings_registered hbody
  exact ⟨s, h.prepared.unique hs.atBody hb, hs⟩

theorem Accepted.describes (h : Accepted k p c) (hbody : p.Body home ds) {d : SchemaDecl}
    (hd : .schema d ∈ ds) {scope : ScopeId} (hb : (k.registered p).BodyAt scope home)
    {types resources : Table Ty}
    (hbd : find? ((k.registered p).scopes.bindings scope) d.name.text =
      some (.schema d.name.text types resources)) : c.Describes home ds d types := by
  obtain ⟨s, rfl, hs⟩ := h.exists_typing hbody hb
  obtain ⟨types', hdescribes⟩ :=
    (hs.mono (lasting_registered k p) (sameSchemas_linked k p) h.grows.bodyAt).describes hd
  -- the table lasts
  obtain ⟨type, hty, hprops, hcore⟩ := lasting_registered k p hbd
  obtain ⟨resources', rfl⟩ := Ty.eq_schema_of_core hcore hprops
  obtain ⟨resources'', hbd'⟩ := hdescribes.bound
  obtain ⟨-, rfl, -⟩ := Ty.schema.inj (Option.some.inj (hty.symm.trans hbd'))
  exact ⟨_, h.scopeOf?_iff.mpr (h.grows.bodyAt hb), h.scopes ▸ hdescribes⟩

theorem Accepted.core_boundType (h : Accepted k p c) {d : Decl} {s : Session}
    (harrives : k.Arrives p home d s) {σ : ScopeId} (hσ : (k.registered p).BodyAt σ home)
    {name : Ident} {type : Ty}
    (hbd : find? ((k.registered p).scopes.bindings σ) name.text = some type) :
    (s.boundType name).core = type.core := by
  have harr := h.underway.arrived harrives
  obtain rfl : σ = s.scopes.current := by
    rw [harr.atBody]
    refine harr.unique (harr.bodies hσ) ?_
    rw [← harr.component_eq]
    exact harr.bodyAt
  obtain ⟨type', hty', -, hcore⟩ := harrives.lasting.1 hbd
  rw [boundType, Scopes.get?, hty', Option.getD_some, hcore]

section Resource

variable {comp : Option String} {earlier later : List Decl} {d : ResourceDecl}
  (h : Accepted k p c) (hbody : p.Body comp (earlier ++ .resource d :: later))
include h hbody

/-- A resource is registered with the properties that its schema name gives it by then. -/
theorem Accepted.exists_resource : ∃ σ scope schema properties resources,
    (k.registered p).BodyAt σ comp ∧
    find? ((k.registered p).scopes.bindings σ) d.name.text =
      some (.resource d.name.text schema properties) ∧
    find? ((k.registered p).scopes.bindings scope) d.schema.text =
      some (.schema schema properties resources) ∧
    Stems p (k.registered p) comp schema properties ∧
    ∀ {home ds}, p.Body home ds → d.schema.text ∈ Decl.typeNames ds →
      Visible comp (Decl.namesAtRegistration earlier (.resource d :: later)) home
        d.schema.text → (k.registered p).BodyAt scope home := by
  obtain ⟨hsta, -⟩ := atTop k p
  obtain ⟨hcoh, hempty⟩ := walked k p
  have hnil := h.findings_registered
  obtain ⟨u, hcomes, hvisible⟩ :=
    exists_comes_visible hsta hcoh hempty hnil hbody
  have hcoming := hcomes.spec hsta hcoh hnil
  have hsees := hcomes.sees hsta hcoh hempty hnil
  obtain ⟨scope, schema, properties, resources, hres, hbd⟩ :=
    enlist_resource hcoming.current_lt hcoming.findings
  -- the resource and its schema stay bound
  obtain ⟨type, hty, -, hcore⟩ := hcoming.lasting hbd
  obtain rfl := Ty.eq_resource_of_core hcore
  have hrtn : Retains u (u.enlist (.resource d)) := retains_registerMembers [.resource d] u
  obtain ⟨type, hty', hprops, hcore'⟩ :=
    (hrtn.lasting.trans hcoming.lasting) (Scopes.mem_chain_of_resolve hres).2
  obtain ⟨resources', rfl⟩ := Ty.eq_schema_of_core hcore' hprops
  exact ⟨u.scopes.current, scope, schema, properties, resources',
    hcoming.current ▸ hcoming.atBody, hty, hty', traced_schema.mp (hsees.resolve hres),
    fun hhome hn hv => hvisible hhome hn hv hres⟩

/-- Its initialisers are checked against these properties, and against those that the schema of that
name requires if it can still be seen. -/
theorem Accepted.resource_checked {σ : ScopeId} {schema : String}
    (hσ : (k.registered p).BodyAt σ comp)
    (hrsc : find? ((k.registered p).scopes.bindings σ) d.name.text =
      some (.resource d.name.text schema properties)) :
    (d.body.map (·.name.text)).Nodup ∧
      (∀ i ∈ d.body, (find? properties i.name.text).isSome) ∧
      ∀ {home ds S}, p.Body home ds → .schema S ∈ ds → S.name.text = d.schema.text →
        Visible comp (Decl.namesAtCheck earlier (.resource d :: later)) home d.schema.text →
          ∀ q ∈ S.properties, q.default = none → q.name.text ∈ d.body.map (·.name.text) := by
  obtain ⟨s, harrives, hvisible⟩ := h.exists_arrives_visible hbody
  have harr := h.underway.arrived harrives
  obtain ⟨hlasting, hschs⟩ := harrives.lasting
  have hbd : s.boundType d.name = .resource d.name.text schema properties :=
    Ty.eq_resource_of_core (h.core_boundType harrives hσ hrsc)
  have hnil := harr.lasts.findings (h.links.findings_eq_nil h.findings)
  rw [checkDecl, run_ifRegistered d.name (harr.awaits.ready rfl).1] at hnil
  obtain ⟨hnd, hflds, hreq⟩ := checkResource_spec hbd hnil
  refine ⟨hnd, hflds, fun {home ds S} hhome hS hnm hv => hreq S ?_⟩
  -- the name is found where the schema is noted
  obtain ⟨scope, hsc, -⟩ := h.prepared.ready hhome
  obtain ⟨s₀, rfl, htyping⟩ := h.exists_typing hhome hsc
  obtain ⟨types, ⟨resources, hsch⟩, -, -⟩ := htyping.describes hS
  obtain ⟨type, hty', -⟩ := hlasting hsch
  rw [hnm] at hty'
  rw [schemaDecl?, hvisible hsc hv hty', hschs, ← hnm]
  exact htyping.lookup hS

end Resource

/-- **Resources.** In an accepted program a resource is bound to a type that names a schema `S`
declared in its own body or at the top level. It is listed as an instance of `S`, and its
initialisers have different names, all of them those of properties in its type.

The properties are those that `S` declares, with the types written for them, unless an alias is
declared next to `S`, in which case there may be none at all. Where the schema name means `S` itself
when the resource is registered, they are those that `S` declares; if it still does when the
resource is checked, each of them without a default is initialised exactly once. Where the schema
name means an alias of `S` there are none: then nothing can be initialised, whatever `S`
requires. -/
theorem resource_of_check (h : k.check p = .ok c) {comp : Option String}
    {earlier later : List Decl} {d : ResourceDecl}
    (hbody : p.Body comp (earlier ++ .resource d :: later)) :
    ∃ (bindings : Table Ty) (schema : String) (properties : Table Ty),
      c.bindingsOf? comp = some bindings ∧
      Table.find? bindings d.name.text = some (.resource d.name.text schema properties) ∧
      (p.DotFree → ∃ i, c.instance? (qualifiedName comp d.name.text) = some i ∧
        i.kind = .resource schema) ∧
      (d.body.map (·.name.text)).Nodup ∧
      (∀ i ∈ d.body, i.name.text ∈ properties.names) ∧
      (∃ home ds S types, (home = comp ∨ home = none) ∧ p.Body home ds ∧ .schema S ∈ ds ∧
        S.name.text = schema ∧ c.Describes home ds S types ∧
        (properties = types ∨ properties = [] ∧ ∃ a, .alias a ∈ ds)) ∧
      (∀ {home ds S}, p.Body home ds → .schema S ∈ ds → S.name.text = d.schema.text →
        Visible comp (Decl.namesAtRegistration earlier (.resource d :: later)) home
          d.schema.text → schema = S.name.text ∧ c.Describes home ds S properties ∧
        (Visible comp (Decl.namesAtCheck earlier (.resource d :: later)) home d.schema.text →
          ∀ q ∈ S.properties, q.default = none →
            (d.body.map (·.name.text)).count q.name.text = 1)) ∧
      ∀ {home ds a name S}, p.Body home ds → .alias a ∈ ds → a.name.text = d.schema.text →
        a.target? = some name → TypeExpr.builtIn? name.text = none → .schema S ∈ ds →
        S.name.text = name.text →
        Visible comp (Decl.namesAtRegistration earlier (.resource d :: later)) home
          d.schema.text → schema = S.name.text ∧ properties = [] := by
  have hc := accepted_of_check h
  obtain ⟨σ, scope, schema, properties, resources, hσ, hrsc, hsch, hstems, hvisible⟩ :=
    hc.exists_resource hbody
  obtain ⟨hnd, hflds, hreq⟩ := hc.resource_checked hbody hσ hrsc
  refine ⟨_, schema, properties, hc.bindingsOf?_eq hσ, ?_, fun hp => ?_, hnd, fun i hi => ?_,
    ?_, ?_, ?_⟩
  · obtain ⟨type, hty, -, hcore⟩ := lasting_registered k p hrsc
    rw [hty, Ty.eq_resource_of_core hcore]
  · have hkind : (k.registered p).scopes.kindAt σ d.name.text = some (.resource schema) := by
      rw [Scopes.kindAt, hrsc]
      rfl
    have hmem : .resource d ∈ earlier ++ .resource d :: later :=
      List.mem_append_right _ List.mem_cons_self
    exact hc.exists_instance hp ⟨_, hbody, _, hmem, rfl⟩ hσ hkind
  · exact Table.mem_names_iff.mpr (hflds i hi)
  · obtain ⟨home, ds, S, scope', types, resources', hhome, hds, hS, rfl, hb, hbd, hprops⟩ :=
      hstems
    exact ⟨home, ds, S, types, hhome, hds, hS, rfl, hc.describes hds hS hb hbd, hprops⟩
  · intro home ds S hds hS hnm hv
    have hb := hvisible hds (Decl.mem_typeNames.mpr ⟨_, hS, congrArg some hnm⟩) hv
    -- the schema is bound under its own name
    obtain ⟨s, rfl, htyping⟩ := hc.exists_typing hds hb
    obtain ⟨types, ⟨resources', hbd⟩, -, -⟩ := htyping.describes hS
    rw [← hnm] at hsch
    obtain ⟨rfl, rfl, -⟩ := Ty.schema.inj (Option.some.inj (hbd.symm.trans hsch))
    refine ⟨rfl, hc.describes hds hS hb hbd, fun hv' q hq hdefault => ?_⟩
    exact List.count_eq_one_of_mem hnd (hreq hds hS hnm hv' q hq hdefault)
  · intro home ds a name S hds ha hnm htgt hword hS hSname hv
    have hb := hvisible hds (Decl.mem_typeNames.mpr ⟨_, ha, congrArg some hnm⟩) hv
    obtain ⟨s, rfl, htyping⟩ := hc.exists_typing hds hb
    obtain ⟨resources', hbd⟩ :=
      htyping.find?_alias ha (AliasDecl.type_of_target? htgt) hword hS hSname
    rw [← hnm] at hsch
    obtain ⟨rfl, rfl, -⟩ := Ty.schema.inj (Option.some.inj (hbd.symm.trans hsch))
    exact ⟨rfl, rfl⟩

def throughAlias : String :=
  "schema S \x7b string p \x7d
   type T = S
   resource T r \x7b \x7d"

instance : Program.Spelled throughAlias := ⟨_, rfl⟩

def schemaName? : Decl → Option String
  | .resource d => some d.schema.text
  | _ => none

theorem resource_of_check_throughAlias : ∃ p c bindings S types,
    Program.parse throughAlias = .ok p ∧ builtin.check p = .ok c ∧
    c.bindingsOf? none = some bindings ∧
    Table.find? bindings "r" = some (.resource "r" "S" []) ∧
    (∃ i, c.instance? "r" = some i ∧ i.kind = .resource "S") ∧ .schema S ∈ p.items ∧
    S.name.text = "S" ∧ c.Describes none p.items S types ∧
    (S.properties.map fun q => (q.name.text, q.default.isNone)) = [("p", true)] := by
  have hrun : ((Program.parse throughAlias).toOption.any fun p =>
      (builtin.check p).toOption.any fun _ => (schemasOf p.items).head?.any fun S =>
        (aliasesOf p.items).head?.any fun a => a.target?.any fun name =>
          p.items.getLast?.any fun d => decide ((schemasOf p.items).length = 1 ∧
            S.name.text = "S" ∧
            (S.properties.map fun q => (q.name.text, q.default.isNone)) = [("p", true)] ∧
            a.name.text = "T" ∧ name.text = "S" ∧
            (TypeExpr.builtIn? name.text).isNone ∧ d.name.text = "r" ∧
            schemaName? d = some "T")) = true := by
    decide +kernel
  obtain ⟨p, c, hprs, hc, hfacts⟩ := exists_of_run hrun
  obtain ⟨S, hS, hfacts⟩ := (Option.any_eq_true _ _).mp hfacts
  obtain ⟨a, ha, hfacts⟩ := (Option.any_eq_true _ _).mp hfacts
  obtain ⟨name, hnm, hfacts⟩ := (Option.any_eq_true _ _).mp hfacts
  obtain ⟨d, hd, hfacts⟩ := (Option.any_eq_true _ _).mp hfacts
  obtain ⟨hone, hSname, hprops, haname, htgt, hword, hdname, hdschema⟩ :=
    of_decide_eq_true hfacts
  have hS : .schema S ∈ p.items := mem_schemasOf.mp (List.mem_of_mem_head? hS)
  have ha : .alias a ∈ p.items := mem_aliasesOf.mp (List.mem_of_mem_head? ha)
  have hits : p.items.dropLast ++ [d] = p.items := List.dropLast_append_getLast? d hd
  cases d with
  | resource d =>
    have hbody : p.Body none (p.items.dropLast ++ [.resource d]) := by
      rw [hits]
      exact .top
    have hdname : d.name.text = "r" := hdname
    have hdschema : d.schema.text = "T" := Option.some.inj hdschema
    obtain ⟨bindings, schema, properties, hbs, hbd, hlst, -, -, hstems, -, halias⟩ :=
      resource_of_check hc hbody
    obtain ⟨rfl, rfl⟩ := halias .top ha (haname.trans hdschema.symm) hnm
      (Option.isNone_iff_eq_none.mp hword) hS (hSname.trans htgt.symm) (Or.inl rfl)
    -- there is no other schema that it could come from
    obtain ⟨home, ds, S', types, hhome, hds, hS', -, hdescribes, -⟩ := hstems
    obtain rfl : home = none := hhome.elim id id
    cases hds
    obtain ⟨S₀, hall⟩ := List.length_eq_one_iff.mp hone
    have honly : ∀ e, .schema e ∈ p.items → e = S₀ := fun e he =>
      List.mem_singleton.mp (hall ▸ mem_schemasOf.mpr he)
    obtain rfl : S' = S := (honly S' hS').trans (honly S hS).symm
    have hlst := hlst (Program.dotFree_of_parse hprs)
    rw [hdname, hSname] at hbd hlst
    exact ⟨p, c, bindings, S', types, hprs, hc, hbs, hbd, hlst, hS, hSname,
      hdescribes, hprops⟩
  | _ => cases hdschema

end Checker

end Provision
