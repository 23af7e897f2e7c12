import Provision.Proofs.Checker
import Provision.Proofs.Session.Blind
import Provision.Proofs.Session.Deferred

/-!
# Decorations of an accepted program

In an accepted program every decoration passes all checks of its decorator that need no value: it is
one of a registered decorator, has the right shape, and stands on a declaration of the right kind
and type. The checks that wait for values are exactly those of deferred decorators, in the order of
the declarations (`Checker.decorations_accepted`).
-/

namespace Provision

open List Session

/-- The checks that the decorations of a program leave for later: those of each declaration of the
top level, and then those of the members of its body. -/
def Program.deferrals (registry : Registry) (p : Program) : List DeferredCheck :=
  p.items.flatMap fun d =>
    d.deferrals registry none ++ d.members.flatMap (·.deferrals registry (some d.name.text))

namespace Checker

variable {k : Checker} {p : Program} {c : CheckedProgram} {comp : Option String} {d : Decl}
  {s : Session}

/-! ### Arrivals -/

theorem Arrives.body (h : k.Arrives p comp d s) : ∃ ds, p.Body comp ds ∧ d ∈ ds := by
  cases h with
  | top h => exact ⟨p.items, .top, h ▸ mem_append_right _ mem_cons_self⟩
  | @member _ _ body _ _ _ _ _ _ h hinfo hbody =>
    refine ⟨body, ?_, hbody ▸ mem_append_right _ mem_cons_self⟩
    cases h with
    | top h => exact .component (h ▸ mem_append_right _ mem_cons_self)

/-- What is bound after registration is still bound when the check comes to a declaration, a schema
with its properties. -/
theorem Arrives.bound (h : k.Arrives p comp d s) {scope : ScopeId} {n : String} {type : Ty}
    (hty : Table.find? ((k.registered p).scopes.bindings scope) n = some type) :
    ∃ type', Table.find? (s.scopes.bindings scope) n = some type' ∧
      type'.properties? = type.properties? := by
  induction h with
  | @top before _ _ _ =>
    obtain ⟨type', hty', hprops, -⟩ :=
      (traversed_retains.checkDecls before (k.registered p)).bound hty
    exact ⟨type', hty', hprops⟩
  | @member decs name _ _ s info before _ _ _ _ _ ih =>
    obtain ⟨type₁, hty₁, hprops₁⟩ := ih
    obtain ⟨type₂, hty₂, hprops₂, -⟩ := (traversed_retains.runDecorators (k := k)
      decs ⟨.component, name.text, true⟩ (s.boundType name) none s).bound hty₁
    obtain ⟨type₃, hty₃, hprops₃, -⟩ := (traversed_retains.checkDecls before
      (s.atStart k decs name info.scope)).bound hty₂
    exact ⟨type₃, hty₃, (hprops₃.trans hprops₂).trans hprops₁⟩

namespace Accepted

variable (h : Accepted k p c)
include h

theorem findings_of_arrives (ha : k.Arrives p comp d s) :
    ((checkDecl k d).run s).2.findings = [] :=
  (h.underway.arrived ha).lasts.findings (h.links.findings_eq_nil h.findings)

theorem filled (ha : k.Arrives p comp d s) {schema : SchemaDecl} (hd : d = .schema schema) :
    s.Filled s.body schema := by
  have harr := h.underway.arrived ha
  obtain ⟨ds, hbody, hmem⟩ := ha.body
  have hnil : (k.registered p).findings = [] :=
    h.checks.findings_eq_nil (h.links.findings_eq_nil h.findings)
  obtain ⟨scope, hb, hfill⟩ := filled_registerProgram (atTop k p).1 hnil hbody
  obtain rfl : scope = s.body :=
    harr.unique (harr.bodies hb) (harr.component_eq ▸ harr.bodyAt)
  have hsch := hfill schema (hd ▸ hmem)
  obtain ⟨type, types, hty, htys, hall⟩ := hsch.bound
  obtain ⟨type', hty', hprops⟩ := ha.bound hty
  exact ⟨contains_iff_mem.mpr (harr.registered
    (contains_iff_mem.mp hsch.isRegistered)), type', types, hty',
    hprops.trans htys, hall⟩

theorem decorated (ha : k.Arrives p comp d s) (hflat : d.isComponent = false) :
    Decorated k comp s d ((checkDecl k d).run s).2 := by
  have harr := h.underway.arrived ha
  obtain ⟨ds, hbody, hmem⟩ := ha.body
  have hdecorated := decorated_checkDecl harr.toWorking harr.awaits hflat
    (harr.halted.trans h.halted) (h.shaped hbody d hmem) (fun schema hd => h.filled ha hd)
    (h.findings_of_arrives ha)
  rwa [harr.component_eq] at hdecorated

section Component

variable {decs : List Decoration} {name : Ident} {body : List Decl} {span : Span}
  {info : ComponentInfo}

/-- The decorations of a component are looked at before its members are. -/
theorem decorated_component (ha : k.Arrives p none (.component decs name body span) s)
    (hinfo : Table.find? s.components name.text = some info) :
    Decorated k none s (.component decs name body span)
      (s.atStart k decs name info.scope) := by
  have harr := h.underway.arrived ha
  obtain ⟨ds, hbody, hmem⟩ := ha.body
  cases hbody with
  | top =>
    have hgl : s.scopes.current = ScopeId.global :=
      harr.atBody.trans (harr.eq_global (harr.component_eq ▸ harr.bodyAt))
    -- the component was bound by its definition
    have hsome := harr.scopes.isSome_find? (h.prepared.isDefined hmem).2
    rw [← hgl] at hsome
    obtain ⟨type, hty⟩ := Option.isSome_iff_exists.mp hsome
    have hreg : s.isRegistered name := contains_iff_mem.mpr
      (harr.registered (contains_iff_mem.mp (h.prepared.isDefined hmem).1))
    have hfs := h.findings_of_arrives ha
    rw [run_checkDecl_component hreg hinfo] at hfs
    have hnm : ∀ n, s.qualified n = qualifiedName none n := by
      intro n
      rw [harr.toWorking.qualified, harr.component_eq]
    have hget : s.scopes.get? name.text = some (s.boundType name) := by
      rw [boundType_eq hty]
      exact hty
    exact decorated_of_quiet rfl rfl (.of_eq rfl rfl rfl) hget
      (harr.halted.trans h.halted) (h.shaped .top _ hmem) hnm (.of_eq rfl rfl rfl)
      ((notes_checkDecls body _).findings_eq_nil hfs)

end Component

theorem fits (ha : k.Arrives p comp d s) : ∀ place ∈ d.places, ∃ type,
    s.HasType k d place type ∧ ∀ a ∈ place.decorations, place.Fits k.registry type a := by
  cases hflat : d.isComponent with
  | false => exact (h.decorated ha hflat).fits
  | true =>
    have harr := h.underway.arrived ha
    cases d with
    | component decs name body span =>
      cases comp with
      | none =>
        cases ha with
        | top hits =>
          obtain ⟨hbef, -⟩ := h.underway.atItem hits
          obtain ⟨-, info, hinfo, -⟩ := (h.underway.advances hbef).member
            (hits ▸ mem_append_right _ mem_cons_self)
          exact (h.decorated_component (.top hits) hinfo).fits
      | some outer => exact absurd (harr.flat (Option.some_ne_none outer)) (by simp [hflat])
    | _ => cases hflat

theorem decorations_alias {d : AliasDecl} (ha : k.Arrives p comp (.alias d) s) :
    d.decorations = [] := by
  have hfs := h.findings_of_arrives ha
  rw [checkDecl] at hfs
  exact decorations_of_checkAlias ((h.underway.arrived ha).halted.trans h.halted) hfs

/-! ### Checks that wait -/

/-- Members leave checks for later in the order of their declarations. -/
theorem deferred_members {decs : List Decoration} {name : Ident} {body : List Decl}
    {span : Span} {info : ComponentInfo}
    (ha : k.Arrives p none (.component decs name body span) s)
    (hinfo : Table.find? s.components name.text = some info) {before after : List Decl}
    (hbody : body = before ++ after) :
    ((checkDecls k before).run (s.atStart k decs name info.scope)).2.deferred =
      (s.atStart k decs name info.scope).deferred ++
        before.flatMap (·.deferrals k.registry (some name.text)) := by
  -- the induction is on what was checked already, so that every step is an arrival
  induction before using reverseRecOn generalizing after with
  | nil =>
    rw [checkDecls, run_pure]
    exact (append_nil _).symm
  | append_singleton before d ih =>
    have hsplit : body = before ++ d :: after := by rw [hbody, append_assoc]; rfl
    have hmb := Arrives.member ha hinfo hsplit
    have hflat := (h.underway.arrived hmb).flat (Option.some_ne_none _)
    rw [run_checkDecls_append, run_checkDecls_cons, checkDecls,
      run_pure, (h.decorated hmb hflat).deferred, ih hsplit, flatMap_append,
      flatMap_singleton, append_assoc]

theorem deferred_component {decs : List Decoration} {name : Ident} {body : List Decl}
    {span : Span} (ha : k.Arrives p none (.component decs name body span) s) :
    ((checkDecl k (.component decs name body span)).run s).2.deferred =
      s.deferred ++ (Decl.deferrals k.registry none (.component decs name body span) ++
        body.flatMap (·.deferrals k.registry (some name.text))) := by
  cases ha with
  | top hits =>
    obtain ⟨hbef, -⟩ := h.underway.atItem hits
    obtain ⟨hreg, info, hinfo, -⟩ := (h.underway.advances hbef).member
      (hits ▸ mem_append_right _ mem_cons_self)
    have hmems := h.deferred_members (.top hits) hinfo (append_nil body).symm
    have hown := (h.decorated_component (.top hits) hinfo).deferred
    rw [run_checkDecl_component hreg hinfo]
    show ((checkDecls k body).run _).2.deferred = _
    rw [hmems, hown, append_assoc]

/-- So do the declarations of the top level, components with their members. -/
theorem deferred_items {before after : List Decl} (hits : p.items = before ++ after) :
    ((checkDecls k before).run (k.registered p)).2.deferred =
      (k.registered p).deferred ++ before.flatMap fun d => d.deferrals k.registry none ++
        d.members.flatMap (·.deferrals k.registry (some d.name.text)) := by
  induction before using reverseRecOn generalizing after with
  | nil =>
    rw [checkDecls, run_pure]
    exact (append_nil _).symm
  | append_singleton before d ih =>
    have hsplit : p.items = before ++ d :: after := by rw [hits, append_assoc]; rfl
    have harr : k.Arrives p none d _ := .top hsplit
    have hone : ((checkDecl k d).run
        ((checkDecls k before).run (k.registered p)).2).2.deferred =
        ((checkDecls k before).run (k.registered p)).2.deferred ++
          (d.deferrals k.registry none ++
            d.members.flatMap (·.deferrals k.registry (some d.name.text))) := by
      cases hflat : d.isComponent with
      | false =>
        have hmems : d.members = [] := by cases d <;> first | rfl | cases hflat
        rw [(h.decorated harr hflat).deferred, hmems, flatMap_nil, append_nil]
      | true =>
        cases d with
        | component decs name body span => exact h.deferred_component harr
        | _ => cases hflat
    rw [run_checkDecls_append, run_checkDecls_cons, checkDecls,
      run_pure, hone, ih hsplit, flatMap_append, flatMap_singleton,
      append_assoc]

end Accepted

theorem deferred_registered (k : Checker) (p : Program) : (k.registered p).deferred = [] := by
  rw [registered, shifted_walkShapes, blind_registerProgram]
  rfl

theorem deferred_of_check (h : k.check p = .ok c) : c.deferred = p.deferrals k.registry := by
  have haccepted := accepted_of_check h
  have hchecked : (k.checked p).deferred = p.deferrals k.registry := by
    have hits := haccepted.deferred_items (append_nil p.items).symm
    rwa [deferred_registered, nil_append] at hits
  obtain ⟨-, rfl⟩ := conclude_of_check h
  show ((k.visit p).run {}).2.deferred = _
  rw [run_visit, (quiet_orderBodies {} (k.linked p).bodies (k.linked p)).deferred, linked,
    (quiet_linkComponents (k.checked p)).deferred, hchecked]

/-- Whatever decorators there are, in an accepted program the check comes to every declaration of
every body, and then every decoration of it fits its place: its decorator is registered and takes
its arguments, the kind of the declaration and the type that is bound there. Type aliases have no
decorations, and there are no components inside components. The checks that wait for values are
those that the decorations leave, each once and in order. -/
theorem decorations_accepted (h : k.check p = .ok c) :
    (∀ {comp ds}, p.Body comp ds → ∀ d ∈ ds,
      (∃ s, k.Arrives p comp d s) ∧
      (∀ s, k.Arrives p comp d s → ∀ place ∈ d.places, ∃ type, s.HasType k d place type ∧
        ∀ a ∈ place.decorations, place.Fits k.registry type a) ∧
      (∀ decl, d = .alias decl → decl.decorations = []) ∧
      (comp ≠ none → d.isComponent = false)) ∧
    c.deferred = p.deferrals k.registry := by
  have haccepted := accepted_of_check h
  refine ⟨fun {comp ds} hbody d hd => ?_, deferred_of_check h⟩
  obtain ⟨s, hs⟩ := haccepted.underway.exists_arrives hbody hd
  refine ⟨⟨s, hs⟩, fun t ht => haccepted.fits ht, ?_, (haccepted.underway.arrived hs).flat⟩
  rintro decl rfl
  exact haccepted.decorations_alias hs

/-- Decorations on a property, on a function without a result type, on an output, and in a component
on inputs and on a variable without a type. -/
def decoratedEverywhere : String :=
  "schema S \x7b @description('name') string p = 'ab' \x7d
   @description('same') fun f(number n) \x7b n \x7d
   @maxValue(9) output number o = f(7)
   component C \x7b
     @minValue(1) @sensitive input number n = 3
     @nonEmpty input string v
     @description('sum') var w = n + 1
   \x7d
   @count(2) resource S r \x7b p = 'cd' \x7d"

instance : Program.Spelled decoratedEverywhere := set_option maxRecDepth 2000 in ⟨_, rfl⟩

theorem decorations_accepted_decoratedEverywhere :
    ∃ p c, Program.parse decoratedEverywhere = .ok p ∧ builtin.check p = .ok c ∧
      (∃ d ∈ p.items, ∃ s, builtin.Arrives p none d s ∧ ∃ place ∈ d.places,
        place.site = ⟨.function, "f", false⟩ ∧ ∃ type, s.HasType builtin d place type ∧
          ∃ a ∈ place.decorations, a.name.text = "description" ∧
            place.Fits builtin.registry type a) ∧
      c.deferred = p.deferrals builtin.registry ∧
      c.deferred.map (fun check => (check.decorator.name, check.target, check.default.isSome)) =
        [("maxValue", "o", false), ("minValue", "C.n", true), ("nonEmpty", "C.v", false)] := by
  have hrun : ((Program.parse decoratedEverywhere).toOption.any fun p =>
      (builtin.check p).toOption.any fun c => decide (
        (∃ d ∈ p.items, ∃ place ∈ d.places, place.site = ⟨.function, "f", false⟩ ∧
          ∃ a ∈ place.decorations, a.name.text = "description") ∧
        (p.deferrals builtin.registry).map
            (fun check => (check.decorator.name, check.target, check.default.isSome)) =
          [("maxValue", "o", false), ("minValue", "C.n", true), ("nonEmpty", "C.v", false)])) =
      true := by
    decide +kernel
  obtain ⟨p, c, hprs, hc, hfacts⟩ := exists_of_run hrun
  obtain ⟨⟨d, hd, place, hpl, hsite, a, ha, hnm⟩, hnms⟩ := of_decide_eq_true hfacts
  obtain ⟨hplaces, hdef⟩ := decorations_accepted hc
  obtain ⟨⟨s, hs⟩, hfits, -⟩ := hplaces .top d hd
  obtain ⟨type, hty, hall⟩ := hfits s hs place hpl
  refine ⟨p, c, hprs, hc, ?_, hdef, by rw [hdef, hnms]⟩
  exact ⟨d, hd, s, hs, place, hpl, hsite, type, hty, a, ha, hnm, hall a ha⟩

end Checker

end Provision
