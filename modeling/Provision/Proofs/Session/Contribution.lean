import Provision.Proofs.Session.Arrival
import Provision.Proofs.Session.Deferred
import Provision.Proofs.Session.Omission

/-!
# What a list of decorations contributes

The decorators of a list run one after the other up to the first that finds something, so a check
that comes to the list has what they left for later until then, and one finding more than a check
without the list (`Session.Outcome`). Nothing that comes before or after depends on it
(`Session.exceeds_checkDecls`).
-/

namespace Provision

open List Decoration

variable {x : Excess}

namespace Session

variable {k : Checker} {s t : Session} {site : Site} {type : Ty} {value : Option Expr}

/-! ### The outcome of a list -/

/-- The type that the decorators of a place are given: that of the declaration, and for a property
that in the schema. -/
inductive Typed (k : Checker) (s : Session) (d : Decl) : Place → Ty → Prop
  | own {place : Place} (h : d.place? = some place) : Typed k s d place (s.ownType k d)
  | property {q : SchemaProperty} (h : q ∈ d.properties) :
      Typed k s d q.place
        ((Table.find? ((s.boundType d.name).properties?.getD []) q.name.text).getD .any)

/-- What comes of a list of decorations when the check gets to it: findings, checks that wait for
values, and whether there may be dependencies from it. -/
inductive Outcome (k : Checker) (s : Session) (d : Decl) :
    List Decoration → List Diagnostic → List DeferredCheck → Bool → Prop
  /-- Decorations on a type alias are a finding. -/
  | onAlias {a : AliasDecl} {first : Decoration} {rest : List Decoration} (hd : d = .alias a) :
      Outcome k s d (first :: rest) [.typeError (.aliasDecorated a.name.text) first.span] [] false
  /-- The first decoration that does not pass is a finding, and nothing behind it counts. -/
  | fails {place : Place} {type : Ty} {before after : List Decoration} {a : Decoration}
      {finding : Diagnostic} (hty : s.Typed k d place type)
      (hds : place.decorations = before ++ a :: after)
      (hbef : ∀ b ∈ before, ∃ refs, PassesAt k place.site type b refs)
      (ha : FailsAt k place.site type a finding) :
      Outcome k s d place.decorations [finding]
        (before.filterMap ((s.afterValue k d).deferral? k place.site place.value)) false
  /-- All decorations pass. What is found then is about references of an instance. -/
  | passes {place : Place} {type : Ty} {findings : List Diagnostic} {linked : Bool}
      (hty : s.Typed k d place type)
      (hpasses : ∀ a ∈ place.decorations, ∃ refs, PassesAt k place.site type a refs)
      (hlnk : linked = true → d.instanceName?.isSome ∧ ∃ a ∈ place.decorations, ∃ refs,
        PassesAt k place.site type a refs ∧ refs ≠ [])
      (hfs : ∀ e ∈ findings, linked = true ∧ ∃ a ∈ place.decorations, ∃ refs,
        PassesAt k place.site type a refs ∧
          ∃ r ∈ refs, s.resolveReference r = .error e) :
      Outcome k s d place.decorations findings
        (place.decorations.filterMap ((s.afterValue k d).deferral? k place.site place.value)) linked

def Excess.none (mark : Span) : Excess := ⟨mark, [], [], false, false⟩

variable {mark : Span} {l : List Decoration} {d : Decl}

theorem Exceeds.run {α : Type} {m m' : Checking α} (h : Exceeds x s t)
    (hm : Beside x Eq m m') : Exceeds x (m.run s).2 (m'.run t).2 :=
  (hm s t h).2

theorem Exceeds.add (h : Exceeds (.none mark) s t) (findings : List Diagnostic)
    (deferred : List DeferredCheck) :
    Exceeds ⟨mark, findings, deferred, false, false⟩
      { s with findings := s.findings ++ findings, deferred := s.deferred ++ deferred } t := by
  have hfs : s.findings = t.findings := inserted_nil.mp h.findings
  have hdef : s.deferred = t.deferred := inserted_nil.mp h.deferred
  refine { h with findings := ?_, deferred := ?_ }
  · rw [hfs]
    exact inserted_append _ _
  · rw [hdef]
    exact inserted_append _ _

theorem Exceeds.not_halted (h : Exceeds (.none mark) s t) (hl : mark? l = some mark) :
    s.isHalted l = false := by
  cases l with
  | nil => cases hl
  | cons first rest =>
    have hfst : first.span = mark := Option.some.inj hl
    rw [Session.isHalted, hfst]
    exact Bool.eq_false_iff.mpr fun hmem =>
      Bool.false_ne_true (h.stopped.mp (contains_iff_mem.mp hmem))

/-- Decorators run up to the first that fails, or all of them pass. -/
theorem Exceeds.runDecorators (h : Exceeds (.none mark) s t) (hl : mark? l = some mark)
    (hsh : shapeFinding? k l = none) (site : Site) (type : Ty) (value : Option Expr) :
    (∃ before a after finding, l = before ++ a :: after ∧
      (∀ b ∈ before, ∃ refs, PassesAt k site type b refs) ∧ FailsAt k site type a finding ∧
      ((runDecorators k l site type value).run s).1 = [] ∧
      Exceeds ⟨mark, [finding], before.filterMap (s.deferral? k site value), false, false⟩
        ((runDecorators k l site type value).run s).2 t) ∨
    ((∀ a ∈ l, ∃ refs, PassesAt k site type a refs) ∧
      (∀ r ∈ ((runDecorators k l site type value).run s).1,
        ∃ a ∈ l, ∃ refs, PassesAt k site type a refs ∧ r ∈ refs) ∧
      Exceeds ⟨mark, [], l.filterMap (s.deferral? k site value), false, false⟩
        ((runDecorators k l site type value).run s).2 t) := by
  have hrun : (Session.runDecorators k l site type value).run s =
      (runDecorations k site type value [] l).run s := by
    unfold Session.runDecorators
    rw [run_get_bind]
    rw [h.not_halted hl]
    rfl
  rw [hrun]
  rcases run_runDecorations site type value (shaped_of_shapeFinding? hsh).known s [] with
    ⟨before, a, after, finding, hds, hbef, ha, hrun⟩ | ⟨more, hall, hmore, hrun⟩
  · rw [hrun]
    exact Or.inl ⟨before, a, after, finding, hds, hbef, ha, rfl, h.add _ _⟩
  · rw [hrun]
    refine Or.inr ⟨fun a ha => (hall a ha).imp fun _ h => h.1, hmore, ?_⟩
    have hadd := h.add [] (l.filterMap (s.deferral? k site value))
    rw [append_nil] at hadd
    exact hadd

theorem Exceeds.outcome (h : Exceeds (.none mark) s t) (place : Place)
    (hl : mark? place.decorations = some mark)
    (hsh : shapeFinding? k place.decorations = none) {u : Session}
    (hty : u.Typed k d place type) (hscs : s.scopes = (u.afterValue k d).scopes) :
    ∃ findings deferred, Outcome k u d place.decorations findings deferred false ∧
      Exceeds ⟨mark, findings, deferred, false, false⟩
        ((Session.runDecorators k place.decorations place.site type place.value).run s).2 t := by
  have hdeferral : s.deferral? k place.site place.value =
      (u.afterValue k d).deferral? k place.site place.value := by
    funext a
    rw [deferral?, Session.qualified, hscs]
    rfl
  rcases h.runDecorators hl hsh place.site type place.value with
    ⟨before, a, after, finding, hds, hbef, ha, -, hexc⟩ | ⟨hall, -, hexc⟩
  · rw [hdeferral] at hexc
    exact ⟨_, _, .fails hty hds hbef ha, hexc⟩
  · rw [hdeferral] at hexc
    exact ⟨_, _, .passes hty hall (fun hlnk => by cases hlnk) (forall_mem_nil _),
      hexc⟩

/-! ### References -/

theorem faces_depend (dependent : String) (scope : ScopeId) (target : String) (kind : EdgeKind) :
    ((depend dependent scope target kind).run s).2.components.map (fun c => (c.1, c.2.face)) =
      s.components.map fun c => (c.1, c.2.face) := by
  have hext : ((noteExternal scope target).run s).2.components.map (fun c => (c.1, c.2.face)) =
      s.components.map fun c => (c.1, c.2.face) := by
    unfold noteExternal
    split
    · rw [run_get_bind]
      split
      · exact Table.map_modify_of_eq (g := ComponentInfo.face)
          (f := fun c => { c with externals := addOnce c.externals target }) s.components _
          fun _ => rfl
      · rfl
    · rfl
  unfold depend
  rw [run_get_bind]
  split
  · rfl
  · exact hext

theorem Exceeds.depend (h : Exceeds x s t) (dependent : String) (scope : ScopeId) (target : String)
    (kind : EdgeKind) :
    Exceeds { x with linked := true } ((depend dependent scope target kind).run s).2 t := by
  have hfaces := faces_depend (s := s) dependent scope target kind
  obtain ⟨components, bodies, instances, hrun⟩ := books_depend dependent scope target kind s
  rw [hrun] at hfaces ⊢
  exact { h with
    components := hfaces.trans h.components
    bodies := fun hx => by cases hx
    instances := fun hx => by cases hx
    externals := fun hx => by cases hx }

/-- References are followed one by one, and one that fails is a finding more. -/
theorem Exceeds.linkAll (h : Exceeds x s t) (hlast : s.findings = t.findings ++ x.findings)
    (dependent : String) (refs : List Reference) :
    ∃ more, (∀ e ∈ more, ∃ r ∈ refs, s.resolveReference r = .error e) ∧
      Exceeds { x with findings := x.findings ++ more, linked := true }
        ((linkAll dependent refs).run s).2 t := by
  induction refs generalizing s x with
  | nil =>
    refine ⟨[], forall_mem_nil _, ?_⟩
    rw [append_nil]
    exact { h with
      bodies := fun hx => by cases hx
      instances := fun hx => by cases hx
      externals := fun hx => by cases hx }
  | cons r refs ih =>
    rw [run_linkAll_cons]
    cases hr : s.resolveReference r with
    | ok found =>
      obtain ⟨scope, target⟩ := found
      have hbooks := books_depend dependent scope target .explicit s
      obtain ⟨components, bodies, instances, hrun⟩ := hbooks
      have hdep := h.depend dependent scope target .explicit
      rw [hrun] at hdep
      dsimp only
      rw [hrun]
      obtain ⟨more, hmore, hexc⟩ := ih hdep hlast
      refine ⟨more, fun e he => ?_, hexc⟩
      obtain ⟨r', hr', he'⟩ := hmore e he
      exact ⟨r', mem_cons_of_mem r hr', he'⟩
    | error finding =>
      have hrep : Exceeds { x with findings := x.findings ++ [finding] }
          ((report finding).run s).2 t := by
        refine { h with findings := ?_ }
        show Inserted (x.findings ++ [finding]) t.findings (s.findings ++ [finding])
        rw [hlast, append_assoc]
        exact inserted_append _ _
      have hlast' :
          ((report finding).run s).2.findings = t.findings ++ (x.findings ++ [finding]) := by
        show s.findings ++ [finding] = _
        rw [hlast, append_assoc]
      obtain ⟨more, hmore, hexc⟩ := ih hrep hlast'
      refine ⟨finding :: more, forall_mem_cons.mpr ⟨⟨r, mem_cons_self, hr⟩, ?_⟩, ?_⟩
      · intro e he
        obtain ⟨r', hr', he'⟩ := hmore e he
        exact ⟨r', mem_cons_of_mem r hr', he'⟩
      · dsimp only at hexc ⊢
        rw [append_assoc] at hexc
        exact hexc

/-- What comes of the list of an instance, its references included. -/
theorem Exceeds.instanceOutcome {place : Place} (h : Exceeds (.none mark) s t)
    (hpl : d.place? = some place) (hinst : d.instanceName?.isSome)
    (hl : mark? place.decorations = some mark)
    (hsh : shapeFinding? k place.decorations = Option.none) :
    ∃ findings deferred linked, Outcome k s d place.decorations findings deferred linked ∧
      Exceeds ⟨mark, findings, deferred, linked, false⟩
        ((checkInstanceDecorators k place.decorations place.site.target place.site.name
          (s.ownType k d)).run s).2
        ((checkInstanceDecorators k [] place.site.target place.site.name (s.ownType k d)).run
          t).2 := by
  obtain ⟨hsession, hsite, hval⟩ : s.afterValue k d = s ∧
      place.site = ⟨place.site.target, place.site.name, false⟩ ∧ place.value = Option.none := by
    cases d with
    | resource d | inst d =>
      cases hpl
      exact ⟨rfl, rfl, rfl⟩
    | _ => cases hinst
  have hty : s.Typed k d place (s.ownType k d) := .own hpl
  have hrec : ∀ {x : Excess} {u : Session}, Exceeds x u t → Exceeds x
      ((recordDecorations (s.qualified place.site.name) place.decorations).run u).2
      ((recordDecorations (t.qualified place.site.name) []).run t).2 := by
    intro x u hu
    rw [h.qualified]
    exact hu.run (beside_recordDecorations _ _ _)
  have hright : ((checkInstanceDecorators k [] place.site.target place.site.name
      (s.ownType k d)).run t).2 =
        ((recordDecorations (t.qualified place.site.name) []).run t).2 := rfl
  rw [run_checkInstanceDecorators, hright, ← hsite]
  rcases h.runDecorators hl hsh place.site (s.ownType k d) place.value with
    ⟨before, a, after, finding, hds, hbef, ha, hrefs, hexc⟩ | ⟨hall, hrefs, hexc⟩
  · have hout := Outcome.fails hty hds hbef ha
    rw [hsession] at hout
    rw [hval] at hrefs hexc hout
    refine ⟨_, _, _, hout, ?_⟩
    rw [hrefs]
    exact hrec hexc
  · rw [hval] at hrefs hexc
    cases hcase : ((Session.runDecorators k place.decorations place.site (s.ownType k d)
        Option.none).run s).1 with
    | nil =>
      have hout : Outcome k s d place.decorations [] _ false :=
        .passes hty hall (fun hlnk => by cases hlnk) (forall_mem_nil _)
      rw [hsession, hval] at hout
      exact ⟨_, _, _, hout, hrec hexc⟩
    | cons r refs =>
      have hlast : ((Session.runDecorators k place.decorations place.site (s.ownType k d)
          Option.none).run s).2.findings = t.findings ++ [] := by
        rw [append_nil]
        exact inserted_nil.mp hexc.findings
      have hstd := steady_runDecorators (k := k) place.decorations place.site (s.ownType k d)
        Option.none s
      rw [hcase] at hrefs
      obtain ⟨more, hmore, hexc⟩ :=
        hexc.linkAll hlast (s.qualified place.site.name) (r :: refs)
      have hfs : ∀ e ∈ more, true = true ∧ ∃ a ∈ place.decorations, ∃ references,
          PassesAt k place.site (s.ownType k d) a references ∧
            ∃ r ∈ references, s.resolveReference r = .error e := by
        intro e he
        obtain ⟨r', hr', herror⟩ := hmore e he
        obtain ⟨a, ha, references, hpasses, hmem⟩ := hrefs r' hr'
        rw [resolveReference, hstd.scopes] at herror
        exact ⟨rfl, a, ha, references, hpasses, r', hmem, herror⟩
      have hlnk : d.instanceName?.isSome ∧ ∃ a ∈ place.decorations, ∃ references,
          PassesAt k place.site (s.ownType k d) a references ∧ references ≠ [] := by
        obtain ⟨a, ha, references, hpasses, hmem⟩ := hrefs r mem_cons_self
        exact ⟨hinst, a, ha, references, hpasses, ne_nil_of_mem hmem⟩
      have hout := Outcome.passes hty hall (fun _ => hlnk) hfs
      rw [hsession, hval] at hout
      exact ⟨_, _, _, hout, hrec hexc⟩

/-! ### The list before a declaration -/

theorem Excess.silent_of_ne (h : mark? l ≠ some x.mark) : x.Silent l :=
  fun hl => absurd hl h

/-- The check of a declaration with the marked list has the outcome of that list more than the
check without it. -/
def Contributes (k : Checker) (mark : Span) (l : List Decoration) (d : Decl) (s t : Session) :
    Prop :=
  ∃ findings deferred linked, Outcome k s d l findings deferred linked ∧
    Exceeds ⟨mark, findings, deferred, linked, false⟩ ((checkDecl k d).run s).2
      ((checkDecl k (d.without mark)).run t).2

theorem Exceeds.afterValue (h : Exceeds x s t) (d : Decl) :
    s.ownType k d = t.ownType k (d.without x.mark) ∧
      Exceeds x (s.afterValue k d) (t.afterValue k (d.without x.mark)) := by
  cases d with
  | var d =>
    obtain ⟨hrt, hval⟩ := (tracks_exceeds x).variableType? (k := k) d s t h
    rw [Decl.without]
    exact ⟨congrArg (Option.getD · Ty.any) (Ty.rel_eq.mp hrt), hval⟩
  | _ =>
    rw [Decl.without]
    exact ⟨h.boundType _, h⟩

theorem Exceeds.checks_iff (h : Exceeds x s t) :
    t.Checks k (d.without x.mark) ↔ s.Checks k d := by
  cases d with
  | var d =>
    obtain ⟨hrt, -⟩ := (tracks_exceeds x).variableType? (k := k) d s t h
    rw [Decl.without, Checks, Checks, Ty.rel_eq.mp hrt]
    rfl
  | «alias» d =>
    rw [Decl.without]
    exact Iff.rfl
  | _ =>
    rw [Decl.without]
    exact iff_of_eq (congrArg (· = true) (h.isRegistered _).symm)

theorem place?_without {place : Place} (hpl : d.place? = some place)
    (hl : mark? place.decorations = some mark) :
    (d.without mark).place? = some { place with decorations := [] } := by
  have hwithout : without mark place.decorations = [] := if_pos hl
  rw [Decl.without_eq, Decl.place?_redecorate _ hpl, hwithout]

/-- What comes of the list of a declaration itself. -/
theorem Exceeds.outcome_own {place : Place} (h : Exceeds (.none mark) s t)
    (hpl : d.place? = some place) (hchk : s.Checks k d)
    (hl : mark? place.decorations = some mark)
    (hsh : shapeFinding? k place.decorations = Option.none)
    (hrest : ∀ m ∈ d.properties.map (·.decorations) ++ Decl.listsAll d.members,
      mark? m ≠ some mark) :
    Contributes k mark place.decorations d s t := by
  obtain ⟨hown, hval⟩ : s.ownType k d = t.ownType k (d.without mark) ∧ _ := h.afterValue d
  have hdecorate : ∃ findings deferred linked,
      Outcome k s d place.decorations findings deferred linked ∧
        Exceeds ⟨mark, findings, deferred, linked, false⟩
          ((decorate k d place (s.ownType k d)).run (s.afterValue k d)).2
          ((decorate k (d.without mark) { place with decorations := [] } (s.ownType k d)).run
            (t.afterValue k (d.without mark))).2 := by
    unfold decorate
    rw [Decl.without_eq, Decl.instanceName?_redecorate]
    by_cases hinst : d.instanceName?.isSome
    · rw [if_pos hinst, if_pos hinst]
      cases d with
      | resource d | inst d =>
        exact h.instanceOutcome hpl hinst hl hsh
      | _ => cases hinst
    · rw [if_neg hinst, if_neg hinst, ← Decl.without_eq]
      obtain ⟨findings, deferred, hout, hexc⟩ :=
        hval.outcome place hl hsh (.own hpl) rfl
      exact ⟨findings, deferred, false, hout, hexc⟩
  obtain ⟨findings, deferred, linked, hout, hexc⟩ := hdecorate
  refine ⟨findings, deferred, linked, hout, ?_⟩
  rw [run_checkDecl hpl hchk,
    run_checkDecl (place?_without hpl hl) (h.checks_iff.mpr hchk), ← hown]
  refine hexc.run ?_
  rw [Decl.without_eq]
  refine (follows_exceeds _).behind rfl h.components_eq (fun q hq => ?_) fun e he => ?_
  · exact Excess.silent_of_ne (hrest _ (mem_append_left _ (mem_map_of_mem hq)))
  · refine (follows_exceeds _).checkDecl fun m hm => Excess.silent_of_ne (hrest m ?_)
    exact mem_append_right _ (Decl.mem_listsAll.mpr ⟨e, he, hm⟩)

theorem run_checkDecl_schema {d : SchemaDecl} (h : s.isRegistered d.name) :
    ((checkDecl k (.schema d)).run s).2 =
      ((checkProperties k d.name.text ((s.boundType d.name).properties?.getD []) d.properties).run
        ((Session.runDecorators k d.decorations ⟨.schema, d.name.text, false⟩ (s.boundType d.name)
          Option.none).run s).2).2 :=
  run_checkDecl (d := .schema d) rfl h

theorem run_checkProperties_append (schema : String) (types : Table Ty)
    (before after : List SchemaProperty) (s : Session) :
    (checkProperties k schema types (before ++ after)).run s =
      (checkProperties k schema types after).run
        ((checkProperties k schema types before).run s).2 := by
  induction before generalizing s with
  | nil => rfl
  | cons q before ih =>
    rw [cons_append, checkProperties, run_bind, run_bind, ih, checkProperties, run_bind,
      run_bind]

theorem Exceeds.outcome_alias {d : AliasDecl} (h : Exceeds (.none mark) s t)
    (hl : mark? d.decorations = some mark) :
    Contributes k mark d.decorations (.alias d) s t := by
  have hhlt : s.isHalted d.decorations = false := h.not_halted hl
  have hwithout : without mark d.decorations = [] := if_pos hl
  cases hds : d.decorations with
  | nil =>
    rw [hds] at hl
    cases hl
  | cons first rest =>
    refine ⟨_, _, _, .onAlias rfl, ?_⟩
    have hleft : ((checkDecl k (.alias d)).run s).2 = { s with
        findings := s.findings ++ [.typeError (.aliasDecorated d.name.text) first.span]
        deferred := s.deferred ++ [] } := by
      rw [checkDecl, checkAlias, hds]
      rw [run_get_bind, ← hds, hhlt, append_nil]
      rfl
    have hright : ((checkDecl k (Decl.without mark (.alias d))).run t).2 = t := by
      rw [Decl.without, checkDecl, checkAlias, AliasDecl.without, hwithout]
      rfl
    rw [hleft, hright]
    exact h.add _ _

/-- What comes of the list of a property. -/
theorem Exceeds.outcome_property {d : SchemaDecl} {q : SchemaProperty}
    {before after : List SchemaProperty} (h : Exceeds (.none mark) s t) (hs : s.isRegistered d.name)
    (hprops : d.properties = before ++ q :: after)
    (hl : mark? q.decorations = some mark)
    (hsh : shapeFinding? k q.decorations = Option.none)
    (hown : mark? d.decorations ≠ some mark)
    (hbef : ∀ r ∈ before, mark? r.decorations ≠ some mark)
    (haft : ∀ r ∈ after, mark? r.decorations ≠ some mark) :
    Contributes k mark q.decorations (.schema d) s t := by
  have hq : q ∈ d.properties := hprops ▸ mem_append_right _ mem_cons_self
  have hwithout : without mark q.decorations = [] := if_pos hl
  have ht : t.isRegistered (d.without mark).name := h.isRegistered d.name ▸ hs
  unfold Contributes
  rw [Decl.without, run_checkDecl_schema hs, run_checkDecl_schema ht, SchemaDecl.without,
    hprops, map_append, map_cons, run_checkProperties_append,
    run_checkProperties_append, ← h.boundType]
  have hstd : Steady s ((checkProperties k d.name.text ((s.boundType d.name).properties?.getD [])
      before).run ((Session.runDecorators k d.decorations ⟨.schema, d.name.text, false⟩
        (s.boundType d.name) Option.none).run s).2).2 :=
    IsTrans.trans (r := Steady) _ _ _ (steady_runDecorators _ _ _ _ s)
      (respected_steady.checkProperties _ _ _ _)
  -- up to the property the two checks are alike
  have hfst := (h.run (beside_runDecorators (k := k) (Excess.silent_of_ne hown)
    ⟨.schema, d.name.text, false⟩ (s.boundType d.name) Option.none)).run
      (beside_checkProperties (k := k) d.name.text ((s.boundType d.name).properties?.getD [])
        fun r hr => Excess.silent_of_ne (hbef r hr))
  obtain ⟨findings, deferred, hout, hexc⟩ :=
    hfst.outcome q.place hl hsh (Typed.property (k := k) (d := .schema d) hq) hstd.scopes
  refine ⟨findings, deferred, false, hout, ?_⟩
  have hrest := (hexc.run ((tracks_exceeds _).checkValue? (k := k)
    (.propertyDefault q.name.text d.name.text)
    (Eq.refl ((Table.find? ((s.boundType d.name).properties?.getD []) q.name.text).getD .any))
    q.default)).run (beside_checkProperties (k := k) d.name.text
      ((s.boundType d.name).properties?.getD []) fun r hr => Excess.silent_of_ne (haft r hr))
  rw [SchemaProperty.without, hwithout]
  exact hrest

end Session

end Provision
