import Provision.Proofs.Session.Findings
import Provision.Proofs.Session.Schemas
import Provision.Proofs.Session.Shape

/-!
# Decorators of a declaration

Decorations stand at places: before a declaration, and before the properties of a schema
(`Decl.places`). If the check of a declaration finds nothing, then every decoration of it fits its
place, with the type that is bound there, and those of deferred decorators are added to the checks
that wait, in the order in which they are written (`Session.decorated_checkDecl`). Nothing but
decorators adds to them (`Session.visited_quiet`).
-/

namespace Provision

open List Table

namespace Place

/-- A decoration passes every check that its decorator makes before there are values. -/
def Fits (registry : Registry) (place : Place) (type : Ty) (a : Decoration) : Prop :=
  ∃ decorator, registry.get? a.name.text = some decorator ∧ decorator.checkShape a = .ok () ∧
    (∃ refs, decorator.checkTarget a place.site = .ok refs) ∧
      decorator.checkType a place.site type = .ok ()

/-- The check that a decoration leaves for later, if its decorator has one. -/
def deferral? (registry : Registry) (component : Option String) (place : Place) (a : Decoration) :
    Option DeferredCheck :=
  (registry.get? a.name.text).bind fun decorator =>
    if decorator.spec.deferred then
      some {
        decorator
        args := a.args
        target := qualifiedName component place.site.name
        default := place.value.bind Value.ofExpr?
        span := a.span }
    else none

/-- The checks that the decorations of a place leave for later. -/
def deferrals (registry : Registry) (component : Option String) (place : Place) :
    List DeferredCheck :=
  place.decorations.filterMap (place.deferral? registry component)

end Place

/-- The checks that the decorations of a declaration leave for later. -/
def Decl.deferrals (registry : Registry) (component : Option String) (d : Decl) :
    List DeferredCheck :=
  d.places.flatMap (·.deferrals registry component)

namespace Session

variable {k : Checker} {p : Program} {s t : Session} {d : Decl} {component : Option String}

/-- The type that is bound at a place of a declaration when its decorators run: that of the name,
and for a property that in the schema. -/
inductive HasType (k : Checker) (s : Session) (d : Decl) : Place → Ty → Prop
  | own {place : Place} {type : Ty} (hpl : d.place? = some place)
      (hty : (s.afterValue k d).scopes.get? d.name.text = some type) : HasType k s d place type
  | property {q : SchemaProperty} {schema type : Ty} {types : Table Ty} (hq : q ∈ d.properties)
      (hsch : s.scopes.get? d.name.text = some schema) (htys : schema.properties? = some types)
      (hty : find? types q.name.text = some type) : HasType k s d q.place type

/-- The decorations of a declaration fit, and what they leave for later is noted. -/
structure Decorated (k : Checker) (component : Option String) (s : Session) (d : Decl)
    (t : Session) : Prop where
  fits : ∀ place ∈ d.places, ∃ type, s.HasType k d place type ∧
    ∀ a ∈ place.decorations, place.Fits k.registry type a
  deferred : t.deferred = s.deferred ++ d.deferrals k.registry component

/-! ### What adds nothing -/

/-- No finding was withdrawn, and nothing was noted about decorations. -/
structure Quiet (s t : Session) : Prop where
  notes : Notes s t
  halted : t.halted = s.halted
  deferred : t.deferred = s.deferred

instance : IsPreorder Session Quiet where
  refl _ := ⟨prefix_rfl, rfl, rfl⟩
  trans _ _ _ h h' :=
    ⟨h.notes.trans h'.notes, h'.halted.trans h.halted, h'.deferred.trans h.deferred⟩

theorem Quiet.of_eq (hfs : t.findings = s.findings) (hhlt : t.halted = s.halted)
    (hdef : t.deferred = s.deferred) : Quiet s t := ⟨notes_of_eq hfs, hhlt, hdef⟩

theorem Books.quiet (h : Books s t) : Quiet s t := by
  obtain ⟨_, _, _, rfl⟩ := h
  exact .of_eq rfl rfl rfl

theorem quiet_report (d : Diagnostic) : Moves Quiet (report d) :=
  fun s => ⟨notes_report d s, rfl, rfl⟩

theorem quiet_declare (name : Ident) (type : Ty) : Moves Quiet (declare name type) := fun s =>
  of_declare (P := Quiet s) name (fun _ => .of_eq rfl rfl rfl) fun d => quiet_report d s

theorem visited_quiet : Visited k Quiet where
  report := quiet_report
  infer e expected s := (books_infer e expected s).quiet
  depend x scope y kind s := (books_depend x scope y kind s).quiet
  record _ _ _ := .of_eq rfl rfl rfl
  declare := quiet_declare
  readingFor x _ hm s :=
    ⟨(hm (s.readingFor x)).notes, (hm (s.readingFor x)).halted, (hm (s.readingFor x)).deferred⟩
  inChild hm s := ⟨(hm s.inChild).notes, (hm s.inChild).halted, (hm s.inChild).deferred⟩
  refine _ _ := .of_eq rfl rfl rfl

theorem quiet_linkComponents : Moves Quiet linkComponents :=
  moves_linkComponents quiet_report ⟨fun _ _ _ _ _ => .of_eq rfl rfl rfl,
    fun _ _ _ => .of_eq rfl rfl rfl, fun _ _ _ => .of_eq rfl rfl rfl⟩

theorem quiet_orderBodies (o : Orders) (bs : List (ScopeId × Body)) :
    Moves Quiet (orderBodies o bs) := by
  induction bs generalizing o with
  | nil => exact Moves.pure _
  | cons b bs ih =>
    rw [orderBodies]
    split
    · exact ih _
    · exact Moves.bind (quiet_report _) fun _ => ih _

/-! ### The decorators of a place -/

/-- If nothing is found, then the decorations of a place fit, and what they leave for later is
noted. -/
theorem fits_runDecorators (place : Place) (type : Ty) (hhlt : s.halted = [])
    (hshd : Shaped k place.decorations) (hnm : ∀ n, s.qualified n = qualifiedName component n)
    (hfs :
      ((runDecorators k place.decorations place.site type place.value).run s).2.findings = []) :
    (∀ a ∈ place.decorations, place.Fits k.registry type a) ∧
      ((runDecorators k place.decorations place.site type place.value).run s).2.deferred =
        s.deferred ++ place.deferrals k.registry component := by
  obtain ⟨found, hall, hrun⟩ := run_runDecorators hhlt hshd.known hfs
  have hdeferral : s.deferral? k place.site place.value =
      place.deferral? k.registry component := by
    funext a
    rw [Session.deferral?, hnm]
    rfl
  refine ⟨fun a ha => ?_, ?_⟩
  · obtain ⟨decorator, hdec, hsh⟩ := hshd a ha
    obtain ⟨refs, ⟨decorator', hdec', hrefs⟩, -⟩ := hall a ha
    obtain rfl := Option.some.inj (hdec.symm.trans hdec')
    obtain ⟨htgt, hty⟩ := checkSite_eq_ok hrefs
    exact ⟨decorator, hdec, hsh, ⟨refs, htgt⟩, hty⟩
  · rw [hrun, hdeferral, Place.deferrals]

/-! ### Declarations -/

theorem boundType_eq {name : Ident} {type : Ty} (h : s.scopes.get? name.text = some type) :
    s.boundType name = type := by
  rw [boundType, h, Option.getD_some]

theorem quiet_decorate {place : Place} (hpl : d.place? = some place) (type : Ty) :
    Quiet ((runDecorators k place.decorations place.site type place.value).run s).2
      ((decorate k d place type).run s).2 := by
  have hinst : ∀ {ds : List Decoration} {target : Target} {n : String},
      Quiet ((runDecorators k ds ⟨target, n, false⟩ type none).run s).2
        ((checkInstanceDecorators k ds target n type).run s).2 := by
    intro ds target n
    rw [run_checkInstanceDecorators]
    exact IsTrans.trans (r := Quiet) _ _ _
      (moves_linkAll quiet_report (visited_quiet (k := k)).depend (s.qualified n) _ _)
      ((visited_quiet (k := k)).record _ ds _)
  cases d with
  | resource d | inst d =>
    cases hpl
    exact hinst
  | «alias» d => cases hpl
  | _ =>
    cases hpl
    exact Std.Refl.refl (r := Quiet) _

theorem quiet_behind (hsch : schema? d = none) (hflat : d.isComponent = false) (type : Ty) :
    Moves Quiet (s.behind k type d) := by
  cases d with
  | schema d => cases hsch
  | component decs name body span => cases hflat
  | resource d =>
    rw [behind]
    unfold initialiseResource
    split
    · exact Moves.get_bind fun t => visited_quiet.checkInits _ _ _ _ _ _ t
    · exact Moves.pure _
  | inst d =>
    rw [behind]
    unfold initialiseInstance
    split
    · exact Moves.get_bind fun t => visited_quiet.checkInits _ _ _ _ _ _ t
    · exact Moves.pure _
  | function d =>
    rw [behind]
    unfold finishFunction
    split
    · refine Moves.bind (visited_quiet.bodyType? d _ _) fun body => ?_
      split
      · exact fun _ => .of_eq rfl rfl rfl
      · exact Moves.pure _
    · exact Moves.pure _
  | input d | output d => exact visited_quiet.checkValue? _ _ _
  | var d | «alias» d => exact Moves.pure _

theorem decorated_of_quiet {place : Place} (hpl : d.place? = some place)
    (hprops : d.properties = []) (hval : Quiet s (s.afterValue k d))
    (hty : (s.afterValue k d).scopes.get? d.name.text = some (s.ownType k d))
    (hhlt : s.halted = []) (hshd : WellShaped k d)
    (hnm : ∀ n, (s.afterValue k d).qualified n = qualifiedName component n)
    (hquiet : Quiet ((runDecorators k place.decorations place.site (s.ownType k d)
      place.value).run (s.afterValue k d)).2 t)
    (hfs : t.findings = []) : Decorated k component s d t := by
  have hplaces : d.places = [place] := by
    rw [Decl.places, hpl, hprops]
    rfl
  have hown := hshd.own
  rw [← Decl.decorations_of_place? hpl] at hown
  obtain ⟨hfits, hdef⟩ := fits_runDecorators place (s.ownType k d)
    (hval.halted.trans hhlt) hown hnm (hquiet.notes.findings_eq_nil hfs)
  constructor
  · intro place' hpl'
    rw [hplaces, mem_singleton] at hpl'
    subst hpl'
    exact ⟨_, .own hpl hty, hfits⟩
  · rw [hquiet.deferred, hdef, hval.deferred, Decl.deferrals, hplaces,
      flatMap_singleton]

theorem decorated_of_checks {place : Place} (hpl : d.place? = some place)
    (hsch : schema? d = none) (hflat : d.isComponent = false) (hchk : s.Checks k d)
    (hval : Quiet s (s.afterValue k d))
    (hty : (s.afterValue k d).scopes.get? d.name.text = some (s.ownType k d))
    (hhlt : s.halted = []) (hshd : WellShaped k d)
    (hnm : ∀ n, (s.afterValue k d).qualified n = qualifiedName component n)
    (hfs : ((checkDecl k d).run s).2.findings = []) :
    Decorated k component s d ((checkDecl k d).run s).2 := by
  have hprops : d.properties = [] := by
    cases d with
    | schema d => cases hsch
    | _ => rfl
  rw [run_checkDecl hpl hchk] at hfs ⊢
  exact decorated_of_quiet hpl hprops hval hty hhlt hshd hnm
    (IsTrans.trans (r := Quiet) _ _ _ (quiet_decorate hpl (s.ownType k d))
      (quiet_behind (s := s) hsch hflat (s.ownType k d) _)) hfs

/-! ### Variables -/

/-- A variable that is checked without findings is bound to its type. -/
theorem variableType?_bound {d : VarDecl} (hs : Working p s)
    (hd : Awaits p s s.body s.component (.var d))
    (hfs : ((variableType? k d).run s).2.findings = []) :
    ∃ type, ((variableType? k d).run s).1 = some type ∧
      ((variableType? k d).run s).2.scopes.get? d.name.text = some type := by
  cases hty : d.type with
  | some e =>
    have hmb : (Decl.var d).isMember = true := by
      rw [Decl.isMember, hty]
      rfl
    obtain ⟨hreg, hbd⟩ := hd.ready hmb
    obtain ⟨type, hfind⟩ := Option.isSome_iff_exists.mp hbd
    have hget : s.scopes.get? d.name.text = some type := by
      rw [Scopes.get?, hs.atBody]
      exact hfind
    have hstd := (respected_steady (k := k)).checkValue (.variable d.name.text)
      (s.boundType d.name) d.value s
    have hfst : ((variableType? k d).run s).1 = some (s.boundType d.name) := by
      have hreg' : s.isRegistered d.name := hreg
      unfold variableType?
      rw [hty]
      rw [run_get_bind]
      rw [if_pos hreg']
      rfl
    rw [run_variableType?_some hty hreg, hfst, hstd.scopes, boundType_eq hget]
    exact ⟨type, rfl, hget⟩
  | none =>
    have hstd : Steady s ((inferred? k d.value).run s).2 := respected_steady.inferred? d.value s
    have hrun : (variableType? k d).run s =
        (if ((declare d.name ((((inferred? k d.value).run s).1).getD .any)).run
            ((inferred? k d.value).run s).2).1 then
          some ((((inferred? k d.value).run s).1).getD .any) else none,
          ((declare d.name ((((inferred? k d.value).run s).1).getD .any)).run
            ((inferred? k d.value).run s).2).2) := by
      unfold variableType?
      rw [hty]
      rw [run_bind, run_bind]
      split <;> rfl
    rw [hrun] at hfs ⊢
    generalize (((inferred? k d.value).run s).1).getD .any = type at *
    rcases run_declare ((inferred? k d.value).run s).2 d.name type with
      ⟨-, hdecl⟩ | ⟨finding, hdecl⟩
    · rw [hdecl]
      refine ⟨type, rfl, ?_⟩
      show find? (Scopes.bindings _ _) d.name.text = some type
      rw [Scopes.find?_bindings_set, if_pos]
      refine ⟨rfl, ?_, rfl⟩
      show ((inferred? k d.value).run s).2.scopes.current < _
      rw [hstd.scopes, hs.atBody]
      exact hs.lt hs.bodyAt
    · rw [hdecl] at hfs
      exact absurd hfs (concat_ne_nil _ _)

theorem decorated_variable {d : VarDecl} (hs : Working p s)
    (hd : Awaits p s s.body s.component (.var d)) (hhlt : s.halted = [])
    (hshd : WellShaped k (.var d)) (hfs : ((checkDecl k (.var d)).run s).2.findings = []) :
    Decorated k s.component s (.var d) ((checkDecl k (.var d)).run s).2 := by
  obtain ⟨hadv, -⟩ := variableType?_spec (k := k) hs hd
  have hlast : Notes ((variableType? k d).run s).2 ((checkDecl k (.var d)).run s).2 := by
    rw [checkDecl, checkVariable, run_bind]
    split
    · exact traversed_notes.runDecorators _ _ _ _ _
    · exact Std.Refl.refl (r := Notes) _
  obtain ⟨type, hrt, hbd⟩ := variableType?_bound hs hd (hlast.findings_eq_nil hfs)
  refine decorated_of_checks rfl rfl rfl ?_ (visited_quiet.variableType? d s) ?_ hhlt hshd
    (fun n => ?_) hfs
  · rw [Checks, hrt]
    rfl
  · rw [ownType, hrt]
    exact hbd
  · rw [afterValue, (hs.advances hadv).qualified, hadv.component]

/-! ### Schemas -/

/-- The decorations of properties fit their types, one property after the other. -/
theorem fits_checkProperties {schema : String} {types : Table Ty} (qs : List SchemaProperty)
    (hhlt : s.halted = []) (hshd : ∀ q ∈ qs, Shaped k q.decorations)
    (hnm : ∀ n, s.qualified n = qualifiedName component n)
    (hfs : ((checkProperties k schema types qs).run s).2.findings = []) :
    (∀ q ∈ qs, ∀ a ∈ q.decorations,
      q.place.Fits k.registry ((find? types q.name.text).getD .any) a) ∧
      ((checkProperties k schema types qs).run s).2.deferred =
        s.deferred ++ qs.flatMap (·.place.deferrals k.registry component) := by
  induction qs generalizing s with
  | nil => exact ⟨fun q hq => (not_mem_nil hq).elim, (append_nil _).symm⟩
  | cons q qs ih =>
    have hrun : ((checkProperties k schema types (q :: qs)).run s).2 =
        ((checkProperties k schema types qs).run
          ((checkValue? k (.propertyDefault q.name.text schema)
              ((find? types q.name.text).getD .any) q.default).run
            ((runDecorators k q.place.decorations q.place.site
              ((find? types q.name.text).getD .any) q.place.value).run s).2).2).2 := rfl
    rw [hrun] at hfs ⊢
    generalize hs₁ : ((runDecorators k q.place.decorations q.place.site
      ((find? types q.name.text).getD .any) q.place.value).run s).2 = s₁ at *
    generalize hs₂ : ((checkValue? k (.propertyDefault q.name.text schema)
      ((find? types q.name.text).getD .any) q.default).run s₁).2 = s₂ at *
    have hstd₁ : Steady s s₁ := hs₁ ▸ steady_runDecorators _ _ _ _ s
    have hstd₂ : Steady s₁ s₂ := hs₂ ▸ respected_steady.checkValue? _ _ _ s₁
    have hfr₁ : Frame s s₁ := hs₁ ▸ frame_runDecorators _ _ _ _ s
    have hquiet₂ : Quiet s₁ s₂ := hs₂ ▸ visited_quiet.checkValue? _ _ _ s₁
    have hnm₂ : ∀ n, s₂.qualified n = qualifiedName component n := by
      intro n
      rw [← hnm n, qualified, hstd₂.scopes, hstd₁.scopes, qualified]
    have hnil := (traversed_notes.checkProperties schema types qs s₂).findings_eq_nil hfs
    obtain ⟨hfits, hdef⟩ := fits_runDecorators (s := s) q.place
      ((find? types q.name.text).getD .any) hhlt
      (hshd q mem_cons_self) hnm (by
        rw [hs₁]
        exact hquiet₂.notes.findings_eq_nil hnil)
    obtain ⟨hfits', hdef'⟩ := ih (hquiet₂.halted.trans (hfr₁.halted.trans hhlt))
      (fun q' hq' => hshd q' (mem_cons_of_mem q hq')) hnm₂ hfs
    refine ⟨forall_mem_cons.mpr ⟨hfits, hfits'⟩, ?_⟩
    rw [hs₁] at hdef
    rw [hdef', hquiet₂.deferred, hdef, flatMap_cons, append_assoc]

/-- The decorations of a schema fit, and those of its properties. -/
theorem decorated_schema {d : SchemaDecl} (hhlt : s.halted = [])
    (hshd : WellShaped k (.schema d)) (hnm : ∀ n, s.qualified n = qualifiedName component n)
    (hfill : s.Filled s.scopes.current d)
    (hfs : ((checkSchema k d).run s).2.findings = []) :
    Decorated k component s (.schema d) ((checkSchema k d).run s).2 := by
  obtain ⟨schema, types, hsch, htys, hprops⟩ := hfill.bound
  have hget : s.scopes.get? d.name.text = some schema := hsch
  have hrun : ((checkSchema k d).run s).2 = ((checkProperties k d.name.text types d.properties).run
      ((runDecorators k d.decorations ⟨.schema, d.name.text, false⟩ schema none).run s).2).2 := by
    unfold checkSchema
    rw [run_get_bind]
    rw [run_bind, boundType_eq hget]
    cases schema with
    | schema _ found _ =>
      cases htys
      rfl
    | _ => cases htys
  rw [hrun] at hfs ⊢
  generalize hs₁ : ((runDecorators k d.decorations ⟨.schema, d.name.text, false⟩ schema none).run
    s).2 = s₁ at *
  have hstd : Steady s s₁ := hs₁ ▸ steady_runDecorators _ _ _ _ s
  have hfr : Frame s s₁ := hs₁ ▸ frame_runDecorators _ _ _ _ s
  have hnm₁ : ∀ n, s₁.qualified n = qualifiedName component n := by
    intro n
    rw [← hnm n, qualified, hstd.scopes, qualified]
  have hnil := (traversed_notes.checkProperties _ _ _ s₁).findings_eq_nil hfs
  obtain ⟨hfits, hdef⟩ := fits_runDecorators (s := s)
    ⟨⟨.schema, d.name.text, false⟩, d.decorations, none⟩ schema hhlt hshd.own hnm (by
      rw [hs₁]
      exact hnil)
  obtain ⟨hfits', hdef'⟩ := fits_checkProperties d.properties
    (hfr.halted.trans hhlt) hshd.properties hnm₁ hfs
  constructor
  · intro place hpl
    rcases mem_append.mp hpl with hown | hprop
    · obtain rfl := mem_singleton.mp hown
      exact ⟨schema, .own rfl hget, hfits⟩
    · obtain ⟨q, hq, rfl⟩ := mem_map.mp hprop
      obtain ⟨type, hty⟩ := Option.isSome_iff_exists.mp (hprops q hq)
      have hq' := hfits' q hq
      rw [hty, Option.getD_some] at hq'
      exact ⟨type, .property hq hget htys hty, hq'⟩
  · rw [hs₁] at hdef
    rw [hdef', hdef, append_assoc, Decl.deferrals, Decl.places,
      flatMap_append, flatMap_map]
    congr 2
    exact (flatMap_singleton _ _).symm

/-! ### Any declaration of a body -/

theorem decorations_of_checkAlias {d : AliasDecl} (hhlt : s.halted = [])
    (hfs : ((checkAlias d).run s).2.findings = []) : d.decorations = [] := by
  cases hds : d.decorations with
  | nil => rfl
  | cons first rest =>
    unfold checkAlias at hfs
    rw [hds] at hfs
    rw [run_get_bind] at hfs
    rw [if_neg (by simp [isHalted, hhlt])] at hfs
    exact absurd hfs (concat_ne_nil _ _)

/-- If nothing is found, then the decorations of a declaration fit, and what they leave for later is
noted. -/
theorem decorated_checkDecl (hs : Working p s) (hd : Awaits p s s.body s.component d)
    (hflat : d.isComponent = false) (hhlt : s.halted = []) (hshd : WellShaped k d)
    (hfill : ∀ schema, d = .schema schema → s.Filled s.body schema)
    (hfs : ((checkDecl k d).run s).2.findings = []) :
    Decorated k s.component s d ((checkDecl k d).run s).2 := by
  have hnm := hs.qualified
  -- members are bound in the scope that the check is in
  have hget : d.isMember → ∃ type, s.scopes.get? d.name.text = some type := by
    intro hmb
    rw [Scopes.get?, hs.atBody]
    exact Option.isSome_iff_exists.mp (hd.ready hmb).2.isSome_find?
  cases d with
  | schema d =>
    have hd := hfill d rfl
    rw [checkDecl, run_ifRegistered d.name hd.isRegistered] at hfs ⊢
    exact decorated_schema hhlt hshd hnm (hs.atBody ▸ hd) hfs
  | component decs name body span => cases hflat
  | var d => exact decorated_variable hs hd hhlt hshd hfs
  | «alias» d =>
    rw [checkDecl] at hfs ⊢
    have hnone := decorations_of_checkAlias hhlt hfs
    have hrun : ((checkAlias d).run s).2 = s := by
      unfold checkAlias
      rw [hnone]
      rfl
    rw [hrun]
    exact ⟨fun place hpl => (not_mem_nil hpl).elim, (append_nil _).symm⟩
  | _ d =>
    obtain ⟨type, hty⟩ : ∃ type, s.scopes.get? d.name.text = some type := hget rfl
    exact decorated_of_checks rfl rfl rfl (hd.ready rfl).1 (Std.Refl.refl (r := Quiet) s)
      (hty.trans (congrArg some (boundType_eq hty).symm)) hhlt hshd hnm hfs

end Session

end Provision
