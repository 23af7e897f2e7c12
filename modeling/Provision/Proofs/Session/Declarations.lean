import Provision.Proofs.Session.Places

/-!
# Checking declarations one after the other

A declaration that was registered waits for its check (`Session.Awaits`). Checking it keeps
dependencies and graphs together, and the component around it needs whatever of the top level its
expressions read (`Session.settles_checkDecl`). Besides, an instance depends on what its
initialisers read (`Session.depends_checkDecl`) and on what its decorators refer to
(`Session.depends_checkDecl_reference`).
-/

namespace Provision.Session

open List

variable {k : Checker} {p : Program} {s t : Session} {d : Decl} {scope : ScopeId} {n : String}
  {e : Expr}

/-! ### Before a declaration is checked -/

/-- A declaration of a body waits for its check. -/
structure Awaits (p : Program) (s : Session) (scope : ScopeId) (c : Option String) (d : Decl) :
    Prop where
  ready : s.Ready scope d
  listed : ∀ {n}, d.instanceName? = some n →
    (s.dependencies? (qualifiedName c n)).isSome ∧ p.DeclaresInstance c n
  declared : ∀ {n}, d.variableName? = some n → p.DeclaresVariable c n

theorem Awaits.grows (hg : Grows s t) {c : Option String}
    (h : Awaits p s scope c d) : Awaits p t scope c d where
  ready := h.ready.grows hg
  listed hn := ⟨hg.isSome_dependencies? (h.listed hn).1, (h.listed hn).2⟩
  declared := h.declared

/-- The check is in a body, and in no function of it. -/
structure Working (p : Program) (s : Session) : Prop extends Linking p s where
  atBody : s.scopes.current = s.body

theorem Working.advances (hs : Working p s) (h : Advances p s t) : Working p t where
  toLinking := h.linking hs.toLinking
  atBody := h.current.trans (hs.atBody.trans h.body.symm)

theorem Working.qualified (hs : Working p s) (n : String) :
    s.qualified n = qualifiedName s.component n := by
  rw [Session.qualified, hs.atBody, hs.qualify hs.bodyAt]

theorem Awaits.isReader (hd : Awaits p s s.body s.component d) (hs : Working p s)
    (hn : d.instanceName? = some n) : IsReader p s (s.qualified n) := by
  rw [hs.qualified]
  obtain ⟨hlst, hdecl⟩ := hd.listed hn
  exact ⟨hlst, n, rfl, hdecl⟩

/-! ### Instances -/

theorem exists_boundType {name : Ident} {kind : InstanceKind}
    (h : s.scopes.kindAt s.scopes.current name.text = some kind) :
    (s.boundType name).kind? = some kind := by
  obtain ⟨type, hty, hkind⟩ := Option.bind_eq_some_iff.mp h
  rw [boundType, Scopes.get?, hty, Option.getD_some, hkind]

theorem qualified_checkInstanceDecorators {ds : List Decoration} {target : Target} {type : Ty}
    (n : String) :
    ((checkInstanceDecorators k ds target n type).run s).2.qualified n = s.qualified n := by
  have hstd : Steady s ((checkInstanceDecorators k ds target n type).run s).2 :=
    steady_checkInstanceDecorators s
  rw [qualified, hstd.scopes, qualified]

/-- The check of an instance runs its decorators, and then checks its initialisers. -/
theorem run_checkDecl_instance (hs : Working p s) (hd : Awaits p s s.body s.component d)
    (hn : d.instanceName? = some n) :
    ∃ target type holder fields required, ((checkDecl k d).run s).2 =
        ((checkInits k (s.qualified n) holder d.span fields required d.inits).run
          ((checkInstanceDecorators k d.decorations target n type).run s).2).2 ∧
      Advances p s ((checkInstanceDecorators k d.decorations target n type).run s).2 ∧
      IsReader p ((checkInstanceDecorators k d.decorations target n type).run s).2
        (s.qualified n) := by
  have hx := hd.isReader hs hn
  suffices hrun : ∃ target type holder fields required, ((checkDecl k d).run s).2 =
      ((checkInits k (((checkInstanceDecorators k d.decorations target n type).run s).2.qualified n)
        holder d.span fields required d.inits).run
          ((checkInstanceDecorators k d.decorations target n type).run s).2).2 by
    obtain ⟨target, type, holder, fields, required, hrun⟩ := hrun
    rw [qualified_checkInstanceDecorators] at hrun
    have hdecs :
        Advances p s ((checkInstanceDecorators k d.decorations target n type).run s).2 :=
      advances_checkInstanceDecorators hx
    exact ⟨target, type, holder, fields, required, hrun, hdecs,
      hx.grows hdecs.toGrows⟩
  obtain ⟨hreg, hbd⟩ := hd.ready (Decl.isMember_of_instanceName? hn)
  rw [← hs.atBody] at hbd
  cases d with
  | resource d =>
    cases hn
    obtain ⟨kind, hkind⟩ := hbd
    have hkind := exists_boundType hkind
    rw [run_checkDecl (d := .resource d) rfl hreg]
    refine ⟨.resource, s.boundType d.name, ?_⟩
    show ∃ holder fields required, ((initialiseResource k d (s.boundType d.name)).run
      ((checkInstanceDecorators k _ _ _ (s.boundType d.name)).run s).2).2 = _
    generalize s.boundType d.name = type at hkind ⊢
    cases type with
    | resource _ _ _ => exact ⟨_, _, _, rfl⟩
    | component _ inst _ _ _ => cases inst <;> cases hkind
    | _ => cases hkind
  | inst d =>
    cases hn
    obtain ⟨kind, hkind⟩ := hbd
    have hkind := exists_boundType hkind
    rw [run_checkDecl (d := .inst d) rfl hreg]
    refine ⟨.component, s.boundType d.name, ?_⟩
    show ∃ holder fields required, ((initialiseInstance k d (s.boundType d.name)).run
      ((checkInstanceDecorators k _ _ _ (s.boundType d.name)).run s).2).2 = _
    generalize s.boundType d.name = type at hkind ⊢
    cases type with
    | component _ _ _ _ _ => exact ⟨_, _, _, rfl⟩
    | _ => cases hkind
  | _ => cases hn

theorem advances_checkDecl_instance (hs : Working p s) (hd : Awaits p s s.body s.component d)
    (hn : d.instanceName? = some n) : Advances p s ((checkDecl k d).run s).2 := by
  obtain ⟨target, type, holder, fields, required, hrun, hdecs, hx⟩ :=
    run_checkDecl_instance (k := k) hs hd hn
  rw [hrun]
  exact hdecs.trans (advances_checkInits hx)

/-- An instance depends on what its initialisers read, and the component around it needs what of
that lies at the top level. -/
theorem depends_checkDecl (hs : Working p s) (hd : Awaits p s s.body s.component d)
    (hn : d.instanceName? = some n) (hfs : ((checkDecl k d).run s).2.findings = [])
    (he : e ∈ d.exprs) {m : String} (hread : Reads k s e scope m) :
    ((checkDecl k d).run s).2.Depends (s.qualified n) (s.scopes.qualify scope m) ∧
      ∀ comp, s.component = some comp → scope = ScopeId.global →
        ((checkDecl k d).run s).2.Needs comp (s.scopes.qualify scope m) := by
  rw [Decl.exprs_of_instanceName? hn] at he
  obtain ⟨i, hi, rfl⟩ := mem_map.mp he
  obtain ⟨target, type, holder, fields, required, hrun, hdecs, hx⟩ :=
    run_checkDecl_instance (k := k) hs hd hn
  have hstd : Steady s ((checkInstanceDecorators k d.decorations target n type).run s).2 :=
    steady_checkInstanceDecorators s
  rw [hrun] at hfs ⊢
  obtain ⟨hdep, hneeds⟩ := depends_checkInits (hdecs.linking hs.toLinking)
    hx hfs hi hstd.shallower hread
  exact ⟨hdep, fun comp hc => hneeds comp (hdecs.component.trans hc)⟩

/-- What a decoration of an instance refers to is a dependency. -/
theorem depends_checkDecl_reference (hs : Working p s) (hd : Awaits p s s.body s.component d)
    (hn : d.instanceName? = some n) (hhlt : s.halted = [])
    (hknown : ∀ a ∈ d.decorations, (k.registry.get? a.name.text).isSome)
    (hfs : ((checkDecl k d).run s).2.findings = []) {a : Decoration} (ha : a ∈ d.decorations)
    {decorator : Decorator} (hdec : k.registry.get? a.name.text = some decorator) :
    ∃ site type refs, checkSite decorator a site type = .ok refs ∧
      ∀ r ∈ refs, ∃ scope y, s.resolveReference r = .ok (scope, y) ∧
        ((checkDecl k d).run s).2.Depends (s.qualified n) y ∧
        ∀ comp, s.component = some comp → scope = ScopeId.global →
          ((checkDecl k d).run s).2.Needs comp y := by
  obtain ⟨target, type, holder, fields, required, hrun, hdecs, hx⟩ :=
    run_checkDecl_instance (k := k) hs hd hn
  rw [hrun] at hfs ⊢
  have hinits : Advances p ((checkInstanceDecorators k d.decorations target n type).run s).2
      ((checkInits k (s.qualified n) holder d.span fields required d.inits).run
        ((checkInstanceDecorators k d.decorations target n type).run s).2).2 :=
    advances_checkInits hx
  obtain ⟨refs, hrefs, hfollowed⟩ := depends_checkInstanceDecorators hs.toLinking
    (hd.isReader hs hn) hhlt hknown (hinits.findings_eq_nil hfs) ha hdec
  refine ⟨_, type, refs, hrefs, fun r hr => ?_⟩
  obtain ⟨scope, y, hres, hdep, hneeds⟩ := hfollowed r hr
  exact ⟨scope, y, hres, hinits.depends hdep,
    fun comp hc hgl => hinits.needs (hneeds comp hc hgl)⟩

/-! ### Values -/

theorem covers_checkValue? (subject : Subject) (type : Ty) {value : Option Expr}
    (he : e ∈ value.toList) : Covers k p e (checkValue? k subject type value) := by
  obtain rfl := Option.mem_toList.mp he
  exact covers_checkValue subject type e

theorem Covers.get_bind {f : Session → Checking β} (hf : ∀ s, Covers k p e (f s)) :
    Covers k p e (get >>= f) :=
  Covers.bind_right (fun s => Std.Refl.refl s) (fun s => Std.Refl.refl s) hf

theorem Covers.runDecorators {ds : List Decoration} {site : Site} {type : Ty} {value : Option Expr}
    {f : List Reference → Checking β} (hf : ∀ a, Covers k p e (f a)) :
    Covers k p e (runDecorators k ds site type value >>= f) :=
  Covers.bind_right (respected_advances.runDecorators ds site type value)
    (respected_steady.runDecorators ds site type value) hf

theorem covers_checkInput (d : InputDecl) (he : e ∈ d.default.toList) :
    Covers k p e (checkInput k d) := by
  unfold checkInput
  exact Covers.get_bind fun s => Covers.runDecorators fun _ => covers_checkValue? _ _ he

theorem covers_checkOutput (d : OutputDecl) (he : e ∈ d.value.toList) :
    Covers k p e (checkOutput k d) := by
  unfold checkOutput
  exact Covers.get_bind fun s => Covers.runDecorators fun _ => covers_checkValue? _ _ he

theorem covers_inferred? (e : Expr) : Covers k p e (inferred? k e) := by
  intro s t scope n hread ht hts hfs
  unfold inferred? at hfs ⊢
  rw [run_bind] at hfs ⊢
  split at hfs
  · next found hfound => exact noted_infer hread ht hts hfound
  · exact absurd hfs (concat_ne_nil _ _)

/-! ### Variables -/

theorem Linked.scopes (hs : Linked p s) {e : Scopes} (he : s.scopes.Persists e)
    (hkinds : ∀ {scope n}, (e.kindAt scope n).isSome →
      ∃ c, s.BodyAt scope c ∧ (p.DeclaresInstance c n ∨ p.DeclaresVariable c n)) :
    Linked p { s with scopes := e } := by
  have hkept : ∀ {scope m}, (s.scopes.kindAt scope m).isSome → (e.kindAt scope m).isSome := by
    intro scope m hm
    obtain ⟨kind, hkind⟩ := Option.isSome_iff_exists.mp hm
    rw [he.kindAt_eq_some hkind]
    rfl
  exact { hs with
    toPlaced := hs.toPlaced.of_persists he rfl fun _ _ => Iff.rfl
    kinds := hkinds
    edge := fun hedge hb => by
      obtain ⟨hdep, hsrc, m, hm, hkind⟩ := hs.edge hedge hb
      exact ⟨hdep, hsrc, m, hm, hkept hkind⟩
    depends := fun hd => by
      obtain ⟨scope, c, n, hb, hx, hn, hlink⟩ := hs.depends hd
      exact ⟨scope, c, n, hb, hx, hn,
        hlink.imp_right fun ⟨hc, m, hm, hkind⟩ => ⟨hc, m, hm, hkept hkind⟩⟩
    needs := fun hn => by
      obtain ⟨m, hm, hkind⟩ := hs.needs hn
      exact ⟨m, hm, hkept hkind⟩ }

theorem advances_declare (name : Ident) (type : Ty) (hcur : s.scopes.current = s.body)
    (hnm : p.DeclaresVariable s.component name.text) :
    Advances p s ((declare name type).run s).2 := by
  refine of_declare (P := Advances p s) name (fun hunb => ?_) fun d =>
    .of_frame (frame_report d s)
  have hper : s.scopes.Persists (s.scopes.set name.text type) :=
    Scopes.persists_set hunb
  have hgr : Grows s { s with scopes := s.scopes.set name.text type } :=
    { Grows.refl s with scopes := hper }
  refine ⟨hgr, id, id, fun hs => hs.of_linked (hs.toLinked.scopes hper ?_) hgr id⟩
  intro scope n hkind
  rw [Scopes.kindAt_set] at hkind
  split at hkind
  · next hnew =>
    obtain ⟨rfl, -, rfl⟩ := hnew
    exact ⟨s.component, hcur ▸ hs.bodyAt, Or.inr hnm⟩
  · exact hs.kinds hkind

section Variable

variable {d : VarDecl}

theorem run_variableType?_some {e : TypeExpr} (hty : d.type = some e)
    (hreg : s.isRegistered d.name) : ((variableType? k d).run s).2 =
      ((checkValue k (.variable d.name.text) (s.boundType d.name) d.value).run s).2 := by
  unfold variableType?
  rw [hty]
  rw [run_get_bind]
  rw [if_pos hreg]
  rfl

theorem run_variableType?_none (hty : d.type = none) : ((variableType? k d).run s).2 =
    ((declare d.name ((((inferred? k d.value).run s).1).getD .any)).run
      ((inferred? k d.value).run s).2).2 := by
  unfold variableType?
  rw [hty]
  rw [run_bind, run_bind]
  split <;> rfl

/-- What the value of a variable reads is noted. -/
theorem variableType?_spec (hs : Working p s) (hd : Awaits p s s.body s.component (.var d)) :
    Advances p s ((variableType? k d).run s).2 ∧
      (((variableType? k d).run s).2.findings = [] →
        ∀ {scope n}, Reads k s d.value scope n →
          ((variableType? k d).run s).2.Noted scope (s.scopes.qualify scope n)) := by
  cases hty : d.type with
  | some e =>
    have hmb : (Decl.var d).isMember = true := by rw [Decl.isMember, hty]; rfl
    rw [run_variableType?_some hty (hd.ready hmb).1]
    exact ⟨respected_advances.checkValue _ _ _ s, fun hfs scope n hread =>
      covers_checkValue _ _ _ hread hs.toLinking (Shallower.refl s) hfs⟩
  | none =>
    rw [run_variableType?_none hty]
    have hinf : Advances p s ((inferred? k d.value).run s).2 :=
      respected_advances.inferred? d.value s
    have ht := hs.advances hinf
    have hnm : p.DeclaresVariable s.component d.name.text :=
      hd.declared (by rw [Decl.variableName?, hty]; rfl)
    have hdecl := advances_declare d.name ((((inferred? k d.value).run s).1).getD .any) ht.atBody
      (hinf.component ▸ hnm)
    refine ⟨hinf.trans hdecl, fun hfs scope n hread => ?_⟩
    have hnoted := covers_inferred? d.value hread hs.toLinking (Shallower.refl s)
      (hdecl.findings_eq_nil hfs)
    exact hnoted.advances hdecl

theorem checkVariable_spec (hs : Working p s) (hd : Awaits p s s.body s.component (.var d)) :
    Advances p s ((checkVariable k d).run s).2 ∧
      (((checkVariable k d).run s).2.findings = [] →
        ∀ {scope n}, Reads k s d.value scope n →
          ((checkVariable k d).run s).2.Noted scope (s.scopes.qualify scope n)) := by
  obtain ⟨hadv, hnoted⟩ := variableType?_spec (k := k) hs hd
  have hdecs : Advances p ((variableType? k d).run s).2 ((checkVariable k d).run s).2 := by
    unfold checkVariable
    rw [run_bind]
    split
    · exact respected_advances.runDecorators _ _ _ _ _
    · exact Std.Refl.refl _
  exact ⟨hadv.trans hdecs, fun hfs scope n hread =>
    (hnoted (hdecs.findings_eq_nil hfs) hread).advances hdecs⟩

end Variable

/-! ### Functions -/

theorem frame_declareParams (ps : List Param) {types : List Ty}
    (h : ∀ type ∈ types, type.kind? = none) : Moves Frame (declareParams ps types) := by
  induction ps generalizing types with
  | nil => cases types <;> exact Moves.pure _
  | cons q ps ih =>
    cases types with
    | nil => exact Moves.pure _
    | cons type types =>
      rw [declareParams]
      exact Moves.bind (frame_declare q.name (h type mem_cons_self)) fun _ =>
        ih fun t ht => h t (mem_cons_of_mem _ ht)

theorem steady_declare (name : Ident) (type : Ty) (h : Steady s t) :
    Steady ((declare name type).run s).2 ((declare name type).run t).2 := by
  unfold declare
  rw [run_get_bind, run_get_bind]
  rw [h.scopes]
  cases s.scopes.declare name.text type with
  | ok e => exact ⟨rfl, h.aliases, h.depth⟩
  | error d => exact ⟨h.scopes, h.aliases, h.depth⟩

theorem steady_declareParams (ps : List Param) (types : List Ty) (h : Steady s t) :
    Steady ((declareParams ps types).run s).2 ((declareParams ps types).run t).2 := by
  induction ps generalizing types s t with
  | nil => cases types <;> exact h
  | cons q ps ih =>
    cases types with
    | nil => exact h
    | cons type types =>
      rw [declareParams, run_bind, run_bind]
      exact ih types (steady_declare q.name type h)

/-- The session in a new scope inside the current one. -/
def inChild (s : Session) : Session :=
  ({ s with scopes := (s.scopes.newChild none).2 } : Session).within s.scopes.all.length

/-- The session in which the body of a function is read. -/
def withParams (s : Session) (ps : List Param) (types : List Ty) : Session :=
  ((declareParams ps types).run s.inChild).2

theorem Linking.inChild (hs : Linking p s) (hcur : s.scopes.current = s.body) :
    Linking p s.inChild where
  toLinked := hs.toLinked.agrees ((frame_newChild s none).toAgrees.trans (agrees_within _ _))
  bodyAt := hs.bodyAt
  current := by
    have hpar : (s.inChild.scopes.scope s.scopes.all.length).parent = some s.scopes.current :=
      congrArg Scope.parent Scopes.scope_newChild
    have hlt : s.scopes.all.length < s.inChild.scopes.all.length := by
      show s.scopes.all.length < (s.scopes.all ++ [_]).length
      rw [length_append]
      exact Nat.lt_succ_self _
    refine Or.inr ⟨hlt, hpar.trans (congrArg some hcur), fun c hc => ?_⟩
    exact lt_irrefl _ (hs.lt (c := c) hc)
  reader hr := ⟨(hs.reader hr).isListed, (hs.reader hr).declared⟩

def checkBody (k : Checker) (d : FunDecl) (result : Ty) : Checking (Option Ty) := do
  match d.result with
  | some _ =>
    checkValue k (.functionBody d.name.text) result d.body
    return none
  | none => inferred? k d.body

section Function

variable {d : FunDecl} {params : List Ty} {result : Ty}

theorem Valued.checkBody {R : Session → Session → Prop} [IsPreorder Session R]
    (h : Valued k R) : Moves R (checkBody k d result) := by
  unfold Session.checkBody
  split
  · exact Moves.bind (h.checkValue _ _ _) fun _ => Moves.pure _
  · exact h.inferred? d.body

theorem covers_checkBody : Covers k p d.body (checkBody k d result) := by
  unfold checkBody
  split
  · exact (covers_checkValue _ _ _).bind_left fun _ => Moves.pure _
  · exact covers_inferred? d.body

theorem run_bodyType? : ((bodyType? k d params result).run s).2 =
    ((checkBody k d result).run (s.withParams d.params params)).2.within s.scopes.current := rfl

theorem advances_withParams (hps : ∀ param ∈ params, param.kind? = none) :
    Advances p s.inChild (s.withParams d.params params) :=
  .of_frame (frame_declareParams d.params hps s.inChild)

theorem advances_bodyType? (hcur : s.scopes.current = s.body)
    (hps : ∀ param ∈ params, param.kind? = none) :
    Advances p s ((bodyType? k d params result).run s).2 := by
  rw [run_bodyType?]
  have hin : Advances p s.inChild
      ((checkBody k d result).run (s.withParams d.params params)).2 :=
    (advances_withParams hps).trans (respected_advances.checkBody _)
  have hgr := (frame_newChild s none).grows.trans hin.toGrows.within_back
  refine ⟨hgr, hin.bodyAt_of, hin.depends, fun hs => ?_⟩
  have hlnk := (hin.linking (hs.inChild hcur)).toLinked
  exact hs.of_linked (hlnk.agrees (agrees_within _ _)) hgr hin.bodyAt_of

theorem noted_bodyType? (hs : Working p s) (hps : ∀ param ∈ params, param.kind? = none)
    (hfs : ((bodyType? k d params result).run s).2.findings = []) (hst : Steady t s)
    (hread : Reads k (t.withParams d.params params) d.body scope n) :
    ((bodyType? k d params result).run s).2.Noted scope
      ((t.withParams d.params params).scopes.qualify scope n) := by
  have hlinking : Linking p (s.withParams d.params params) :=
    (advances_withParams hps).linking (hs.toLinking.inChild hs.atBody)
  have hch : Steady t.inChild s.inChild := by
    refine ⟨?_, hst.aliases, hst.depth⟩
    unfold inChild
    rw [hst.scopes]
    rfl
  have hstd : Steady (t.withParams d.params params) (s.withParams d.params params) :=
    steady_declareParams d.params params hch
  exact covers_checkBody hread hlinking hstd.shallower hfs

theorem exists_function {type : Ty} (h : type.params? = some params) :
    ∃ result, type = .function params result := by
  cases type with
  | function _ result =>
    cases h
    exact ⟨result, rfl⟩
  | _ => cases h

/-- What the body of a function reads is noted, its parameters being no instances. -/
theorem checkFunction_spec (hs : Working p s)
    (hbd : Table.find? (s.scopes.bindings s.scopes.current) d.name.text =
      some (.function params result)) (hps : ∀ param ∈ params, param.kind? = none) :
    Advances p s ((checkFunction k d).run s).2 ∧
      (((checkFunction k d).run s).2.findings = [] →
        ∀ {scope n}, Reads k (s.withParams d.params params) d.body scope n →
          ((checkFunction k d).run s).2.Noted scope
            ((s.withParams d.params params).scopes.qualify scope n)) := by
  have hty : s.boundType d.name = .function params result := by
    rw [boundType, Scopes.get?, hbd, Option.getD_some]
  unfold checkFunction
  rw [run_get_bind]
  rw [hty, run_bind]
  rw [run_bind]
  generalize hs₁ : ((runDecorators k d.decorations ⟨.function, d.name.text, false⟩
    (.function params result) none).run s).2 = s₁
  have hdecs : Advances p s s₁ := hs₁ ▸ respected_advances.runDecorators _ _ _ _ s
  have hstd : Steady s s₁ := hs₁ ▸ steady_runDecorators _ _ _ _ s
  have hworking := hs.advances hdecs
  have hbody : Advances p s₁ ((bodyType? k d params result).run s₁).2 :=
    advances_bodyType? hworking.atBody hps
  -- the function stays bound to a function of these parameters
  have hset : ∀ body, Frame ((bodyType? k d params result).run s₁).2
      { ((bodyType? k d params result).run s₁).2 with
        scopes := ((bodyType? k d params result).run s₁).2.scopes.set d.name.text
          (.function params body) } := by
    intro body
    have hgr := hdecs.toGrows.trans hbody.toGrows
    obtain ⟨type, hfind, halike⟩ := hgr.scopes.bound _ _ _ hbd
    have hsame : type.params? = some params := halike.params?
    obtain ⟨result', rfl⟩ := exists_function hsame
    rw [← hgr.current] at hfind
    exact frame_scopes (Scopes.keeps_set_function hfind) rfl
  have hnoted : ((bodyType? k d params result).run s₁).2.findings = [] →
      ∀ {scope n}, Reads k (s.withParams d.params params) d.body scope n →
        ((bodyType? k d params result).run s₁).2.Noted scope
          ((s.withParams d.params params).scopes.qualify scope n) :=
    fun hfs scope n hread => noted_bodyType? hworking hps hfs hstd hread
  split
  · next body _ =>
    have hlast : Advances p ((bodyType? k d params result).run s₁).2 _ := .of_frame (hset body)
    exact ⟨(hdecs.trans hbody).trans hlast, fun hfs scope n hread =>
      (hnoted hfs hread).advances hlast⟩
  · exact ⟨hdecs.trans hbody, hnoted⟩

end Function

/-! ### Any declaration of a body -/

/-- The session in which the expressions of a declaration are read. -/
def readingIn (s : Session) : Decl → Session
  | .function d =>
    match s.boundType d.name with
    | .function params _ => s.withParams d.params params
    | _ => s
  | _ => s

/-- A declaration was checked. Without findings the component around it needs whatever of the top
level the expressions of the declaration read. -/
structure Settles (k : Checker) (p : Program) (s : Session) (d : Decl) (t : Session) : Prop where
  advances : Advances p s t
  needs : t.findings = [] → ∀ e ∈ d.exprs, ∀ {n}, Reads k (s.readingIn d) e ScopeId.global n →
    ∀ comp, s.component = some comp → t.Needs comp n

theorem Settles.of_noted (hadv : Advances p s t) (hreading : Placed (s.readingIn d))
    (hnoted : t.findings = [] → ∀ e ∈ d.exprs, ∀ {scope n}, Reads k (s.readingIn d) e scope n →
      t.Noted scope ((s.readingIn d).scopes.qualify scope n)) : Settles k p s d t where
  advances := hadv
  needs hfs e he n hread comp hc := by
    have hneeds := (hnoted hfs e he hread).2 comp (hadv.component.trans hc) rfl
    rwa [hreading.qualify hreading.top] at hneeds

theorem readingIn_instance (hn : d.instanceName? = some n) : s.readingIn d = s := by
  cases d with
  | function d => cases hn
  | _ => rfl

theorem moves_ifRegistered {R : Session → Session → Prop} [IsPreorder Session R] (name : Ident)
    {act : Checking Unit} (h : Moves R act) : Moves R (ifRegistered name act) := by
  unfold ifRegistered
  refine Moves.get_bind fun s => ?_
  split
  · exact h s
  · exact Std.Refl.refl s

theorem settles_instance (hs : Working p s) (hd : Awaits p s s.body s.component d)
    (hn : d.instanceName? = some n) : Settles k p s d ((checkDecl k d).run s).2 where
  advances := advances_checkDecl_instance hs hd hn
  needs hfs e he m hread comp hc := by
    rw [readingIn_instance hn] at hread
    have hneeds := (depends_checkDecl hs hd hn hfs he hread).2 comp hc rfl
    rwa [hs.qualify hs.top] at hneeds

theorem settles_function (hs : Working p s) {d : FunDecl}
    (hd : Awaits p s s.body s.component (.function d)) :
    Settles k p s (.function d) ((checkDecl k (.function d)).run s).2 := by
  obtain ⟨hreg, type, params, hbd, hty, hps⟩ := hd.ready rfl
  obtain ⟨result, rfl⟩ := exists_function hty
  rw [← hs.atBody] at hbd
  have hreading : s.readingIn (.function d) = s.withParams d.params params := by
    rw [readingIn, boundType, Scopes.get?, hbd]
    rfl
  rw [checkDecl, run_ifRegistered d.name hreg]
  obtain ⟨hadv, hnoted⟩ := checkFunction_spec (k := k) hs hbd hps
  have hin : Linking p (s.withParams d.params params) :=
    (advances_withParams hps).linking (hs.toLinking.inChild hs.atBody)
  refine Settles.of_noted hadv (hreading ▸ hin.toPlaced)
    fun hfs e he scope n hread => ?_
  obtain rfl := mem_singleton.mp he
  rw [hreading] at hread ⊢
  exact hnoted hfs hread

/-- What the expressions of a declaration read is noted by its check. -/
theorem settles_checkDecl (hs : Working p s) (hd : Awaits p s s.body s.component d)
    (hflat : d.isComponent = false) : Settles k p s d ((checkDecl k d).run s).2 := by
  cases d with
  | schema d =>
    rw [checkDecl]
    exact Settles.of_noted (moves_ifRegistered _ (respected_advances.checkSchema d) s) hs.toPlaced
      fun _ e he => (not_mem_nil he).elim
  | resource d => exact settles_instance hs hd rfl
  | component _ _ _ _ => cases hflat
  | inst d => exact settles_instance hs hd rfl
  | input d =>
    rw [checkDecl, run_ifRegistered d.name (hd.ready rfl).1]
    exact Settles.of_noted (respected_advances.checkInput d s) hs.toPlaced
      fun hfs e he scope n hread =>
        covers_checkInput d he hread hs.toLinking (Shallower.refl s) hfs
  | output d =>
    rw [checkDecl, run_ifRegistered d.name (hd.ready rfl).1]
    exact Settles.of_noted (respected_advances.checkOutput d s) hs.toPlaced
      fun hfs e he scope n hread =>
        covers_checkOutput d he hread hs.toLinking (Shallower.refl s) hfs
  | var d =>
    rw [checkDecl]
    obtain ⟨hadv, hnoted⟩ := checkVariable_spec (k := k) hs hd
    refine Settles.of_noted hadv hs.toPlaced fun hfs e he scope n hread => ?_
    obtain rfl := mem_singleton.mp he
    exact hnoted hfs hread
  | function d => exact settles_function hs hd
  | «alias» d =>
    rw [checkDecl]
    exact Settles.of_noted ((respected_advances (k := k)).checkAlias d s) hs.toPlaced
      fun _ e he => (not_mem_nil he).elim

/-! ### All declarations -/

theorem run_checkDecls_cons (d : Decl) (ds : List Decl) :
    (checkDecls k (d :: ds)).run s = (checkDecls k ds).run ((checkDecl k d).run s).2 := by
  rw [checkDecls, run_bind]

theorem run_checkDecls_append (ds ds' : List Decl) :
    (checkDecls k (ds ++ ds')).run s = (checkDecls k ds').run ((checkDecls k ds).run s).2 := by
  induction ds generalizing s with
  | nil => rw [nil_append, checkDecls, run_pure]
  | cons d ds ih => rw [cons_append, checkDecls, run_bind, ih, checkDecls, run_bind]

theorem advances_members {ds : List Decl} (hs : Working p s)
    (hds : ∀ d ∈ ds, Awaits p s s.body s.component d ∧ d.isComponent = false) :
    Advances p s ((checkDecls k ds).run s).2 := by
  induction ds generalizing s with
  | nil =>
    rw [checkDecls, run_pure]
    exact Std.Refl.refl s
  | cons d ds ih =>
    rw [checkDecls, run_bind]
    obtain ⟨hd, hflat⟩ := hds d mem_cons_self
    have hfst : Advances p s ((checkDecl k d).run s).2 := (settles_checkDecl hs hd hflat).advances
    refine hfst.trans (ih (hs.advances hfst) fun d' hd' => ?_)
    rw [hfst.body, hfst.component]
    obtain ⟨hawaits, hflat'⟩ := hds d' (mem_cons_of_mem d hd')
    exact ⟨hawaits.grows hfst.toGrows, hflat'⟩

end Provision.Session
