import Provision.Proofs.Session.Inference
import Provision.Session.Checking

/-!
# Checking the parts of declarations

What reports, inference and decorators do to a session, every check that is made of them does
(`Session.Respected`). What the values of a declaration read is noted (`Session.Covers`): what an
initialiser reads for its instance (`Session.depends_checkInits`), and what lies outside of a
component for that component. The references of the decorators of an instance are followed in the
same way (`Session.depends_checkInstanceDecorators`).
-/

namespace Provision.Session

open List

variable {k : Checker} {p : Program} {s t : Session} {decorator : Decorator} {site : Site}
  {type : Ty} {references : List Reference} {value : Option Expr} {d : Decoration}
  {ds : List Decoration}

/-! ### What the parts of a check do -/

section Moves

variable {R : Session → Session → Prop} [IsPreorder Session R]

theorem moves_runDecorations (hrep : ∀ d, Moves R (report d))
    (hdefer : ∀ decorator d site value, Moves R (defer decorator d site value)) (site : Site)
    (type : Ty) (value : Option Expr) (references : List Reference) (ds : List Decoration) :
    Moves R (runDecorations k site type value references ds) := by
  induction ds generalizing references with
  | nil => exact Moves.pure _
  | cons d ds ih =>
    rw [runDecorations]
    split
    · exact Moves.pure _
    · split
      · exact Moves.bind (hrep _) fun _ => Moves.pure _
      · dsimp only
        split
        · exact Moves.bind (hdefer _ _ _ _) fun _ => ih _
        · exact ih _

theorem moves_runDecorators (hrep : ∀ d, Moves R (report d))
    (hdefer : ∀ decorator d site value, Moves R (defer decorator d site value))
    (ds : List Decoration) (site : Site) (type : Ty) (value : Option Expr) :
    Moves R (runDecorators k ds site type value) := by
  unfold runDecorators
  refine Moves.get_bind fun s => ?_
  split
  · exact Std.Refl.refl s
  · exact moves_runDecorations hrep hdefer site type value [] ds s

theorem moves_linkAll (hrep : ∀ d, Moves R (report d))
    (hdep : ∀ x scope y kind, Moves R (depend x scope y kind)) (x : String)
    (refs : List Reference) : Moves R (linkAll x refs) := by
  induction refs with
  | nil => exact Moves.pure _
  | cons r refs ih =>
    intro s
    rw [run_linkAll_cons]
    split
    · exact IsTrans.trans (r := R) _ _ _ (hdep x _ _ .explicit s) (ih _)
    · exact IsTrans.trans (r := R) _ _ _ (hrep _ s) (ih _)

/-- A relation that findings and expressions stay in. -/
structure Valued (k : Checker) (R : Session → Session → Prop) : Prop where
  report : ∀ d, Moves R (report d)
  infer : ∀ e expected, Moves R (infer k e expected).run

namespace Valued

variable (h : Valued k R)
include h

theorem checkValue (subject : Subject) (type : Ty) (e : Expr) :
    Moves R (checkValue k subject type e) := by
  unfold Session.checkValue
  refine Moves.bind (h.infer e _) fun found => ?_
  cases found with
  | ok found =>
    dsimp only
    split
    · exact Moves.pure _
    · exact h.report _
  | error d => exact h.report d

theorem checkValue? (subject : Subject) (type : Ty) (value : Option Expr) :
    Moves R (checkValue? k subject type value) := by
  cases value with
  | none => exact Moves.pure _
  | some e => exact h.checkValue subject type e

theorem inferred? (e : Expr) : Moves R (inferred? k e) := by
  unfold Session.inferred?
  refine Moves.bind (h.infer e _) fun found => ?_
  cases found with
  | ok found => exact Moves.pure _
  | error d => exact Moves.bind (h.report d) fun _ => Moves.pure _

theorem checkFields (holder : Holder) (fields : Table Ty) (seen : List String)
    (inits : List Init) : Moves R (checkFields k holder fields seen inits) := by
  induction inits generalizing seen with
  | nil => exact Moves.pure _
  | cons i inits ih =>
    rw [Session.checkFields]
    split
    · exact Moves.bind (h.report _) fun _ => ih seen
    · split
      · exact Moves.bind (h.checkValue _ _ _) fun _ => ih _
      · exact Moves.bind (h.report _) fun _ => Moves.bind (h.infer i.value none) fun _ => ih _

theorem checkRequired (holder : Holder) (span : Span) (given required : List String) :
    Moves R (checkRequired holder span given required) := by
  induction required with
  | nil => exact Moves.pure _
  | cons n required ih =>
    rw [Session.checkRequired]
    split
    · exact ih
    · exact Moves.bind (h.report _) fun _ => ih

end Valued

structure Respected (k : Checker) (R : Session → Session → Prop) : Prop extends Valued k R where
  runDecorators : ∀ ds site type value, Moves R (runDecorators k ds site type value)

namespace Respected

variable (h : Respected k R)
include h

theorem checkProperties (schema : String) (types : Table Ty) (props : List SchemaProperty) :
    Moves R (checkProperties k schema types props) := by
  induction props with
  | nil => exact Moves.pure _
  | cons q props ih =>
    rw [Session.checkProperties]
    exact Moves.bind (h.runDecorators _ _ _ _) fun _ =>
      Moves.bind (h.checkValue? _ _ _) fun _ => ih

theorem checkSchema (d : SchemaDecl) : Moves R (checkSchema k d) := by
  unfold Session.checkSchema
  exact Moves.get_bind fun s => Moves.bind (h.runDecorators _ _ _ _)
    (fun _ => h.checkProperties _ _ _) s

theorem checkInput (d : InputDecl) : Moves R (checkInput k d) := by
  unfold Session.checkInput
  exact Moves.get_bind fun s => Moves.bind (h.runDecorators _ _ _ _)
    (fun _ => h.checkValue? _ _ _) s

theorem checkOutput (d : OutputDecl) : Moves R (checkOutput k d) := by
  unfold Session.checkOutput
  exact Moves.get_bind fun s => Moves.bind (h.runDecorators _ _ _ _)
    (fun _ => h.checkValue? _ _ _) s

theorem checkAlias (d : AliasDecl) : Moves R (checkAlias d) := by
  unfold Session.checkAlias
  split
  · refine Moves.get_bind fun s => ?_
    split
    · exact Std.Refl.refl s
    · exact h.report _ s
  · exact Moves.pure _

end Respected

end Moves

theorem frame_runDecorators (ds : List Decoration) (site : Site) (type : Ty) (value : Option Expr) :
    Moves Frame (runDecorators k ds site type value) :=
  moves_runDecorators frame_report (fun _ _ _ _ s => { Frame.refl s with }) ds site type value

theorem steady_runDecorators (ds : List Decoration) (site : Site) (type : Ty)
    (value : Option Expr) : Moves Steady (runDecorators k ds site type value) :=
  moves_runDecorators steady_report (fun _ _ _ _ _ => ⟨rfl, rfl, rfl⟩) ds site type value

theorem respected_advances : Respected k (Advances p) where
  report d s := .of_frame (frame_report d s)
  infer := advances_infer
  runDecorators ds site type value s := .of_frame (frame_runDecorators ds site type value s)

theorem respected_steady : Respected k Steady where
  report := steady_report
  infer := steady_infer
  runDecorators := steady_runDecorators

/-! ### Expressions of a declaration -/

/-- A check looks at an expression, so that all that it reads is noted unless there is a finding. -/
def Covers (k : Checker) (p : Program) (e : Expr) (m : Checking α) : Prop :=
  ∀ ⦃s t : Session⦄ ⦃scope : ScopeId⦄ ⦃n : String⦄, Reads k s e scope n → Linking p t →
    Shallower t s → (m.run t).2.findings = [] →
      (m.run t).2.Noted scope (s.scopes.qualify scope n)

theorem Covers.bind_left {e : Expr} {m : Checking α} {f : α → Checking β} (hm : Covers k p e m)
    (hf : ∀ a, Moves (Advances p) (f a)) : Covers k p e (m >>= f) := by
  intro s t scope n hread ht hts hfs
  have hrest := hf (m.run t).1 (m.run t).2
  exact (hm hread ht hts (hrest.findings_eq_nil hfs)).advances hrest

theorem Covers.bind_right {e : Expr} {m : Checking α} {f : α → Checking β}
    (hadv : Moves (Advances p) m) (hstd : Moves Steady m)
    (hf : ∀ a, Covers k p e (f a)) : Covers k p e (m >>= f) := by
  intro s t scope n hread ht hts hfs
  exact hf _ hread ((hadv t).linking ht) ((hstd t).shallower.trans hts) hfs

theorem Covers.of_report {e : Expr} (d : Diagnostic) {f : Unit → Checking β}
    (hf : ∀ a, Moves (Advances p) (f a)) : Covers k p e (report d >>= f) := by
  intro s t scope n _ _ _ hfs
  have hnil := (hf () ((report d).run t).2).findings_eq_nil hfs
  exact absurd hnil (concat_ne_nil _ _)

theorem run_checkValue (subject : Subject) (type : Ty) (e : Expr) :
    ((checkValue k subject type e).run s).2 =
      match ((infer k e (some type)).run.run s).1 with
      | .ok found =>
        if found.assignable type then ((infer k e (some type)).run.run s).2
        else ((report (.typeError (.mismatch subject type found) e.span)).run
          ((infer k e (some type)).run.run s).2).2
      | .error d => ((report d).run ((infer k e (some type)).run.run s).2).2 := by
  unfold checkValue
  rw [run_bind]
  cases ((infer k e (some type)).run.run s).1 with
  | ok found =>
    dsimp only
    split <;> rfl
  | error d => rfl

theorem covers_checkValue (subject : Subject) (type : Ty) (e : Expr) :
    Covers k p e (checkValue k subject type e) := by
  intro s t scope n hread ht hts hfs
  rw [run_checkValue] at hfs ⊢
  split at hfs
  · next found hfound =>
    have hnoted := noted_infer hread ht hts hfound
    split at hfs
    · next hasg =>
      rw [if_pos hasg]
      exact hnoted
    · exact absurd hfs (concat_ne_nil _ _)
  · exact absurd hfs (concat_ne_nil _ _)

/-! ### Initialisers -/

theorem covers_checkFields (holder : Holder) (fields : Table Ty) (seen : List String)
    {inits : List Init} {i : Init} (hi : i ∈ inits) :
    Covers k p i.value (checkFields k holder fields seen inits) := by
  induction inits generalizing seen with
  | nil => exact (not_mem_nil hi).elim
  | cons j inits ih =>
    rw [checkFields]
    split
    · exact Covers.of_report _ fun _ => respected_advances.checkFields _ _ _ _
    · split
      · rcases mem_cons.mp hi with rfl | hi
        · exact (covers_checkValue _ _ _).bind_left fun _ => respected_advances.checkFields _ _ _ _
        · exact Covers.bind_right (respected_advances.checkValue _ _ _)
            (respected_steady.checkValue _ _ _) fun _ => ih _ hi
      · exact Covers.of_report _ fun _ => Moves.bind (advances_infer j.value none) fun _ =>
          respected_advances.checkFields _ _ _ _

def readingFor (s : Session) (x : String) : Session := { s with reader := some x }

theorem Linking.readingFor (hs : Linking p s) {x : String} (hx : IsReader p s x) :
    Linking p (s.readingFor x) where
  toLinked := hs.toLinked.agrees { Agrees.refl s with }
  bodyAt := hs.bodyAt
  current := hs.current
  reader := by
    rintro r ⟨⟩
    exact ⟨hx.isListed, hx.declared⟩

def initialise (k : Checker) (holder : Holder) (span : Span) (fields : Table Ty)
    (required : List String) (inits : List Init) : Checking Unit := do
  checkFields k holder fields [] inits
  checkRequired holder span (inits.map (·.name.text)) required

section Inits

variable {x : String} {holder : Holder} {span : Span} {fields : Table Ty} {required : List String}
  {inits : List Init}

theorem Valued.initialise {R : Session → Session → Prop} [IsPreorder Session R]
    (h : Valued k R) : Moves R (initialise k holder span fields required inits) :=
  Moves.bind (h.checkFields holder fields [] inits) fun _ => h.checkRequired holder span _ required

theorem covers_initialise {i : Init} (hi : i ∈ inits) :
    Covers k p i.value (initialise k holder span fields required inits) :=
  (covers_checkFields holder fields [] hi).bind_left
    fun _ => (respected_advances (k := k)).checkRequired holder span _ required

theorem run_checkInits : ((checkInits k x holder span fields required inits).run s).2 =
    { ((initialise k holder span fields required inits).run (s.readingFor x)).2 with
      reader := s.reader } := rfl

theorem advances_checkInits (hx : IsReader p s x) :
    Advances p s ((checkInits k x holder span fields required inits).run s).2 := by
  have hin : Advances p (s.readingFor x)
      ((initialise k holder span fields required inits).run (s.readingFor x)).2 :=
    respected_advances.initialise _
  rw [run_checkInits]
  have hgr : Grows s { ((initialise k holder span fields required inits).run
      (s.readingFor x)).2 with reader := s.reader } := { hin.toGrows with reader := rfl }
  refine ⟨hgr, hin.bodyAt_of, hin.depends, fun hs => ?_⟩
  exact hs.of_linked ((hin.linking (hs.readingFor hx)).toLinked.agrees { Agrees.refl _ with })
    hgr hin.bodyAt_of

/-- What the initialisers of an instance read is noted for the instance. -/
theorem depends_checkInits (hs : Linking p s) (hx : IsReader p s x)
    (hfs : ((checkInits k x holder span fields required inits).run s).2.findings = [])
    {i : Init} (hi : i ∈ inits) (hst : Shallower s t) {scope : ScopeId} {n : String}
    (hread : Reads k t i.value scope n) :
    ((checkInits k x holder span fields required inits).run s).2.Depends x
        (t.scopes.qualify scope n) ∧
      ∀ comp, s.component = some comp → scope = ScopeId.global →
        ((checkInits k x holder span fields required inits).run s).2.Needs comp
          (t.scopes.qualify scope n) := by
  have hin : Advances p (s.readingFor x)
      ((initialise k holder span fields required inits).run (s.readingFor x)).2 :=
    respected_advances.initialise _
  rw [run_checkInits] at hfs ⊢
  obtain ⟨hdep, hneeds⟩ := covers_initialise hi hread (hs.readingFor hx)
    ⟨hst.scopes, hst.aliases, hst.depth_le⟩ hfs
  exact ⟨hdep x hin.reader, fun comp hc => hneeds comp (hin.component.trans hc)⟩

end Inits

/-! ### Decorators -/

/-- Checking a decoration is checking its target and its type, and gives the references of the
first. -/
theorem checkSite_eq_ok {a : Decoration} (h : checkSite decorator a site type = .ok references) :
    decorator.checkTarget a site = .ok references ∧ decorator.checkType a site type = .ok () := by
  unfold checkSite at h
  cases htgt : decorator.checkTarget a site with
  | error d =>
    rw [htgt] at h
    cases h
  | ok found =>
    rw [htgt] at h
    have h : (decorator.checkType a site type >>= fun _ => pure found) = .ok references := h
    cases hty : decorator.checkType a site type with
    | error d =>
      rw [hty] at h
      cases h
    | ok =>
      rw [hty] at h
      exact ⟨h, rfl⟩

/-- A decoration passes the checks of its decorator, which gives references. -/
def PassesAt (k : Checker) (site : Site) (type : Ty) (a : Decoration)
    (references : List Reference) : Prop :=
  ∃ decorator, k.registry.get? a.name.text = some decorator ∧
    checkSite decorator a site type = .ok references

/-- A decoration does not pass the checks of its decorator. -/
def FailsAt (k : Checker) (site : Site) (type : Ty) (a : Decoration) (finding : Diagnostic) :
    Prop :=
  ∃ decorator, k.registry.get? a.name.text = some decorator ∧
    checkSite decorator a site type = .error finding

/-- The check that a decoration leaves for later, if its decorator has one. -/
def deferral? (k : Checker) (s : Session) (site : Site) (value : Option Expr) (a : Decoration) :
    Option DeferredCheck :=
  (k.registry.get? a.name.text).bind fun decorator =>
    if decorator.spec.deferred then
      some {
        decorator
        args := a.args
        target := s.qualified site.name
        default := value.bind Value.ofExpr?
        span := a.span }
    else none

/-- Decorations run up to the first that finds something, which leaves no references. -/
theorem run_runDecorations (site : Site) (type : Ty) (value : Option Expr) {ds : List Decoration}
    (hknown : ∀ a ∈ ds, (k.registry.get? a.name.text).isSome) (s : Session)
    (references : List Reference) :
    (∃ before a after finding, ds = before ++ a :: after ∧
      (∀ b ∈ before, ∃ refs, PassesAt k site type b refs) ∧ FailsAt k site type a finding ∧
      (runDecorations k site type value references ds).run s =
        ([], { s with
          findings := s.findings ++ [finding]
          deferred := s.deferred ++ before.filterMap (s.deferral? k site value) })) ∨
    ∃ more, (∀ a ∈ ds, ∃ refs, PassesAt k site type a refs ∧ refs ⊆ more) ∧
      (∀ r ∈ more, ∃ a ∈ ds, ∃ refs, PassesAt k site type a refs ∧ r ∈ refs) ∧
      (runDecorations k site type value references ds).run s =
        (references ++ more, { s with
          deferred := s.deferred ++ ds.filterMap (s.deferral? k site value) }) := by
  induction ds generalizing s references with
  | nil =>
    refine Or.inr ⟨[], forall_mem_nil _, forall_mem_nil _, ?_⟩
    rw [runDecorations, run_pure, append_nil, filterMap_nil, append_nil]
  | cons a ds ih =>
    obtain ⟨ha, hknown⟩ := forall_mem_cons.mp hknown
    obtain ⟨decorator, hdec⟩ := Option.isSome_iff_exists.mp ha
    cases hsite : checkSite decorator a site type with
    | error finding =>
      refine Or.inl ⟨[], a, ds, finding, rfl, forall_mem_nil _, ⟨decorator, hdec, hsite⟩,
        ?_⟩
      rw [runDecorations, hdec]
      dsimp only
      rw [hsite, filterMap_nil, append_nil]
      rfl
    | ok refs =>
      have hpasses : PassesAt k site type a refs := ⟨decorator, hdec, hsite⟩
      -- what the decoration leaves for later, whether or not it has something
      have hstep : (runDecorations k site type value references (a :: ds)).run s =
          (runDecorations k site type value (references ++ refs) ds).run
            { s with deferred := s.deferred ++ (s.deferral? k site value a).toList } := by
        rw [runDecorations, deferral?, hdec]
        dsimp only
        rw [hsite, Option.bind_some]
        dsimp only
        by_cases hdef : decorator.spec.deferred = true
        · rw [if_pos hdef, if_pos hdef]
          rfl
        · rw [if_neg hdef, if_neg hdef, Option.toList_none, append_nil]
      have hcons : ∀ before : List Decoration,
          s.deferred ++ (s.deferral? k site value a).toList ++
            before.filterMap (s.deferral? k site value) =
              s.deferred ++ (a :: before).filterMap (s.deferral? k site value) := by
        intro before
        rw [append_assoc, filterMap_cons]
        cases s.deferral? k site value a <;> rfl
      rw [hstep]
      rcases ih hknown { s with deferred := s.deferred ++ (s.deferral? k site value a).toList }
          (references ++ refs) with
        ⟨before, b, after, finding, rfl, hbef, hb, hrun⟩ | ⟨more, hall, hmore, hrun⟩
      · refine Or.inl ⟨a :: before, b, after, finding, rfl,
          forall_mem_cons.mpr ⟨⟨refs, hpasses⟩, hbef⟩, hb, hrun.trans ?_⟩
        rw [← hcons before]
        rfl
      · have hall' : ∀ b ∈ ds, ∃ found, PassesAt k site type b found ∧ found ⊆ refs ++ more :=
          fun b hb => (hall b hb).imp fun _ h =>
            ⟨h.1, Subset.trans h.2 (subset_append_right refs more)⟩
        refine Or.inr ⟨refs ++ more, forall_mem_cons.mpr
          ⟨⟨refs, hpasses, subset_append_left refs more⟩, hall'⟩, fun r hr => ?_, hrun.trans ?_⟩
        · rcases mem_append.mp hr with hr | hr
          · exact ⟨a, mem_cons_self, refs, hpasses, hr⟩
          · obtain ⟨b, hb, hr⟩ := hmore r hr
            exact ⟨b, mem_cons_of_mem a hb, hr⟩
        · rw [← hcons ds, append_assoc]
          rfl

/-- If nothing is found, then all decorations pass. -/
theorem run_runDecorators (hhlt : s.halted = [])
    (hknown : ∀ d ∈ ds, (k.registry.get? d.name.text).isSome)
    (hfs : ((runDecorators k ds site type value).run s).2.findings = []) :
    ∃ found, (∀ a ∈ ds, ∃ refs, PassesAt k site type a refs ∧ refs ⊆ found) ∧
      (runDecorators k ds site type value).run s =
        (found, { s with deferred := s.deferred ++ ds.filterMap (s.deferral? k site value) }) := by
  have hrun : (runDecorators k ds site type value).run s =
      (runDecorations k site type value [] ds).run s := by
    unfold runDecorators
    rw [run_get_bind]
    cases ds with
    | nil => rfl
    | cons first rest => rw [if_neg (by simp [isHalted, hhlt])]
  rw [hrun] at hfs ⊢
  rcases run_runDecorations site type value hknown s [] with
    ⟨_, _, _, _, -, -, -, hrun⟩ | ⟨more, hall, -, hrun⟩
  · rw [hrun] at hfs
    exact absurd hfs (concat_ne_nil _ _)
  · exact ⟨more, hall, hrun⟩

theorem frame_recordDecorations (x : String) (ds : List Decoration) :
    Moves Frame (recordDecorations x ds) := fun s =>
  { Frame.refl s with
    dependencies? := by
      intro y
      unfold recordDecorations
      rw [dependencies?_modifyInstance]
      split
      · rfl
      · rfl }

section InstanceDecorators

variable {ds : List Decoration} {target : Target} {n : String} {type : Ty}

theorem run_checkInstanceDecorators :
    ((checkInstanceDecorators k ds target n type).run s).2 =
      ((recordDecorations (s.qualified n) ds).run
        ((linkAll (s.qualified n) ((runDecorators k ds ⟨target, n, false⟩ type none).run s).1).run
          ((runDecorators k ds ⟨target, n, false⟩ type none).run s).2).2).2 := rfl

theorem advances_checkInstanceDecorators (hx : IsReader p s (s.qualified n)) :
    Advances p s ((checkInstanceDecorators k ds target n type).run s).2 := by
  rw [run_checkInstanceDecorators]
  have hrun := frame_runDecorators (k := k) ds ⟨target, n, false⟩ type none s
  have hlink := advances_linkAll ((runDecorators k ds ⟨target, n, false⟩ type none).run s).1
    (hx.grows hrun.grows)
  exact ((Advances.of_frame hrun).trans hlink).trans (.of_frame (frame_recordDecorations _ ds _))

theorem moves_checkInstanceDecorators {R : Session → Session → Prop} [IsPreorder Session R]
    (h : Respected k R) (hdep : ∀ x scope y kind, Moves R (depend x scope y kind))
    (hrec : ∀ x ds, Moves R (recordDecorations x ds)) :
    Moves R (checkInstanceDecorators k ds target n type) := by
  unfold checkInstanceDecorators
  exact Moves.get_bind fun s => Moves.bind (h.runDecorators _ _ _ _)
    (fun references => Moves.bind (moves_linkAll h.report hdep _ references)
      fun _ => hrec _ ds) s

theorem steady_checkInstanceDecorators :
    Moves Steady (checkInstanceDecorators k ds target n type) :=
  moves_checkInstanceDecorators respected_steady steady_depend fun _ _ _ => ⟨rfl, rfl, rfl⟩

/-- Without findings every reference of a decorator of an instance is followed. -/
theorem depends_checkInstanceDecorators (hs : Linking p s) (hx : IsReader p s (s.qualified n))
    (hhlt : s.halted = []) (hknown : ∀ d ∈ ds, (k.registry.get? d.name.text).isSome)
    (hfs : ((checkInstanceDecorators k ds target n type).run s).2.findings = []) (hd : d ∈ ds)
    (hdec : k.registry.get? d.name.text = some decorator) :
    ∃ references, checkSite decorator d ⟨target, n, false⟩ type = .ok references ∧
      ∀ r ∈ references, ∃ scope y, s.resolveReference r = .ok (scope, y) ∧
        ((checkInstanceDecorators k ds target n type).run s).2.Depends (s.qualified n) y ∧
        ∀ comp, s.component = some comp → scope = ScopeId.global →
          ((checkInstanceDecorators k ds target n type).run s).2.Needs comp y := by
  rw [run_checkInstanceDecorators] at hfs ⊢
  have hfr := frame_runDecorators (k := k) ds ⟨target, n, false⟩ type none s
  have hstd := steady_runDecorators (k := k) ds ⟨target, n, false⟩ type none s
  have hx' := hx.grows hfr.grows
  have hlink := advances_linkAll ((runDecorators k ds ⟨target, n, false⟩ type none).run s).1 hx'
  have hrec := frame_recordDecorations (s.qualified n) ds
    ((linkAll (s.qualified n) ((runDecorators k ds ⟨target, n, false⟩ type none).run s).1).run
      ((runDecorators k ds ⟨target, n, false⟩ type none).run s).2).2
  have hnil := hrec.findings_eq_nil hfs
  obtain ⟨found, hall, hrun⟩ := run_runDecorators hhlt hknown (hlink.findings_eq_nil hnil)
  obtain ⟨references, ⟨decorator', hdec', hrefs⟩, hsub⟩ := hall d hd
  obtain rfl := Option.some.inj (hdec.symm.trans hdec')
  refine ⟨references, hrefs, fun r hr => ?_⟩
  obtain ⟨scope, y, hres, hdep, hneeds⟩ :=
    depends_linkAll ((Advances.of_frame hfr).linking hs) hx' hnil r (hrun ▸ hsub hr)
  rw [resolveReference, hstd.scopes] at hres
  exact ⟨scope, y, hres, hrec.depends.mpr hdep, fun comp hc hgl =>
    hrec.grows.needs (hneeds comp (hfr.component.trans hc) hgl)⟩

end InstanceDecorators

end Provision.Session
