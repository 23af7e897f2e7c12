import Provision.Proofs.Offsets
import Provision.Proofs.Session.Abreast
import Provision.Proofs.Session.Places
import Provision.Session.Orders

/-!
# Two runs of the check of declarations

Two programs may have the same declarations with other decorations: `Decl.redecorate f` puts `f l`
in the place of every list `l` of decorations. If a relation of sessions allows what decorators do
with the lists of both programs (`Session.Follows`), the checks of both keep it
(`Session.Follows.checkDecls`). If in the end the same is known about components and graphs
(`Session.Concludes`), both come to the same orders (`Session.Concludes.orderProgram`).
-/

namespace Provision

open List Table Decl

section Redecorate

variable (f : List Decoration → List Decoration)

def SchemaProperty.redecorate (q : SchemaProperty) : SchemaProperty :=
  { q with decorations := f q.decorations }

def SchemaDecl.redecorate (d : SchemaDecl) : SchemaDecl :=
  { d with
    decorations := f d.decorations
    properties := d.properties.map (SchemaProperty.redecorate f) }

def AliasDecl.redecorate (d : AliasDecl) : AliasDecl := { d with decorations := f d.decorations }

mutual

def Decl.redecorate : Decl → Decl
  | .schema d => .schema (d.redecorate f)
  | .component ds name body span => .component (f ds) name (redecorateAll body) span
  | .resource d => .resource { d with decorations := f d.decorations }
  | .inst d => .inst { d with decorations := f d.decorations }
  | .input d => .input { d with decorations := f d.decorations }
  | .output d => .output { d with decorations := f d.decorations }
  | .var d => .var { d with decorations := f d.decorations }
  | .function d => .function { d with decorations := f d.decorations }
  | .alias d => .alias (d.redecorate f)

def Decl.redecorateAll : List Decl → List Decl
  | [] => []
  | d :: ds => redecorate d :: redecorateAll ds

end

end Redecorate

theorem SchemaDecl.redecorate_id (d : SchemaDecl) : d.redecorate id = d := by
  have hprops : d.properties.map (SchemaProperty.redecorate id) = d.properties :=
    map_id' _
  rw [redecorate, hprops]
  rfl

namespace Decl

theorem redecorateAll_eq (f : List Decoration → List Decoration) (ds : List Decl) :
    redecorateAll f ds = ds.map (redecorate f) := by
  induction ds with
  | nil => rw [redecorateAll, map_nil]
  | cons d ds ih => rw [redecorateAll, ih, map_cons]

theorem redecorate_id (d : Decl) : d.redecorate id = d := by
  induction d using members_induction with
  | h d ih =>
    cases d with
    | schema d => rw [redecorate, d.redecorate_id]
    | component ds name body span =>
      have hbody : body.map (redecorate id) = body :=
        (map_congr_left ih).trans (map_id' body)
      rw [redecorate, redecorateAll_eq, hbody]
      rfl
    | _ =>
      rw [redecorate]
      rfl

theorem redecorateAll_id (ds : List Decl) : redecorateAll id ds = ds := by
  rw [redecorateAll_eq, map_congr_left fun d _ => d.redecorate_id, map_id']

theorem name_redecorate (f : List Decoration → List Decoration) (d : Decl) :
    (d.redecorate f).name = d.name := by
  cases d <;> (rw [redecorate]; rfl)

theorem instanceName?_redecorate (f : List Decoration → List Decoration) (d : Decl) :
    (d.redecorate f).instanceName? = d.instanceName? := by
  cases d <;> (rw [redecorate]; rfl)

theorem place?_redecorate (f : List Decoration → List Decoration) {d : Decl} {place : Place}
    (h : d.place? = some place) :
    (d.redecorate f).place? = some { place with decorations := f place.decorations } := by
  cases d <;> cases h <;> (rw [redecorate]; rfl)

end Decl

namespace Session

variable {k : Checker} {f : List Decoration → List Decoration} {Fit : List Decoration → Prop}
  {V : Ty → Ty → Prop} {D : Diagnostic → Diagnostic → Prop} {R : Session → Session → Prop}
  {s t : Session}

/-! ### Values -/

namespace Tracks

variable (h : Tracks V D R)
include h

theorem checkValue (subject : Subject) {a b : Ty} (hab : V a b) (e : Expr) :
    Abreast R Eq (checkValue k subject a e) (checkValue k subject b e) := by
  unfold Session.checkValue
  refine (h.infer e (.some hab)).bind fun x y hxy => ?_
  cases hxy with
  | ok hfound =>
    dsimp only
    rw [(h.slack.like hfound).assignable (h.slack.like hab)]
    exact Abreast.ite (Abreast.pure rfl) (h.report (h.slack.blame
      (fun x y => .typeError (.mismatch subject x y) e.span) hab hfound fun _ _ => rfl))
  | error hde => exact h.report hde

theorem checkValue? (subject : Subject) {a b : Ty} (hab : V a b) (value : Option Expr) :
    Abreast R Eq (checkValue? k subject a value) (checkValue? k subject b value) := by
  cases value with
  | none => exact Abreast.pure rfl
  | some e => exact h.checkValue subject hab e

theorem inferred? (e : Expr) : Abreast R (Option.Rel V) (inferred? k e) (inferred? k e) := by
  unfold Session.inferred?
  refine (h.infer e .none).bind fun x y hxy => ?_
  cases hxy with
  | ok hab => exact Abreast.pure (.some hab)
  | error hde => exact (h.report hde).bind_eq fun _ => Abreast.pure .none

theorem checkFields (holder : Holder) {fs gs : Table Ty} (hflds : Ty.Fields V fs gs)
    (seen : List String) (inits : List Init) :
    Abreast R Eq (checkFields k holder fs seen inits) (checkFields k holder gs seen inits) := by
  induction inits generalizing seen with
  | nil => exact Abreast.pure rfl
  | cons i inits ih =>
    rw [Session.checkFields, Session.checkFields]
    refine Abreast.ite ((h.reportProblem _ _).bind_eq fun _ => ih seen) ?_
    have hfind := hflds.find? i.name.text
    generalize find? fs i.name.text = x, find? gs i.name.text = y at hfind ⊢
    cases hfind with
    | none =>
      exact (h.reportProblem _ _).bind_eq fun _ => (h.infer i.value .none).bind fun _ _ _ => ih _
    | some hab => exact (h.checkValue _ hab _).bind_eq fun _ => ih _

theorem checkRequired (holder : Holder) (span : Span) (given required : List String) :
    Abreast R Eq (checkRequired holder span given required)
      (checkRequired holder span given required) := by
  induction required with
  | nil => exact Abreast.pure rfl
  | cons n required ih =>
    rw [Session.checkRequired]
    exact Abreast.ite ih ((h.reportProblem _ _).bind_eq fun _ => ih)

theorem checkInits (reader : String) (holder : Holder) (span : Span) {fs gs : Table Ty}
    (hflds : Ty.Fields V fs gs) (required : List String) (inits : List Init) :
    Abreast R Eq (checkInits k reader holder span fs required inits)
      (checkInits k reader holder span gs required inits) := by
  intro s t hst
  obtain ⟨-, haft⟩ := ((h.checkFields (k := k) holder hflds [] inits).bind_eq fun _ =>
    h.checkRequired holder span (inits.map (·.name.text)) required) _ _
      (h.reading hst (some reader))
  refine ⟨rfl, ?_⟩
  rw [run_checkInits, run_checkInits, h.reader hst]
  exact h.reading haft t.reader

theorem declareParams (params : List Param) {ts us : List Ty} (hall : Forall₂ V ts us) :
    Abreast R Eq (declareParams params ts) (declareParams params us) := by
  induction params generalizing ts us with
  | nil => cases ts <;> cases us <;> exact Abreast.pure rfl
  | cons q params ih =>
    cases hall with
    | nil => exact Abreast.pure rfl
    | cons hab hall => exact (h.declare q.name hab).bind fun _ _ _ => ih hall

theorem bodyType? (d : FunDecl) {ps qs : List Ty} {r r' : Ty} (hps : Forall₂ V ps qs)
    (hrt : V r r') :
    Abreast R (Option.Rel V) (bodyType? k d ps r) (bodyType? k d qs r') := by
  refine Abreast.get_bind fun s t hst => ?_
  have hsc : (s.scopes.newChild none).1 = (t.scopes.newChild none).1 := h.length hst
  dsimp only
  rw [hsc]
  refine Abreast.bind_eq (Abreast.modify fun _ _ huv => h.newChild hst huv none) fun _ =>
    h.inScope _ ((h.declareParams d.params hps).bind_eq fun _ => ?_)
  split
  · exact (h.checkValue _ hrt _).bind_eq fun _ => Abreast.pure .none
  · exact h.inferred? d.body

theorem variableType? (d : VarDecl) :
    Abreast R (Option.Rel V) (variableType? k d) (variableType? k d) := by
  unfold Session.variableType?
  split
  · refine Abreast.get_bind fun s t hst => ?_
    have hab := h.boundType hst d.name
    rw [h.isRegistered hst]
    exact Abreast.ite ((h.checkValue _ hab _).bind_eq fun _ => Abreast.pure (.some hab))
      (Abreast.pure .none)
  · refine (h.inferred? d.value).bind fun x y hxy => ?_
    have hab := h.slack.getD_any hxy
    exact (h.declare d.name hab).bind_eq fun _ =>
      Abreast.ite (Abreast.pure (.some hab)) (Abreast.pure .none)

theorem ifRegistered (name : Ident) {m m' : Checking Unit} (hm : Abreast R Eq m m') :
    Abreast R Eq (ifRegistered name m) (ifRegistered name m') := by
  refine Abreast.get_bind fun s t hst => ?_
  rw [h.isRegistered hst]
  exact Abreast.ite hm (Abreast.pure rfl)

end Tracks

theorem Tracks.runDecorations (h : Tracks Eq Eq R)
    (hdefer : ∀ decorator d site value,
      Abreast R Eq (defer decorator d site value) (defer decorator d site value))
    (site : Site) (type : Ty) (value : Option Expr) (refs : List Reference)
    (ds : List Decoration) : Abreast R Eq (runDecorations k site type value refs ds)
      (runDecorations k site type value refs ds) := by
  induction ds generalizing refs with
  | nil => exact Abreast.pure rfl
  | cons d ds ih =>
    rw [Session.runDecorations]
    split
    · exact Abreast.pure rfl
    · split
      · exact (h.report rfl).bind_eq fun _ => Abreast.pure rfl
      · exact Abreast.ite ((hdefer _ _ _ _).bind_eq fun _ => ih _) (ih _)

/-! ### Declarations -/

/-- Besides, the decorators of both programs keep sessions related, at lists that fit. -/
structure Follows (k : Checker) (f : List Decoration → List Decoration)
    (Fit : List Decoration → Prop) (V : Ty → Ty → Prop) (D : Diagnostic → Diagnostic → Prop)
    (R : Session → Session → Prop) : Prop extends Tracks V D R where
  rebind : ∀ {s t n a b}, R s t → V a b →
    R { s with scopes := s.scopes.set n a } { t with scopes := t.scopes.set n b }
  requiredProperties : ∀ {s t}, R s t → ∀ n,
    (s.schemaDecl? n).map requiredProperties = (t.schemaDecl? n).map requiredProperties
  components : ∀ {s t}, R s t → ∀ n,
    (find? s.components n).map (fun c => (c.scope, requiredInputs c.body)) =
      (find? t.components n).map fun c => (c.scope, requiredInputs c.body)
  runDecorators : ∀ {l a b} site value, Fit l → V a b →
    Abreast R Eq (runDecorators k l site a value) (runDecorators k (f l) site b value)
  record : ∀ x l, Abreast R Eq (recordDecorations x l) (recordDecorations x (f l))
  checkAlias : ∀ {d}, Fit d.decorations → Abreast R Eq (checkAlias d) (checkAlias (d.redecorate f))

theorem abreast_checkDecls {ds : List Decl}
    (hds : ∀ d ∈ ds, Abreast R Eq (checkDecl k d) (checkDecl k (d.redecorate f))) :
    Abreast R Eq (checkDecls k ds) (checkDecls k (redecorateAll f ds)) := by
  induction ds with
  | nil =>
    rw [redecorateAll, checkDecls]
    exact Abreast.pure rfl
  | cons d ds ih =>
    obtain ⟨hd, hds⟩ := forall_mem_cons.mp hds
    rw [redecorateAll, checkDecls, checkDecls]
    exact hd.bind_eq fun _ => ih hds

namespace Follows

variable (h : Follows k f Fit V D R)
include h

theorem checkInstanceDecorators {l : List Decoration} (hl : Fit l) (target : Target) (n : String)
    {a b : Ty} (hab : V a b) :
    Abreast R Eq (checkInstanceDecorators k l target n a)
      (checkInstanceDecorators k (f l) target n b) := by
  refine Abreast.get_bind fun s t hst => ?_
  rw [h.qualified hst]
  exact (h.runDecorators _ _ hl hab).bind_eq fun refs =>
    (h.linkAll _ refs).bind_eq fun _ => h.record _ l

theorem initialiseResource (d : ResourceDecl) {a b : Ty} (hab : V a b) :
    Abreast R Eq (initialiseResource k d a) (initialiseResource k d b) := by
  cases h.slack.shape hab with
  | resource _ _ props =>
    refine Abreast.get_bind fun s t hst => ?_
    rw [h.requiredProperties hst, h.qualified hst]
    exact h.checkInits _ _ _ props _ _
  | _ => exact Abreast.pure rfl

theorem initialiseInstance (d : InstanceDecl) {a b : Ty} (hab : V a b) :
    Abreast R Eq (initialiseInstance k d a) (initialiseInstance k d b) := by
  cases h.slack.shape hab with
  | component comp _ inputs _ _ =>
    refine Abreast.get_bind fun s t hst => ?_
    have hreq : (s.components.find? comp).map (requiredInputs ·.body) =
        (t.components.find? comp).map (requiredInputs ·.body) := by
      have hface := congrArg (Option.map Prod.snd) (h.components hst comp)
      rwa [Option.map_map, Option.map_map] at hface
    rw [hreq, h.qualified hst]
    exact h.checkInits _ _ _ inputs _ _
  | _ => exact Abreast.pure rfl

theorem finishFunction (d : FunDecl) {a b : Ty} (hab : V a b) :
    Abreast R Eq (finishFunction k d a) (finishFunction k d b) := by
  cases h.slack.shape hab with
  | function params result =>
    refine (h.bodyType? d params result).bind fun x y hxy => ?_
    cases hxy with
    | none => exact Abreast.pure rfl
    | some hbody =>
      -- the name is bound anew, to types that count as one
      exact Abreast.modify fun _ _ hst => h.rebind hst (h.slack.function params hbody)
  | _ => exact Abreast.pure rfl

theorem checkProperties (schema : String) {fs gs : Table Ty} (hflds : Ty.Fields V fs gs)
    {qs : List SchemaProperty} (hqs : ∀ q ∈ qs, Fit q.decorations) :
    Abreast R Eq (checkProperties k schema fs qs)
      (checkProperties k schema gs (qs.map (SchemaProperty.redecorate f))) := by
  induction qs with
  | nil => exact Abreast.pure rfl
  | cons q qs ih =>
    obtain ⟨hq, hqs⟩ := forall_mem_cons.mp hqs
    have hab := h.slack.getD_any (hflds.find? q.name.text)
    exact (h.runDecorators _ _ hq hab).bind_eq fun _ =>
      (h.checkValue? _ hab _).bind_eq fun _ => ih hqs

theorem inComponent {name : String}
    (hface : (find? s.components name).map (fun c => (c.scope, requiredInputs c.body)) =
      (find? t.components name).map fun c => (c.scope, requiredInputs c.body))
    {m m' : Checking Unit} (hm : Abreast R Eq m m') :
    Abreast R Eq
      (match s.components.find? name with
        | some info => inBody name info.scope m
        | none => return)
      (match t.components.find? name with
        | some info => inBody name info.scope m'
        | none => return) := by
  generalize find? s.components name = x, find? t.components name = y at hface ⊢
  cases x with
  | none =>
    cases y with
    | none => exact Abreast.pure rfl
    | some _ => cases hface
  | some i =>
    cases y with
    | none => cases hface
    | some j =>
      have hsc : i.scope = j.scope := congrArg Prod.fst (Option.some.inj hface)
      dsimp only
      rw [hsc]
      exact h.inBody _ _ hm

theorem decorate {place : Place} (hl : Fit place.decorations) (d : Decl) {a b : Ty}
    (hab : V a b) :
    Abreast R Eq (decorate k d place a)
      (decorate k (d.redecorate f) { place with decorations := f place.decorations } b) := by
  unfold Session.decorate
  rw [instanceName?_redecorate]
  exact Abreast.ite (h.checkInstanceDecorators hl _ _ hab)
    ((h.runDecorators _ _ hl hab).bind_eq fun _ => Abreast.pure rfl)

/-- What is behind the decorations of a declaration is checked side by side. -/
theorem behind {a b : Ty} (hab : V a b) {d : Decl}
    (hcomps : ∀ n,
      (find? s.components n).map (fun c => (c.scope, requiredInputs c.body)) =
        (find? t.components n).map fun c => (c.scope, requiredInputs c.body))
    (hprops : ∀ q ∈ d.properties, Fit q.decorations)
    (hmems : ∀ e ∈ d.members, Abreast R Eq (checkDecl k e) (checkDecl k (e.redecorate f))) :
    Abreast R Eq (s.behind k a d) (t.behind k b (d.redecorate f)) := by
  cases d with
  | schema d =>
    rw [redecorate]
    refine h.checkProperties _ ?_ hprops
    cases h.slack.shape hab with
    | schema _ props _ => exact props
    | _ => exact .nil
  | component ds name body span =>
    rw [redecorate]
    exact h.inComponent (hcomps name.text) (abreast_checkDecls hmems)
  | resource d =>
    rw [redecorate]
    exact h.initialiseResource d hab
  | inst d =>
    rw [redecorate]
    exact h.initialiseInstance d hab
  | function d =>
    rw [redecorate]
    exact h.finishFunction d hab
  | input d =>
    rw [redecorate]
    exact h.checkValue? _ hab _
  | output d =>
    rw [redecorate]
    exact h.checkValue? _ hab _
  | _ =>
    rw [redecorate]
    exact Abreast.pure rfl

theorem checkDecl {d : Decl} :
    d.EveryList Fit → Abreast R Eq (checkDecl k d) (checkDecl k (d.redecorate f)) := by
  induction d using members_induction with
  | h d ih =>
    intro hd
    rcases d.place?_cases with ⟨d, rfl⟩ | ⟨d, rfl⟩ | ⟨place, hpl, htgt⟩
    · rw [redecorate, Session.checkDecl, Session.checkDecl]
      refine (h.variableType? d).bind fun x y hxy => ?_
      cases hxy with
      | none => exact Abreast.pure rfl
      | some hab => exact (h.runDecorators _ _ hd.own hab).bind_eq fun _ => Abreast.pure rfl
    · rw [redecorate, Session.checkDecl, Session.checkDecl]
      exact h.checkAlias hd.own
    · have hl : Fit place.decorations := decorations_of_place? hpl ▸ hd.own
      rw [checkDecl_eq hpl htgt, checkDecl_eq (place?_redecorate f hpl) htgt,
        name_redecorate]
      refine h.ifRegistered _ (Abreast.get_bind fun s t hst => ?_)
      have hab := h.boundType hst d.name
      exact (h.decorate hl d hab).bind_eq fun _ =>
        h.behind hab (h.components hst) hd.properties fun e he => ih e he (hd.members e he)

/-- The checks of programs that differ in decorations keep sessions related. -/
theorem checkDecls {ds : List Decl} (hds : ∀ d ∈ ds, d.EveryList Fit) :
    Abreast R Eq (checkDecls k ds) (checkDecls k (redecorateAll f ds)) :=
  abreast_checkDecls fun d hd => h.checkDecl (hds d hd)

end Follows

/-! ### Orders -/

/-- Besides, the same is known about the uses of components and about graphs. -/
structure Concludes (R : Session → Session → Prop) : Prop extends Tracks Eq Eq R where
  usage : ∀ {s t}, R s t → s.usage = t.usage
  inherited : ∀ {s t}, R s t → ∀ name, s.inherited name = t.inherited name
  externalLinks : ∀ {s t}, R s t → s.externalLinks = t.externalLinks
  bodies : ∀ {s t}, R s t → s.bodies = t.bodies
  inherit : ∀ name (more : List String), Abreast R Eq
    (modifyComponent name fun c => { c with externals := more.foldl addOnce c.externals })
    (modifyComponent name fun c => { c with externals := more.foldl addOnce c.externals })

namespace Concludes

variable (h : Concludes R)
include h

theorem inheritExternals (names : List String) :
    Abreast R Eq (inheritExternals names) (inheritExternals names) := by
  induction names with
  | nil => exact Abreast.pure rfl
  | cons name names ih =>
    refine Abreast.get_bind fun s t hst => ?_
    rw [h.inherited hst]
    exact (h.inherit name _).bind_eq fun _ => ih

theorem linkExternals (links : List (String × String)) :
    Abreast R Eq (linkExternals links) (linkExternals links) := by
  induction links with
  | nil => exact Abreast.pure rfl
  | cons link links ih =>
    exact (h.edge _ _ _ _).bind_eq fun _ => (h.dependency _ _).bind_eq fun _ => ih

theorem linkComponents : Abreast R Eq linkComponents linkComponents := by
  have hrest : Abreast R Eq (do Session.linkExternals (← get).externalLinks)
      (do Session.linkExternals (← get).externalLinks) := by
    refine Abreast.get_bind fun s t hst => ?_
    rw [h.externalLinks hst]
    exact h.linkExternals _
  refine Abreast.get_bind fun s t hst => ?_
  rw [h.usage hst]
  cases t.usage.order with
  | ok order => exact (h.inheritExternals order).bind_eq fun _ => hrest
  | error path => exact (h.report rfl).bind_eq fun _ => hrest

theorem orderBodies (orders : Orders) (bodies : List (ScopeId × Body)) :
    Abreast R Eq (orderBodies orders bodies) (orderBodies orders bodies) := by
  induction bodies generalizing orders with
  | nil => exact Abreast.pure rfl
  | cons b bodies ih =>
    rw [Session.orderBodies]
    cases b.2.graph.order with
    | ok order => exact ih _
    | error path => exact (h.report rfl).bind_eq fun _ => ih _

theorem orderProgram : Abreast R Eq orderProgram orderProgram := by
  refine h.linkComponents.bind_eq fun _ => Abreast.get_bind fun s t hst => ?_
  rw [h.bodies hst]
  exact h.orderBodies _ _

end Concludes

end Session

end Provision
