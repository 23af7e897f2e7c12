import Provision.Proofs.Session.Excess

/-!
# Programs without a list of decorations

`Program.without` takes one list of decorations out of a program. Registration does not look at
decorations, so with the list and without it the same names are bound, and the same is found
(`Session.enrols_exceeds`). Neither do other declarations than the one that the list belongs to, and
if the list was stopped for its shape, it is not looked at again at all
(`Session.follows_exceeds`).
-/

namespace Provision

open List Table Decoration

/-- A list of decorations, unless it is the one that is known by a span. -/
def Decoration.without (mark : Span) (ds : List Decoration) : List Decoration :=
  if mark? ds = some mark then [] else ds

/-- A property without the list of decorations that is known by a span. -/
def SchemaProperty.without (mark : Span) (q : SchemaProperty) : SchemaProperty :=
  { q with decorations := Decoration.without mark q.decorations }

/-- A type alias without the list of decorations that is known by a span. -/
def AliasDecl.without (mark : Span) (d : AliasDecl) : AliasDecl :=
  { d with decorations := Decoration.without mark d.decorations }

/-- A schema without the list of decorations that is known by a span. -/
def SchemaDecl.without (mark : Span) (d : SchemaDecl) : SchemaDecl :=
  { d with
    decorations := Decoration.without mark d.decorations
    properties := d.properties.map (SchemaProperty.without mark) }

namespace Decl

mutual

/-- A declaration without the list of decorations that is known by a span. -/
def without (mark : Span) : Decl → Decl
  | .schema d => .schema (d.without mark)
  | .component ds name body span =>
    .component (Decoration.without mark ds) name (withoutAll mark body) span
  | .resource d => .resource { d with decorations := Decoration.without mark d.decorations }
  | .inst d => .inst { d with decorations := Decoration.without mark d.decorations }
  | .input d => .input { d with decorations := Decoration.without mark d.decorations }
  | .output d => .output { d with decorations := Decoration.without mark d.decorations }
  | .var d => .var { d with decorations := Decoration.without mark d.decorations }
  | .function d => .function { d with decorations := Decoration.without mark d.decorations }
  | .alias d => .alias (d.without mark)

/-- Declarations without the list of decorations that is known by a span. -/
def withoutAll (mark : Span) : List Decl → List Decl
  | [] => []
  | d :: ds => without mark d :: withoutAll mark ds

end

end Decl

/-- A program without the list of decorations that is known by a span. -/
def Program.without (mark : Span) (p : Program) : Program :=
  { p with items := Decl.withoutAll mark p.items }

section Without

variable {mark : Span}

theorem Decoration.without_of_ne {ds : List Decoration} (h : mark? ds ≠ some mark) :
    without mark ds = ds :=
  if_neg h

end Without

theorem Decl.withoutAll_eq_map (mark : Span) (ds : List Decl) :
    withoutAll mark ds = ds.map (without mark) := by
  induction ds with
  | nil => rw [withoutAll, map_nil]
  | cons d ds ih => rw [withoutAll, ih, map_cons]

theorem Decl.without_eq (mark : Span) (d : Decl) :
    d.without mark = d.redecorate (Decoration.without mark) := by
  induction d using members_induction with
  | h d ih =>
    cases d with
    | component _ _ body _ =>
      rw [without, redecorate, withoutAll_eq_map, redecorateAll_eq,
        map_congr_left (l := body) ih]
    | schema _ => rw [without, redecorate]; rfl
    | «alias» _ => rw [without, redecorate]; rfl
    | _ => rw [without, redecorate]

theorem Decl.withoutAll_eq (mark : Span) (ds : List Decl) :
    withoutAll mark ds = redecorateAll (Decoration.without mark) ds := by
  rw [withoutAll_eq_map, redecorateAll_eq, map_congr_left fun d _ => without_eq mark d]

namespace Session

variable {k : Checker} {x : Excess} {s t : Session}

/-! ### Registration -/

theorem requiredProperties_redecorate (f : List Decoration → List Decoration) (d : SchemaDecl) :
    requiredProperties (d.redecorate f) = requiredProperties d := by
  rw [requiredProperties, requiredProperties, SchemaDecl.redecorate, filter_map, map_map]
  rfl

theorem requiredInputs_redecorateAll (f : List Decoration → List Decoration) (ds : List Decl) :
    requiredInputs (Decl.redecorateAll f ds) = requiredInputs ds := by
  induction ds with
  | nil => rw [Decl.redecorateAll]
  | cons d ds ih =>
    rw [Decl.redecorateAll]
    unfold requiredInputs at ih ⊢
    rw [filterMap_cons, filterMap_cons, ih]
    cases d <;> rw [Decl.redecorate]

/-- Registration looks neither at findings nor at decorations. -/
theorem enrols_exceeds (x : Excess) (f : List Decoration → List Decoration) :
    Enrols f (Exceeds x) where
  toTracks := tracks_exceeds x
  mark name := Abreast.modify fun _ _ h =>
    { h with registered := congrArg (name.span :: ·) h.registered }
  noteAlias h y := { h with aliases := congrArg (y :: ·) h.aliases }
  noteSchema h _ d := { h with
    schemas := by
      rw [map_cons, map_cons, h.schemas, requiredProperties_redecorate] }
  modify h _ _ _ := { h with scopes := by rw [h.scopes] }
  nested h _ := by rw [h.scopes]
  node _ scope := beside_modifyGraph _ scope
  entry h _ _ := { h with
    instances := fun hx => by rw [map_insert, map_insert, h.instances hx] }
  use c y := beside_modifyComponent c (g := fun c => (c.1, c.2.1, addOnce c.2.2.1 y, c.2.2.2))
    (e := id) (fun _ => rfl) fun _ => rfl
  count c y := beside_modifyComponent c (g := fun c => (c.1, c.2.1, c.2.2.1, c.2.2.2 ++ [y]))
    (e := id) (fun _ => rfl) fun _ => rfl
  addComponent h name body scope := { h with
    components := by
      rw [map_insert, map_insert, h.components, ComponentInfo.face, ComponentInfo.face,
        requiredInputs_redecorateAll]
    bodies := fun hx => congrArg (· ++ _) (h.bodies hx)
    externals := fun hx => by rw [map_insert, map_insert, h.externals hx] }

theorem beside_registerProgram (mark : Span) (ds : List Decl) :
    Beside x Eq (registerProgram ds) (registerProgram (Decl.withoutAll mark ds)) := by
  rw [Decl.withoutAll_eq]
  exact (enrols_exceeds x _).registerProgram ds

/-! ### Decorators -/

theorem beside_defer (decorator : Decorator) (d : Decoration) (site : Site) (value : Option Expr) :
    Beside x Eq (defer decorator d site value) (defer decorator d site value) :=
  Abreast.modify fun s t h => { h with
    deferred := by
      show Inserted x.deferred (t.deferred ++ [_]) (s.deferred ++ [_])
      rw [h.qualified]
      exact h.deferred.append _ }

/-- A list of decorations is not the marked one, or it was stopped. -/
def Excess.Silent (x : Excess) (l : List Decoration) : Prop :=
  mark? l = some x.mark → x.stopped = true

theorem Exceeds.isHalted (h : Exceeds x s t) {l : List Decoration} (hl : x.Silent l) :
    s.isHalted l = t.isHalted (Decoration.without x.mark l) := by
  by_cases hmark : mark? l = some x.mark
  · cases l with
    | nil => cases hmark
    | cons first rest =>
      have hfst : first.span = x.mark := Option.some.inj hmark
      have hhlt : first.span ∈ s.halted := hfst ▸ h.stopped.mpr (hl hmark)
      rw [Decoration.without, if_pos hmark, Session.isHalted, Session.isHalted]
      exact contains_iff_mem.mpr hhlt
  · rw [without_of_ne hmark]
    cases l with
    | nil => rfl
    | cons first rest =>
      rw [Session.isHalted, Session.isHalted, Bool.eq_iff_iff, contains_iff_mem,
        contains_iff_mem]
      exact h.halted first.span fun hspan => hmark (congrArg some hspan)

theorem beside_runDecorators {l : List Decoration} (hl : x.Silent l) (site : Site) (type : Ty)
    (value : Option Expr) :
    Beside x Eq (runDecorators k l site type value)
      (runDecorators k (Decoration.without x.mark l) site type value) := by
  refine Abreast.get_bind fun s t h => ?_
  rw [h.isHalted hl]
  by_cases hmark : mark? l = some x.mark
  · rw [Decoration.without, if_pos hmark, Session.isHalted, if_pos rfl, if_pos rfl]
    exact Abreast.pure rfl
  · rw [without_of_ne hmark]
    exact Abreast.ite (Abreast.pure rfl)
      ((tracks_exceeds x).runDecorations beside_defer site type value [] l)

theorem beside_recordDecorations (name : String) (ds es : List Decoration) :
    Beside x Eq (recordDecorations name ds) (recordDecorations name es) := by
  have hplain : ∀ (is : Table InstanceInfo) (ds : List Decoration),
      (is.modify name fun i => { i with
        tags := Decorator.Labels.tags ds
        providers := Decorator.Labels.providers ds
        count := (ds.filterMap countOf?).getLast?.getD i.count
        existing := (ds.filterMap existingOf?).getLast?.getD i.existing }).map
          (fun i => (i.1, i.2.plain)) = is.map fun i => (i.1, i.2.plain) := by
    exact fun is _ => map_modify_of_eq is name fun _ => rfl
  exact Abreast.modify fun s t h => { h with
    instances := fun hx => (hplain _ ds).trans ((h.instances hx).trans (hplain _ es).symm) }

theorem beside_checkAlias {d : AliasDecl} (hd : x.Silent d.decorations) :
    Beside x Eq (checkAlias d) (checkAlias (d.without x.mark)) := by
  by_cases hmark : mark? d.decorations = some x.mark
  · have hwithout : (d.without x.mark).decorations = [] := if_pos hmark
    unfold checkAlias
    rw [hwithout]
    split
    · -- the list was stopped, so that it is not reported that it stands on an alias
      intro s t h
      have hhlt : s.isHalted d.decorations = true := by
        rw [h.isHalted hd, Decoration.without, if_pos hmark]
        rfl
      rw [run_get_bind]
      rw [if_pos hhlt]
      exact ⟨rfl, h⟩
    · exact Abreast.pure rfl
  · have hwithout : d.without x.mark = d := by
      rw [AliasDecl.without, without_of_ne hmark]
    rw [hwithout]
    unfold checkAlias
    split
    · refine Abreast.get_bind fun s t h => ?_
      rw [h.isHalted hd, without_of_ne hmark]
      exact Abreast.ite (Abreast.pure rfl) ((tracks_exceeds x).reportProblem _ _)
    · exact Abreast.pure rfl

theorem Exceeds.components_eq (h : Exceeds x s t) (n : String) :
    (find? s.components n).map (fun c => (c.scope, requiredInputs c.body)) =
      (find? t.components n).map fun c => (c.scope, requiredInputs c.body) := by
  have hface := congrArg (Option.map fun g : ScopeId × List String × List String × List String =>
    (g.1, g.2.1)) (h.face n)
  rwa [Option.map_map, Option.map_map] at hface

theorem follows_exceeds (x : Excess) :
    Follows k (Decoration.without x.mark) x.Silent Eq Eq (Exceeds x) where
  toTracks := tracks_exceeds x
  rebind h hab := { h with scopes := by rw [h.scopes, hab] }
  requiredProperties h := h.requiredProperties
  components h := h.components_eq
  runDecorators site value hl hab := hab ▸ beside_runDecorators hl site _ value
  record y l := beside_recordDecorations y l _
  checkAlias hd := beside_checkAlias hd

theorem beside_checkProperties (schema : String) (types : Table Ty) {qs : List SchemaProperty}
    (hqs : ∀ q ∈ qs, x.Silent q.decorations) :
    Beside x Eq (checkProperties k schema types qs)
      (checkProperties k schema types (qs.map (SchemaProperty.without x.mark))) :=
  (follows_exceeds x).checkProperties schema (Ty.Fields.refl (fun _ => rfl) types) hqs

theorem beside_checkDecl {d : Decl} (hd : d.EveryList x.Silent) :
    Beside x Eq (checkDecl k d) (checkDecl k (d.without x.mark)) := by
  rw [Decl.without_eq]
  exact (follows_exceeds x).checkDecl hd

theorem beside_checkDecls {ds : List Decl} (hds : ∀ d ∈ ds, d.EveryList x.Silent) :
    Beside x Eq (checkDecls k ds) (checkDecls k (Decl.withoutAll x.mark ds)) := by
  rw [Decl.withoutAll_eq]
  exact (follows_exceeds x).checkDecls hds

/-! ### Orders -/

theorem Exceeds.usage (h : Exceeds x s t) : s.usage = t.usage := by
  have hfold : ∀ u : Session, u.usage =
      (u.components.map fun c => (c.1, c.2.face)).foldl (fun g c =>
        c.2.2.2.1.foldl (fun g used => g.addEdge c.1 used .implicit) (g.addNode c.1).2) {} := by
    intro u
    rw [foldl_map]
    rfl
  rw [hfold, hfold, h.components]

section Orders

variable (hlnk : x.linked = false)
include hlnk

theorem Exceeds.inherited (h : Exceeds x s t) (name : String) :
    s.inherited name = t.inherited name := by
  have hexts : ∀ used, (find? s.components used).map ComponentInfo.externals =
      (find? t.components used).map ComponentInfo.externals := by
    intro used
    rw [← Table.find?_map, ← Table.find?_map, h.externals hlnk]
  have hface : ∀ u : Session, u.inherited name = (((find? u.components name).map
      ComponentInfo.face).map fun f => f.2.2.1.flatMap fun used =>
        ((find? u.components used).map ComponentInfo.externals).getD []).getD [] := by
    intro u
    unfold Session.inherited
    cases find? u.components name <;> rfl
  rw [hface, hface, h.face]
  simp only [hexts]

theorem Exceeds.externalLinks (h : Exceeds x s t) : s.externalLinks = t.externalLinks := by
  have hzip : ∀ u : Session, u.externalLinks =
      ((u.components.map fun c => (c.1, c.2.face)).zip
        (u.components.map fun c => (c.1, c.2.externals))).flatMap fun c =>
          c.1.2.2.2.2.flatMap fun inst => c.2.2.map fun target => (inst, target) := by
    intro u
    rw [zip_map', flatMap_map]
    rfl
  rw [hzip, hzip, h.components, h.externals hlnk]

theorem concludes_exceeds : Concludes (Exceeds x) where
  toTracks := tracks_exceeds x
  usage h := h.usage
  inherited h := h.inherited hlnk
  externalLinks h := h.externalLinks hlnk
  bodies h := h.bodies hlnk
  inherit name more := beside_modifyComponent name (g := id) (e := fun es => more.foldl addOnce es)
    (fun _ => rfl) fun _ => rfl

end Orders

end Session

end Provision
