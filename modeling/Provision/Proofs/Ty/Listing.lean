import Mathlib.Data.String.Basic
import Provision.Decorator.Builtin
import Provision.Proofs.Ty.Outline

/-!
# Types up to the order of resources

A schema lists its resources in the order of their declarations. That order shows in the type of the
schema and nowhere else: `Ty.listed` puts it aside, by listing resources by name, and everything
that a check asks about types gives the same answer for a type and for the listed one
(`Ty.same_listed`, `Ty.assignable_listed`, `Ty.ofVariants_listed`).
-/

namespace Provision

open List

namespace Table

variable {α : Type _} {t u : Table α}

def listing (t : Table α) : Table α :=
  (t.names.toFinset.sort (· ≤ ·)).filterMap fun n => (t.find? n).map fun e => (n, e)

theorem listing_congr (h : ∀ n, t.find? n = u.find? n) : t.listing = u.listing := by
  have hnms : t.names.toFinset = u.names.toFinset := by
    ext n
    rw [mem_toFinset, mem_toFinset, mem_names_iff, mem_names_iff, h]
  rw [listing, listing, hnms]
  simp only [h]

theorem find?_listing (n : String) : t.listing.find? n = t.find? n := by
  have hlist : ∀ l : List String,
      find? (l.filterMap fun m => (t.find? m).map fun e => (m, e)) n =
        if n ∈ l then t.find? n else none := by
    intro l
    induction l with
    | nil => rfl
    | cons m l ih =>
      rw [filterMap_cons]
      by_cases hn : n = m
      · subst hn
        cases hfind : t.find? n with
        | none => simp [hfind, ih]
        | some e => simp [find?_cons]
      · cases t.find? m with
        | none => simp [ih, hn]
        | some e => simp [find?_cons, ih, hn]
  rw [listing, hlist]
  simp only [Finset.mem_sort, mem_toFinset, mem_names_iff]
  cases t.find? n <;> rfl

end Table

namespace Ty

mutual

/-- A type with the resources of all schemas in it listed by name. -/
def listed : Ty → Ty
  | .scalar kind => .scalar kind
  | .array elem => .array (listed elem)
  | .object fields => .object (listedFields fields)
  | .union variants => .union (listedAll variants)
  | .function params result => .function (listedAll params) (listed result)
  | .schema name props resources =>
    .schema name (listedFields props) (Table.listing (listedFields resources))
  | .resource name owner props => .resource name owner (listedFields props)
  | .component name inst inputs outputs nested =>
    .component name inst (listedFields inputs) (listedFields outputs) (listedAll nested)

def listedFields : List (String × Ty) → List (String × Ty)
  | [] => []
  | (name, t) :: rest => (name, listed t) :: listedFields rest

def listedAll : List Ty → List Ty
  | [] => []
  | t :: ts => listed t :: listedAll ts

end

theorem listedAll_eq (ts : List Ty) : listedAll ts = ts.map listed := by
  induction ts with
  | nil => rfl
  | cons t ts ih => rw [listedAll, ih, map_cons]

theorem listedFields_eq (fs : List (String × Ty)) :
    listedFields fs = fs.map fun f => (f.1, listed f.2) := by
  induction fs with
  | nil => rfl
  | cons f fs ih => rw [listedFields, ih, map_cons]

theorem find?_listedFields (fs : Table Ty) (n : String) :
    Table.find? (listedFields fs) n = (Table.find? fs n).map listed := by
  rw [listedFields_eq]
  exact Table.find?_map listed

theorem length_listedFields (fs : List (String × Ty)) : (listedFields fs).length = fs.length := by
  rw [listedFields_eq, length_map]

theorem isEmpty_listedFields (fs : List (String × Ty)) :
    (listedFields fs).isEmpty = fs.isEmpty := by
  cases fs <;> rfl

/-! ### Questions about types -/

@[simp] theorem isAny_listed (t : Ty) : t.listed.isAny = t.isAny := by
  cases t <;> rfl

@[simp] theorem instanceName?_listed (t : Ty) : t.listed.instanceName? = t.instanceName? := by
  cases t <;> rfl

theorem elem?_listed (t : Ty) : t.listed.elem? = t.elem?.map listed := by
  cases t <;> rfl

mutual

theorem outline_listed : ∀ t : Ty, outline (listed t) = outline t
  | .array a => congrArg Ty.array (outline_listed a)
  | .object fs => congrArg Ty.object (outlineFields_listed fs)
  | .union vs => congrArg Ty.union (outlineAll_listed vs)
  | .function ps r => congrArg₂ Ty.function (outlineAll_listed ps) (outline_listed r)
  | .scalar _ => rfl
  | .schema _ _ _ => rfl
  | .resource _ _ _ => rfl
  | .component _ _ _ _ _ => rfl

theorem outlineFields_listed : ∀ fs : List (String × Ty),
    outlineFields (listedFields fs) = outlineFields fs
  | [] => rfl
  | (name, t) :: rest =>
    congrArg₂ cons (congrArg (Prod.mk name) (outline_listed t)) (outlineFields_listed rest)

theorem outlineAll_listed : ∀ ts : List Ty, outlineAll (listedAll ts) = outlineAll ts
  | [] => rfl
  | t :: ts => congrArg₂ cons (outline_listed t) (outlineAll_listed ts)

end

@[simp] theorem same_listed (a b : Ty) : same (listed a) (listed b) = same a b := by
  rw [← same_outline, outline_listed, outline_listed, same_outline]

mutual

theorem leaves_listed : ∀ t : Ty, (listed t).leaves = t.leaves.map listed
  | .union vs => leavesAll_listed vs
  | .scalar _ => rfl
  | .array _ => rfl
  | .object _ => rfl
  | .function _ _ => rfl
  | .schema _ _ _ => rfl
  | .resource _ _ _ => rfl
  | .component _ _ _ _ _ => rfl

theorem leavesAll_listed : ∀ ts : List Ty, leavesAll (listedAll ts) = (leavesAll ts).map listed
  | [] => rfl
  | t :: ts => by
    rw [listedAll, leavesAll, leavesAll, leaves_listed t, leavesAll_listed ts, map_append]

end

theorem any_leaves_listed (b : Ty) {f g : Ty → Bool} (h : ∀ t, f (listed t) = g t) :
    (listed b).leaves.any f = b.leaves.any g := by
  rw [leaves_listed, any_map]
  exact congrArg b.leaves.any (funext h)

mutual

/-- What can be assigned does not depend on the order of resources. -/
@[simp] theorem assignable_listed : ∀ a b : Ty, assignable (listed a) (listed b) = assignable a b
  | .union vs, b => by
    have hsame := same_listed (.union vs) b
    rw [listed] at hsame ⊢
    rw [assignable, assignable, isAny_listed, hsame, assignableAll_listed vs b]
  | .scalar k, b => by
    have hleaf : (listed b).leaves.any (fun t => t.isAny || same (.scalar k) t) =
        b.leaves.any fun t => t.isAny || same (.scalar k) t :=
      any_leaves_listed b fun t => by rw [isAny_listed, ← same_listed (.scalar k) t]; rfl
    cases k <;> first | rfl | exact hleaf
  | .array a, b => by
    rw [listed, assignable, assignable]
    refine any_leaves_listed b fun t => ?_
    rw [isAny_listed, ← same_listed (.array a) t]
    cases t with
    | array e => simp only [listed, assignable_listed a e]
    | _ => rfl
  | .object fs, b => by
    rw [listed, assignable, assignable]
    refine any_leaves_listed b fun t => ?_
    rw [isAny_listed, ← same_listed (.object fs) t]
    cases t with
    | object gs =>
      simp only [listed, isEmpty_listedFields, length_listedFields, assignableFields_listed fs gs]
    | _ => rfl
  | .function ps r, b => by
    rw [listed, assignable, assignable]
    · refine any_leaves_listed b fun t => ?_
      rw [isAny_listed, ← same_listed (.function ps r) t]
      rfl
    all_goals exact nofun
  | .schema m ps rs, b => by
    rw [listed, assignable, assignable]
    · refine any_leaves_listed b fun t => ?_
      rw [isAny_listed, ← same_listed (.schema m ps rs) t]
      rfl
    all_goals exact nofun
  | .resource m s ps, b => by
    rw [listed, assignable, assignable]
    refine any_leaves_listed b fun t => ?_
    rw [isAny_listed, ← same_listed (.resource m s ps) t]
    cases t <;> rfl
  | .component m i is os ns, b => by
    rw [listed, assignable, assignable]
    refine any_leaves_listed b fun t => ?_
    rw [isAny_listed, ← same_listed (.component m i is os ns) t]
    cases t <;> rfl

theorem assignableAll_listed : ∀ (vs : List Ty) (b : Ty),
    assignableAll (listedAll vs) (listed b) = assignableAll vs b
  | [], _ => rfl
  | v :: rest, b => by
    rw [listedAll, assignableAll, assignableAll, assignable_listed v b,
      assignableAll_listed rest b]

theorem assignableFields_listed : ∀ fs gs : List (String × Ty),
    assignableFields (listedFields fs) (listedFields gs) = assignableFields fs gs
  | [], _ => rfl
  | (name, t) :: rest, gs => by
    rw [listedFields, assignableFields, assignableFields, assignableFields_listed rest gs,
      find?_listedFields]
    cases Table.find? gs name with
    | none => rfl
    | some u => simp only [Option.map_some, assignable_listed t u]

end

/-! ### Unions -/

theorem variants_listed (t : Ty) : (listed t).variants = t.variants.map listed := by
  cases t with
  | union vs => exact listedAll_eq vs
  | _ => rfl

theorem ofVariants_listed (ts : List Ty) : (ofVariants ts).listed = ofVariants (ts.map listed) :=
  map_ofVariants same_listed variants_listed (fun vs => congrArg Ty.union (listedAll_eq vs)) ts

/-! ### Types that are alike -/

section Shape

variable {V : Ty → Ty → Prop}

/-- Entries under the same names in the same order, with related types. -/
abbrev Fields (V : Ty → Ty → Prop) : Table Ty → Table Ty → Prop :=
  Forall₂ fun f g => f.1 = g.1 ∧ V f.2 g.2

theorem Fields.refl (h : ∀ a, V a a) (fs : Table Ty) : Fields V fs fs :=
  forall₂_same.mpr fun f _ => ⟨rfl, h f.2⟩

theorem Fields.find? {fs gs : Table Ty} (h : Fields V fs gs) (n : String) :
    Option.Rel V (Table.find? fs n) (Table.find? gs n) := by
  induction h with
  | nil => exact .none
  | cons hfst _ ih =>
    rw [Table.find?_cons, Table.find?_cons, hfst.1]
    split
    · exact .some hfst.2
    · exact ih

theorem Fields.contains {fs gs : Table Ty} (h : Fields V fs gs) (n : String) :
    fs.contains n = gs.contains n := by
  unfold Table.contains
  have hfind := h.find? n
  generalize Table.find? fs n = x, Table.find? gs n = y at hfind ⊢
  cases hfind <;> rfl

theorem Fields.insert {fs gs : Table Ty} (h : Fields V fs gs) (n : String) {a b : Ty}
    (hab : V a b) : Fields V (fs.insert n a) (gs.insert n b) := by
  induction h with
  | nil => exact .cons ⟨rfl, hab⟩ .nil
  | @cons f g fs gs hfst hrest ih =>
    obtain ⟨m, c⟩ := f
    obtain ⟨m', d⟩ := g
    obtain ⟨rfl, hcd⟩ : m = m' ∧ V c d := hfst
    rw [Table.insert, Table.insert]
    split
    · exact .cons ⟨rfl, hab⟩ hrest
    · exact .cons ⟨rfl, hcd⟩ ih

/-- Types of one shape with related parts. -/
inductive Shape (V : Ty → Ty → Prop) : Ty → Ty → Prop
  | scalar (kind : Scalar) : Shape V (.scalar kind) (.scalar kind)
  | array {a b : Ty} (elem : V a b) : Shape V (.array a) (.array b)
  | object {fs gs : Table Ty} (fields : Fields V fs gs) : Shape V (.object fs) (.object gs)
  | union (vs ws : List Ty) : Shape V (.union vs) (.union ws)
  | function {ps qs : List Ty} {r t : Ty} (params : Forall₂ V ps qs) (result : V r t) :
    Shape V (.function ps r) (.function qs t)
  | schema (name : String) {ps qs rs ts : Table Ty} (props : Fields V ps qs)
    (resources : ∀ n, Option.Rel V (rs.find? n) (ts.find? n)) :
    Shape V (.schema name ps rs) (.schema name qs ts)
  | resource (name owner : String) {ps qs : Table Ty} (props : Fields V ps qs) :
    Shape V (.resource name owner ps) (.resource name owner qs)
  | component (name : String) (inst : Option String) {is js os us : Table Ty} {ns ms : List Ty}
    (inputs : Fields V is js) (outputs : Fields V os us) (nested : Forall₂ V ns ms) :
    Shape V (.component name inst is os ns) (.component name inst js us ms)

end Shape

/-- Types that differ in the order of resources only. -/
abbrev Like (a b : Ty) : Prop := a.listed = b.listed

theorem listedFields_iff {fs gs : Table Ty} :
    listedFields fs = listedFields gs ↔ Fields Like fs gs := by
  rw [listedFields_eq, listedFields_eq, ← forall₂_eq_eq_eq, forall₂_map_left_iff,
    forall₂_map_right_iff]
  simp only [Prod.mk.injEq]

theorem listedAll_iff {ts us : List Ty} :
    listedAll ts = listedAll us ↔ Forall₂ Like ts us := by
  rw [listedAll_eq, listedAll_eq, ← forall₂_eq_eq_eq, forall₂_map_left_iff,
    forall₂_map_right_iff]

theorem rel_of_map {f : Ty → Ty} {x y : Option Ty} (h : x.map f = y.map f) :
    Option.Rel (fun a b => f a = f b) x y := by
  cases x with
  | none =>
    cases y with
    | none => exact .none
    | some _ => cases h
  | some _ =>
    cases y with
    | none => cases h
    | some _ => exact .some (Option.some.inj h)

theorem Like.shape {a b : Ty} (h : a.Like b) : Shape Like a b := by
  cases a <;> cases b <;> injection h
  case scalar.scalar h => exact h ▸ .scalar _
  case array.array h => exact .array h
  case object.object h => exact .object (listedFields_iff.mp h)
  case union.union h => exact .union _ _
  case function.function hp hr => exact .function (listedAll_iff.mp hp) hr
  case schema.schema hn hp hr =>
    refine hn ▸ .schema _ (listedFields_iff.mp hp) fun n => rel_of_map ?_
    rw [← find?_listedFields, ← find?_listedFields, ← Table.find?_listing, hr, Table.find?_listing]
  case resource.resource hn ho hp => exact hn ▸ ho ▸ .resource _ _ (listedFields_iff.mp hp)
  case component.component hn hi his hos hns =>
    exact hn ▸ hi ▸ .component _ _ (listedFields_iff.mp his) (listedFields_iff.mp hos)
      (listedAll_iff.mp hns)

theorem Like.isAny {a b : Ty} (h : a.Like b) : a.isAny = b.isAny := by
  rw [← isAny_listed, h, isAny_listed]

theorem Like.instanceName? {a b : Ty} (h : a.Like b) : a.instanceName? = b.instanceName? := by
  rw [← instanceName?_listed, h, instanceName?_listed]

theorem Like.same_scalar {a b : Ty} (h : a.Like b) (kind : Scalar) :
    a.same (.scalar kind) = b.same (.scalar kind) := by
  rw [← same_listed a, h, same_listed]

theorem Like.assignable {a a' b b' : Ty} (h : a.Like a') (h' : b.Like b') :
    a.assignable b = a'.assignable b' := by
  rw [← assignable_listed, h, h', assignable_listed]

theorem like_ofVariants {ts us : List Ty} (h : listedAll ts = listedAll us) :
    (ofVariants ts).Like (ofVariants us) := by
  rw [Like, ofVariants_listed, ofVariants_listed, ← listedAll_eq, ← listedAll_eq, h]

theorem listedFields_insert (fs : Table Ty) (n : String) (t : Ty) :
    listedFields (fs.insert n t) = Table.insert (listedFields fs) n t.listed := by
  induction fs with
  | nil => rfl
  | cons f fs ih =>
    obtain ⟨m, u⟩ := f
    rw [Table.insert, listedFields, Table.insert]
    split
    · rfl
    · rw [listedFields, ih]

theorem listed_of_rel {x y : Option Ty} (h : Option.Rel Like x y) :
    x.map listed = y.map listed := by
  cases h with
  | none => rfl
  | some h => exact congrArg some h

end Ty

/-! ### Values and restrictions -/

mutual

/-- Nor does what a value conforms to. -/
theorem Value.conforms_listed : ∀ (v : Value) (t : Ty), v.conforms t.listed = v.conforms t
  | .array items, t => by
    rw [conforms, conforms]
    refine Ty.any_leaves_listed t fun u => ?_
    cases u with
    | array elem => exact conformsAll_listed items elem
    | _ => rfl
  | .object fields, t => by
    rw [conforms, conforms]
    refine Ty.any_leaves_listed t fun u => ?_
    cases u with
    | object gs =>
      simp only [Ty.listed, Ty.isEmpty_listedFields, Ty.length_listedFields,
        conformsFields_listed fields gs]
    | _ => rfl
  | .null, t => by
    rw [conforms, conforms]
    exact Ty.any_leaves_listed t fun u => by
      rw [Ty.isAny_listed, ← Ty.same_listed u .null]
      rfl
  | .bool _, t => by
    rw [conforms, conforms]
    exact Ty.any_leaves_listed t fun u => by
      rw [Ty.isAny_listed, ← Ty.same_listed u .boolean]
      rfl
  | .number _, t => by
    rw [conforms, conforms]
    exact Ty.any_leaves_listed t fun u => by
      rw [Ty.isAny_listed, ← Ty.same_listed u .number]
      rfl
  | .string _, t => by
    rw [conforms, conforms]
    exact Ty.any_leaves_listed t fun u => by
      rw [Ty.isAny_listed, ← Ty.same_listed u .string]
      rfl

theorem Value.conformsAll_listed : ∀ (vs : List Value) (t : Ty),
    conformsAll vs t.listed = conformsAll vs t
  | [], _ => rfl
  | v :: vs, t => by
    rw [conformsAll, conformsAll, conforms_listed v t, conformsAll_listed vs t]

theorem Value.conformsFields_listed : ∀ (fs : List (String × Value)) (gs : List (String × Ty)),
    conformsFields fs (Ty.listedFields gs) = conformsFields fs gs
  | [], _ => rfl
  | (key, v) :: rest, gs => by
    rw [conformsFields, conformsFields, conformsFields_listed rest gs, Ty.find?_listedFields]
    cases Table.find? gs key with
    | none => rfl
    | some t => simp only [Option.map_some, conforms_listed v t]

end

theorem TypeClass.admits_listed (c : TypeClass) (t : Ty) : c.admits t.listed = c.admits t := by
  cases c with
  | string => exact Ty.same_listed t .string
  | number => exact Ty.same_listed t .number
  | boolean => exact Ty.same_listed t .boolean
  | object => cases t <;> rfl
  | array => cases t <;> rfl
  | arrayOf kind =>
    cases t with
    | array elem => exact Ty.same_listed elem (.scalar kind)
    | _ => rfl

theorem Restriction.admits_listed (r : Restriction) (t : Ty) : r.admits t.listed = r.admits t := by
  cases r with
  | unrestricted => rfl
  | oneOf classes =>
    rw [admits, admits, Ty.leaves_listed, all_map]
    refine congrArg t.leaves.all (funext fun u => ?_)
    exact congrArg classes.any (funext fun c => c.admits_listed u)

/-! ### Decorators -/

/-- Two results match: both are values that are related, or both are findings, and both or none of
them is a cycle. -/
inductive Matched {α β : Type} (Q : α → β → Prop) : Except Diagnostic α → Except Diagnostic β → Prop
  | ok {a : α} {b : β} (h : Q a b) : Matched Q (.ok a) (.ok b)
  | error {d e : Diagnostic} (h : d.isCycle = e.isCycle) : Matched Q (.error d) (.error e)

/-- The check that a decorator makes on a type does not depend on the order in which schemas list
their resources. -/
def Decorator.Extensional (decorator : Decorator) : Prop :=
  ∀ d site (a b : Ty), a.Like b →
    Matched Eq (decorator.checkType d site a) (decorator.checkType d site b)

/-- No decorator of a registry looks at the order of resources. -/
def Registry.Extensional (r : Registry) : Prop := ∀ d ∈ r.decorators, d.Extensional

theorem Spec.matched_checkType (spec : Spec) (d : Decoration) (site : Site) {a b : Ty}
    (h : a.Like b) : Matched Eq (spec.checkType d site a) (spec.checkType d site b) := by
  have hadmits : spec.restriction.admits a = spec.restriction.admits b := by
    rw [← Restriction.admits_listed, h, Restriction.admits_listed]
  unfold Spec.checkType
  rw [hadmits]
  cases spec.restriction with
  | unrestricted => exact .ok rfl
  | oneOf classes =>
    dsimp only
    split
    · exact .ok rfl
    · exact .error rfl

theorem Decorator.extensional_of_spec {decorator : Decorator}
    (h : decorator.checkType = decorator.spec.checkType) : decorator.Extensional := by
  intro d site a b hlst
  rw [h]
  exact decorator.spec.matched_checkType d site hlst

theorem Decorator.Allowed.fits_listed (t : Ty) (v : Value) : fits t.listed v = fits t v := by
  rw [fits, fits, Value.conforms_listed, Ty.elem?_listed]
  cases t.elem? with
  | none => rfl
  | some elem => simp only [Option.map_some, Option.any_some, Value.conforms_listed]

theorem Decorator.extensional_allowed : allowed.Extensional := by
  intro d site a b h
  have hfits : Allowed.fits a = Allowed.fits b := by
    funext v
    rw [← Allowed.fits_listed, h, Allowed.fits_listed]
  show Matched _ (Allowed.checkType d site a) (Allowed.checkType d site b)
  unfold Allowed.checkType
  rw [hfits]
  have hspec := Allowed.spec.matched_checkType d site h
  revert hspec
  generalize Allowed.spec.checkType d site a = x
  generalize Allowed.spec.checkType d site b = y
  rintro (- | h)
  · split
    · exact .error rfl
    · exact .ok rfl
  · exact .error h

theorem Registry.extensional_builtin (engine : Pattern.Engine) :
    (Registry.builtin engine).Extensional := by
  intro decorator hmem
  -- only `@allowed` has a check of types that is not that of its description
  rcases mem_cons.mp hmem with rfl | hmem
  · exact Decorator.extensional_allowed
  · simp only [mem_cons, not_mem_nil, or_false] at hmem
    rcases hmem with rfl | rfl | rfl | rfl | rfl | rfl | rfl | rfl | rfl | rfl | rfl | rfl | rfl |
      rfl <;> exact Decorator.extensional_of_spec rfl

end Provision
