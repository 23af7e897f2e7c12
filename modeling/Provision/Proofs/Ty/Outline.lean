import Provision.Proofs.Session.Types

/-!
# What equality of types looks at

Equality of types tells schemas, resources and components apart by their names alone. So it is the
equality of `Ty.outline`, a type without anything that is known about them (`Ty.same_outline`), and
unions are made of outlines as of types (`Ty.outline_ofVariants`).

`Ty.core` is what of a type stays the same for as long as a name is bound to it: the properties of a
schema come later, and so do its resources, the instances in a component, and the result of a
function that is not written.
-/

namespace Provision.Ty

open List

variable {t : Ty} {ts : List Ty}

/-! ### Outlines -/

mutual

/-- A type with schemas, resources and components by their names alone. -/
def outline : Ty → Ty
  | .scalar kind => .scalar kind
  | .array elem => .array (outline elem)
  | .object fields => .object (outlineFields fields)
  | .union variants => .union (outlineAll variants)
  | .function params result => .function (outlineAll params) (outline result)
  | .schema name _ _ => .schema name [] []
  | .resource name owner _ => .resource name owner []
  | .component name inst _ _ _ => .component name inst [] [] []

def outlineFields : List (String × Ty) → List (String × Ty)
  | [] => []
  | (name, t) :: rest => (name, outline t) :: outlineFields rest

def outlineAll : List Ty → List Ty
  | [] => []
  | t :: ts => outline t :: outlineAll ts

end

theorem outlineAll_eq (ts : List Ty) : outlineAll ts = ts.map outline := by
  induction ts with
  | nil => rfl
  | cons t ts ih => rw [outlineAll, ih, map_cons]

theorem outlineFields_eq (fs : List (String × Ty)) :
    outlineFields fs = fs.map fun f => (f.1, outline f.2) := by
  induction fs with
  | nil => rfl
  | cons f fs ih => rw [outlineFields, ih, map_cons]

theorem find?_outlineFields (fs : Table Ty) (n : String) :
    Table.find? (outlineFields fs) n = (Table.find? fs n).map outline := by
  rw [outlineFields_eq]
  exact Table.find?_map outline

mutual

/-- Equality looks at nothing but outlines. -/
theorem same_outline : ∀ a b : Ty, same (outline a) (outline b) = same a b
  | .scalar _, b => by cases b <;> simp only [outline, same]
  | .array a, b => by
    cases b with
    | array b => simp only [outline, same, same_outline a b]
    | _ => simp only [outline, same]
  | .object fs, b => by
    cases b with
    | object gs =>
      have hfs : (outlineFields fs).length = fs.length := by rw [outlineFields_eq, length_map]
      have hgs : (outlineFields gs).length = gs.length := by rw [outlineFields_eq, length_map]
      simp only [outline, same, hfs, hgs, sameFields_outline fs gs]
    | _ => simp only [outline, same]
  | .union vs, b => by
    cases b with
    | union ws =>
      have hvs : (outlineAll vs).length = vs.length := by rw [outlineAll_eq, length_map]
      have hws : (outlineAll ws).length = ws.length := by rw [outlineAll_eq, length_map]
      simp only [outline, same, hvs, hws, sameVariants_outline vs ws]
    | _ => simp only [outline, same]
  | .function ps r, b => by
    cases b with
    | function qs t => simp only [outline, same, sameList_outline ps qs, same_outline r t]
    | _ => simp only [outline, same]
  | .schema _ _ _, b => by cases b <;> simp only [outline, same]
  | .resource _ _ _, b => by cases b <;> simp only [outline, same]
  | .component _ _ _ _ _, b => by cases b <;> simp only [outline, same]

theorem sameFields_outline : ∀ fs gs : List (String × Ty),
    sameFields (outlineFields fs) (outlineFields gs) = sameFields fs gs
  | [], _ => by rw [outlineFields, sameFields, sameFields]
  | (name, t) :: rest, gs => by
    rw [outlineFields, sameFields, sameFields, sameFields_outline rest gs, find?_outlineFields]
    cases Table.find? gs name with
    | none => rfl
    | some u => simp only [Option.map_some, same_outline t u]

theorem sameVariants_outline : ∀ vs ws : List Ty,
    sameVariants (outlineAll vs) (outlineAll ws) = sameVariants vs ws
  | [], _ => by rw [outlineAll, sameVariants, sameVariants]
  | v :: rest, ws => by
    have hany : (outlineAll ws).any (same (outline v)) = ws.any (same v) := by
      rw [outlineAll_eq, any_map]
      exact congrArg ws.any (funext fun w => same_outline v w)
    rw [outlineAll, sameVariants, sameVariants, hany, sameVariants_outline rest ws]

theorem sameList_outline : ∀ ts us : List Ty,
    sameList (outlineAll ts) (outlineAll us) = sameList ts us
  | [], us => by cases us <;> simp only [outlineAll, sameList]
  | t :: ts, us => by
    cases us with
    | nil => simp only [outlineAll, sameList]
    | cons u us =>
      rw [outlineAll, outlineAll, sameList, sameList, same_outline t u, sameList_outline ts us]

end

/-! ### Unions -/

theorem variants_outline (t : Ty) : (outline t).variants = t.variants.map outline := by
  cases t with
  | union vs => exact outlineAll_eq vs
  | _ => rfl

/-- A map that respects equality can be pulled into unions. -/
theorem map_ofVariants {f : Ty → Ty} (hsame : ∀ a b, same (f a) (f b) = same a b)
    (hvs : ∀ t, (f t).variants = t.variants.map f)
    (hun : ∀ vs, f (.union vs) = .union (vs.map f)) (ts : List Ty) :
    f (ofVariants ts) = ofVariants (ts.map f) := by
  have hfold : ∀ us vs : List Ty,
      (us.map f).foldl addVariant (vs.map f) = (us.foldl addVariant vs).map f := by
    intro us
    induction us with
    | nil => exact fun _ => rfl
    | cons u us ih =>
      intro vs
      have hany : (vs.map f).any (same (f u)) = vs.any (same u) := by
        rw [any_map]
        exact congrArg vs.any (funext fun w => hsame u w)
      have hadd : addVariant (vs.map f) (f u) = (addVariant vs u).map f := by
        rw [addVariant, addVariant, hany]
        split
        · rfl
        · rw [map_append, map_singleton]
      rw [map_cons, foldl_cons, hadd, ih, foldl_cons]
  have hflat : (ts.map f).flatMap variants = (ts.flatMap variants).map f := by
    rw [flatMap_map, map_flatMap]
    exact flatMap_congr fun t _ => hvs t
  have hall := hfold (ts.flatMap variants) []
  rw [map_nil] at hall
  rw [ofVariants, ofVariants, hflat, hall]
  -- a single variant is itself, and the others are those of a union
  rcases (ts.flatMap variants).foldl addVariant [] with _ | ⟨t, _ | ⟨u, us⟩⟩
  · exact hun []
  · rfl
  · exact hun (t :: u :: us)

theorem outline_ofVariants (ts : List Ty) :
    (ofVariants ts).outline = ofVariants (ts.map outline) :=
  map_ofVariants same_outline variants_outline (fun vs => congrArg Ty.union (outlineAll_eq vs)) ts

/-! ### Flat types -/

/-- A type that equals itself, and is neither a union nor that of a function. -/
structure Single (t : Ty) : Prop where
  same_self : same t t = true
  union? : t.union? = none
  params? : t.params? = none

def Flat (t : Ty) : Prop := ∀ v ∈ t.variants, v.Single

theorem sameVariants_self {vs ws : List Ty} (h : ∀ v ∈ vs, same v v = true) (hvs : vs ⊆ ws) :
    sameVariants vs ws = true := by
  induction vs with
  | nil => rw [sameVariants]
  | cons v vs ih =>
    obtain ⟨hv, h⟩ := forall_mem_cons.mp h
    obtain ⟨hmem, hvs⟩ := cons_subset.mp hvs
    rw [sameVariants, ih h hvs, Bool.and_true]
    exact any_eq_true.mpr ⟨v, hmem, hv⟩

theorem Flat.same_self (h : t.Flat) : same t t = true := by
  cases t with
  | union vs =>
    rw [same, beq_self_eq_true, Bool.true_and]
    exact sameVariants_self (fun v hv => (h v hv).same_self) (Subset.refl vs)
  | _ => exact (h _ (mem_singleton_self _)).same_self

theorem Flat.same_of_outline {u : Ty} (h : t.Flat) (hu : u.outline = t.outline) :
    same t u = true := by
  rw [← same_outline, hu, same_outline]
  exact h.same_self

theorem Flat.params? (h : t.Flat) : t.params? = none := by
  cases t with
  | function params result => exact (h _ (mem_singleton_self _)).params?
  | _ => rfl

theorem Single.flat (h : t.Single) : t.Flat := by
  have hun := h.union?
  intro v hv
  cases t with
  | union vs => cases hun
  | _ => exact mem_singleton.mp hv ▸ h

theorem flat_schema (name : String) (props resources : Table Ty) :
    (Ty.schema name props resources).Flat :=
  Single.flat ⟨by rw [same, beq_self_eq_true], rfl, rfl⟩

theorem flat_component (name : String) (inst : Option String) (inputs outputs : Table Ty)
    (nested : List Ty) : (Ty.component name inst inputs outputs nested).Flat :=
  Single.flat ⟨by rw [same, beq_self_eq_true, beq_self_eq_true]; rfl, rfl, rfl⟩

theorem Flat.array (h : t.Flat) : (Ty.array t).Flat :=
  Single.flat ⟨by rw [same, h.same_self], rfl, rfl⟩

theorem variants_ofVariants_of_union? (h : ∀ t ∈ ts, ∀ v ∈ t.variants, v.union? = none) :
    (ofVariants ts).variants = (ts.flatMap variants).foldl addVariant [] := by
  have hflat : ∀ v ∈ (ts.flatMap variants).foldl addVariant [], v.union? = none := by
    intro v hv
    rcases mem_foldl_addVariant hv with hnil | hmem
    · cases hnil
    · obtain ⟨t, ht, hvt⟩ := mem_flatMap.mp hmem
      exact h t ht v hvt
  unfold ofVariants
  split
  · next t heq => rw [heq, variants_of_union? (hflat t (heq ▸ mem_singleton_self t))]
  · rfl

theorem variants_ofVariants (h : ∀ t ∈ ts, t.Flat) :
    (ofVariants ts).variants = (ts.flatMap variants).foldl addVariant [] :=
  variants_ofVariants_of_union? fun t ht v hv => (h t ht v hv).union?

theorem Flat.ofVariants (h : ∀ t ∈ ts, t.Flat) : (Ty.ofVariants ts).Flat := by
  intro v hv
  rw [variants_ofVariants h] at hv
  rcases mem_foldl_addVariant hv with hnil | hmem
  · cases hnil
  · obtain ⟨t, ht, hvt⟩ := mem_flatMap.mp hmem
    exact h t ht v hvt

/-! ### Variants at any depth -/

theorem leaves_of_union? (h : t.union? = none) : t.leaves = [t] := by
  cases t with
  | union vs => cases h
  | _ => simp [leaves]

theorem leavesAll_eq (ts : List Ty) : leavesAll ts = ts.flatMap leaves := by
  induction ts with
  | nil => rw [leavesAll, flatMap_nil]
  | cons t ts ih => rw [leavesAll, ih, flatMap_cons]

theorem mem_leaves_union {vs : List Ty} : t ∈ (Ty.union vs).leaves ↔ ∃ v ∈ vs, t ∈ v.leaves := by
  rw [leaves, leavesAll_eq, mem_flatMap]

theorem mem_leaves_of_mem_variants {v u : Ty} (hv : v ∈ t.variants) (hu : u ∈ v.leaves) :
    u ∈ t.leaves := by
  cases t with
  | union vs => exact mem_leaves_union.mpr ⟨v, hv, hu⟩
  | _ => exact mem_singleton.mp hv ▸ hu

theorem exists_of_mem_leaves_ofVariants {u : Ty}
    (hu : u ∈ (Ty.ofVariants ts).leaves) : ∃ t ∈ ts, u ∈ t.leaves := by
  have hlist : ∀ v ∈ (ts.flatMap variants).foldl addVariant [], u ∈ v.leaves →
      ∃ t ∈ ts, u ∈ t.leaves := by
    intro v hv hu
    obtain ⟨t, ht, hvt⟩ := mem_flatMap.mp
      ((mem_foldl_addVariant hv).resolve_left not_mem_nil)
    exact ⟨t, ht, mem_leaves_of_mem_variants hvt hu⟩
  unfold Ty.ofVariants at hu
  split at hu
  · next t heq => exact hlist t (heq ▸ mem_singleton_self t) hu
  · obtain ⟨v, hv, hu⟩ := mem_leaves_union.mp hu
    exact hlist v hv hu

theorem Flat.mem_leaves_iff (h : t.Flat) {v : Ty} : v ∈ t.leaves ↔ v ∈ t.variants := by
  cases t with
  | union vs =>
    have hsingle : ∀ w ∈ vs, w.leaves = [w] := fun w hw => leaves_of_union? (h w hw).union?
    rw [mem_leaves_union]
    constructor
    · rintro ⟨w, hw, hv⟩
      rw [hsingle w hw] at hv
      exact mem_singleton.mp hv ▸ hw
    · exact fun hv => ⟨v, hv, hsingle v hv ▸ mem_singleton_self v⟩
  | _ => rw [leaves_of_union? rfl]; rfl

/-! ### Types that fit everything -/

def AllAny (t : Ty) : Prop := ∀ v ∈ t.variants, v = .any

theorem eq_any_of_same (h : same t .any = true) : t = .any := by
  cases t with
  | scalar kind =>
    rw [same, beq_iff_eq] at h
    rw [h]
  | _ => simp only [same, Bool.false_eq_true] at h

theorem eq_any_of_any_same (h : same .any t = true) : t = .any := by
  cases t with
  | scalar kind =>
    rw [same, beq_iff_eq] at h
    rw [← h]
  | _ => simp only [same, Bool.false_eq_true] at h

theorem subset_foldl_addVariant (ts acc : List Ty) : acc ⊆ ts.foldl addVariant acc := by
  induction ts generalizing acc with
  | nil => exact Subset.refl acc
  | cons t ts ih =>
    refine Subset.trans ?_ (ih (addVariant acc t))
    unfold addVariant
    split
    · exact Subset.refl acc
    · exact subset_append_left acc [t]

theorem eq_any_of_foldl_addVariant {acc : List Ty}
    (h : ∀ w ∈ ts.foldl addVariant acc, w = .any) : ∀ v ∈ ts, v = .any := by
  induction ts generalizing acc with
  | nil => exact forall_mem_nil _
  | cons t ts ih =>
    refine forall_mem_cons.mpr ⟨?_, ih h⟩
    have hadd : ∀ w ∈ addVariant acc t, w = .any :=
      fun w hw => h w (subset_foldl_addVariant ts (addVariant acc t) hw)
    unfold addVariant at hadd
    split at hadd
    · next hany =>
      obtain ⟨w, hw, hsame⟩ := any_eq_true.mp hany
      rw [hadd w hw] at hsame
      exact eq_any_of_same hsame
    · exact hadd t (mem_append_right acc (mem_singleton_self t))

theorem AllAny.of_ofVariants (hts : ∀ t ∈ ts, t.Flat) (h : (ofVariants ts).AllAny) :
    ∀ t ∈ ts, t.AllAny := by
  intro t ht v hv
  unfold AllAny at h
  rw [variants_ofVariants hts] at h
  exact eq_any_of_foldl_addVariant h v (mem_flatMap.mpr ⟨t, ht, hv⟩)

/-! ### Cores -/

/-- What of a type stays the same while a name is bound to it. -/
def core : Ty → Ty
  | .schema name _ _ => .schema name [] []
  | .component name inst inputs outputs _ => .component name inst inputs outputs []
  | .function params _ => .function params .any
  | t => t

theorem alike_core (t : Ty) : t.Alike t.core := by
  cases t with
  | component name inst inputs outputs nested => cases inst <;> exact ⟨rfl, rfl, rfl, rfl⟩
  | _ => exact ⟨rfl, rfl, rfl, rfl⟩

theorem Alike.of_core {u : Ty} (h : u.core = t.core) : t.Alike u where
  kind? := by rw [← (alike_core u).kind?, h, (alike_core t).kind?]
  params? := by rw [← (alike_core u).params?, h, (alike_core t).params?]
  union? := by rw [← (alike_core u).union?, h, (alike_core t).union?]
  definition? := by rw [← (alike_core u).definition?, h, (alike_core t).definition?]

theorem eq_any_of_core (h : t.core = Ty.core .any) : t = .any := by
  cases t <;> first | exact h | cases h

theorem outline_of_core {u : Ty} (h : u.core = t.core) (ht : t.params? = none) :
    u.outline = t.outline := by
  cases t <;> cases u <;> simp_all [core, outline, Ty.params?]

theorem Flat.of_core {u : Ty} (hflat : t.Flat) (h : u.core = t.core) : u.Flat := by
  have ht := hflat.params?
  cases u with
  | schema name props resources => exact flat_schema name props resources
  | component name inst inputs outputs nested =>
    exact flat_component name inst inputs outputs nested
  | function params result => cases t <;> simp_all [core, Ty.params?]
  | _ =>
    cases t <;> simp_all [core]

end Provision.Ty
