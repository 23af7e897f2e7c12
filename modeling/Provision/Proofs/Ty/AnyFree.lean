import Provision.Proofs.Literals

/-!
# Assignment through types without `any`

What can be assigned to `any` need not have anything to do with what `any` can be assigned to. In a
type without it (`Ty.AnyFree`) nothing gets lost: what can be assigned to it can be assigned to
whatever it can be assigned to (`Ty.assignable_trans`), and its values conform to whatever it can be
assigned to (`Value.conforms_of_assignable`).

Assignment is a matter of variants: each of one type is `any` or fits one of the other. A variant
without `any` is a bridge (`Ty.Bridge`): what fits it fits where it fits. Values need no argument of
their own, since for every value there is a type that can be assigned exactly where the value
conforms (`Ty.exists_stands`).
-/

namespace Provision

open List

namespace Ty

variable {a b c s t u : Ty}

/-! ### Bridges -/

/-- A type that is not `any`, and what fits it fits where it fits. -/
structure Bridge (t : Ty) : Prop where
  ne_any : t ≠ .any
  trans : ∀ {s u}, Fits s t → Fits t u → Fits s u

theorem assignable_of_bridges (h : ∀ t ∈ b.leaves, t.Bridge) (hab : assignable a b = true)
    (hbc : assignable b c = true) : assignable a c = true := by
  refine assignable_iff_leaves.mpr fun s hs => ?_
  rcases assignable_iff_leaves.mp hab s hs with hany | ⟨t, ht, hst⟩
  · exact Or.inl hany
  · obtain ⟨u, hu, htu⟩ := (assignable_iff_leaves.mp hbc t ht).resolve_left (h t ht).ne_any
    exact Or.inr ⟨u, hu, (h t ht).trans hst htu⟩

theorem Bridge.leaves (h : t.Bridge) (ht : t.union? = none) : ∀ u ∈ t.leaves, u.Bridge := by
  rw [leaves_of_union? ht]
  exact forall_mem_singleton.mpr h

theorem bridge_of_same (hany : t ≠ .any) (h : ∀ {s}, Fits s t → same s t = true) : t.Bridge where
  ne_any := hany
  trans hs hu := fits_of_same_of_fits (h hs) hu

theorem bridge_scalar {kind : Scalar} (h : kind ≠ .any) : (Ty.scalar kind).Bridge := by
  refine bridge_of_same (fun heq => h (Ty.scalar.inj heq)) fun hs => ?_
  cases hs with
  | any => exact absurd rfl h
  | same hsame => exact hsame

theorem bridge_function (ps : List Ty) (r : Ty) : (Ty.function ps r).Bridge := by
  refine bridge_of_same nofun fun hs => ?_
  cases hs with
  | same hsame => exact hsame

theorem bridge_resource (name owner : String) (ps : List (String × Ty)) :
    (Ty.resource name owner ps).Bridge := by
  refine bridge_of_same nofun fun hs => ?_
  cases hs with
  | same hsame => exact hsame

theorem bridge_array (h : ∀ t ∈ a.leaves, t.Bridge) : (Ty.array a).Bridge where
  ne_any := nofun
  trans hs hu := by
    cases hs with
    | same hsame => exact fits_of_same_of_fits hsame hu
    | array helem =>
      rcases fits_array_iff.mp hu with rfl | ⟨e, rfl, helem'⟩
      · exact .any _
      · exact .array (assignable_of_bridges h helem helem')

theorem bridge_object {gs : List (String × Ty)} (h : ∀ g ∈ gs, ∀ t ∈ g.2.leaves, t.Bridge) :
    (Ty.object gs).Bridge where
  ne_any := nofun
  trans hs hu := by
    cases hs with
    | same hsame => exact fits_of_same_of_fits hsame hu
    | openObject fs =>
      rcases fits_object_iff.mp hu with rfl | ⟨hs, rfl, rfl | ⟨hlen, -⟩⟩
      · exact .any _
      · exact .openObject fs
      · -- the open type fits no object with fields
        rw [eq_nil_of_length_eq_zero hlen.symm]
        exact .openObject fs
    | object hlen hflds =>
      rcases fits_object_iff.mp hu with rfl | ⟨hs, rfl, rfl | ⟨hlen', hflds'⟩⟩
      · exact .any _
      · exact .openObject _
      · refine .object (hlen.trans hlen') (assignableFields_iff.mpr fun f hf => ?_)
        obtain ⟨g, hg, hfg⟩ := assignableFields_iff.mp hflds f hf
        have hmem := Table.mem_of_find? hg
        obtain ⟨w, hw, hgw⟩ := assignableFields_iff.mp hflds' _ hmem
        exact ⟨w, hw, assignable_of_bridges (h _ hmem) hfg hgw⟩

theorem bridge_schema (name : String) (ps rs : List (String × Ty)) :
    (Ty.schema name ps rs).Bridge where
  ne_any := nofun
  trans hs hu := by
    cases hs with
    | same hsame => exact fits_of_same_of_fits hsame hu
    | resource =>
      cases hu with
      | any => exact .any _
      | same hsame =>
        cases same_iff_matches.mp hsame with
        | schema => exact .resource _ _ _ _ _

theorem bridge_component (name : String) (inst : Option String) (is os : List (String × Ty))
    (ns : List Ty) : (Ty.component name inst is os ns).Bridge where
  ne_any := nofun
  trans hs hu := by
    cases hs with
    | same hsame => exact fits_of_same_of_fits hsame hu
    | component =>
      cases hu with
      | any => exact .any _
      | same hsame =>
        cases same_iff_matches.mp hsame with
        | component => exact .component _ _ _ _ _ _ _ _ _
      | component => exact .component _ _ _ _ _ _ _ _ _

/-! ### Types without `any` -/

/-- A type that is not `any` and has no `any` among its elements, fields and variants. Parameters
and results of functions, and what is known about schemas, resources and components, do not
count. -/
inductive AnyFree : Ty → Prop
  | scalar {kind : Scalar} (ne_any : kind ≠ .any) : AnyFree (.scalar kind)
  | array {e : Ty} (elem : AnyFree e) : AnyFree (.array e)
  | object {fs : List (String × Ty)} (fields : ∀ f ∈ fs, AnyFree f.2) : AnyFree (.object fs)
  | union {vs : List Ty} (variants : ∀ v ∈ vs, AnyFree v) : AnyFree (.union vs)
  | function (ps : List Ty) (r : Ty) : AnyFree (.function ps r)
  | schema (name : String) (ps rs : List (String × Ty)) : AnyFree (.schema name ps rs)
  | resource (name owner : String) (ps : List (String × Ty)) : AnyFree (.resource name owner ps)
  | component (name : String) (inst : Option String) (is os : List (String × Ty)) (ns : List Ty) :
    AnyFree (.component name inst is os ns)

theorem AnyFree.bridge (h : b.AnyFree) : ∀ t ∈ b.leaves, t.Bridge := by
  induction h with
  | union _ ih =>
    intro t ht
    obtain ⟨v, hv, ht⟩ := mem_leaves_union.mp ht
    exact ih v hv t ht
  | array _ ih => exact (bridge_array ih).leaves rfl
  | object _ ih => exact (bridge_object ih).leaves rfl
  | scalar hkind => exact (bridge_scalar hkind).leaves rfl
  | function ps r => exact (bridge_function ps r).leaves rfl
  | schema name ps rs => exact (bridge_schema name ps rs).leaves rfl
  | resource name owner ps => exact (bridge_resource name owner ps).leaves rfl
  | component name inst is os ns => exact (bridge_component name inst is os ns).leaves rfl

/-- **Transitivity.** What can be assigned to a type without `any` can be assigned to whatever that
type can be assigned to. -/
theorem assignable_trans (hb : b.AnyFree) (hab : assignable a b = true)
    (hbc : assignable b c = true) : assignable a c = true :=
  assignable_of_bridges hb.bridge hab hbc

/-- A name with ports, some of which may be missing. -/
private def endpoint : Ty :=
  .object [("name", .string), ("ports", .array (.union [.number, .null]))]

/-- A name alone, or a name that may be missing with ports of any kind. -/
private def nameOrEndpoint : Ty :=
  .union [.string, .object [("ports", .array .any), ("name", .union [.string, .null])]]

private theorem anyFree_endpoint : endpoint.AnyFree := by
  have hports : (Ty.union [.number, .null]).AnyFree :=
    .union (forall_mem_cons.mpr ⟨.scalar nofun, forall_mem_singleton.mpr (.scalar nofun)⟩)
  exact .object (forall_mem_cons.mpr
    ⟨.scalar nofun, forall_mem_singleton.mpr (.array hports)⟩)

/-- An object with fields in another order, whose ports can be anything, passes through to a union
with `any` in it. -/
theorem assignable_trans_endpoint :
    let source : Ty := .object [("ports", .array .any), ("name", .string)]
    endpoint.AnyFree ∧ assignable source endpoint = true ∧
      assignable endpoint nameOrEndpoint = true ∧ assignable source nameOrEndpoint = true := by
  intro source
  have hsrc : assignable source endpoint = true := by decide +kernel
  have htgt : assignable endpoint nameOrEndpoint = true := by decide +kernel
  exact ⟨anyFree_endpoint, hsrc, htgt, assignable_trans anyFree_endpoint hsrc htgt⟩

-- through `any` everything could be assigned to everything
example : assignable .number .any = true ∧ assignable .any .string = true ∧
    assignable .number .string = false := by
  decide +kernel

/-! ### Types that stand for values -/

mutual

/-- For every value there is a type that can be assigned exactly where the value conforms. -/
theorem exists_stands : ∀ v : Value, ∃ type, Stands none v type
  | .null => ⟨.null, stands_scalar rfl⟩
  | .bool _ => ⟨.boolean, stands_scalar rfl⟩
  | .number _ => ⟨.number, stands_scalar rfl⟩
  | .string _ => ⟨.string, stands_scalar rfl⟩
  | .array items => by
    obtain ⟨types, hstands⟩ := exists_stands_items items
    exact ⟨_, stands_array hstands⟩
  | .object fields => by
    obtain ⟨types, hstands⟩ := exists_stands_fields fields
    exact ⟨_, stands_object (Or.inl rfl) hstands⟩

theorem exists_stands_items : ∀ vs : List Value, ∃ types, Forall₂ (Stands none) vs types
  | [] => ⟨[], .nil⟩
  | v :: vs => by
    obtain ⟨type, hstands⟩ := exists_stands v
    obtain ⟨types, hrest⟩ := exists_stands_items vs
    exact ⟨type :: types, .cons hstands hrest⟩

theorem exists_stands_fields : ∀ fs : List (String × Value),
    ∃ types, Forall₂ (StandsAt []) fs types
  | [] => ⟨[], .nil⟩
  | (key, v) :: fs => by
    obtain ⟨type, hstands⟩ := exists_stands v
    obtain ⟨types, hrest⟩ := exists_stands_fields fs
    exact ⟨(key, type) :: types, .cons ⟨rfl, hstands⟩ hrest⟩

end

end Ty

namespace Value

variable {a b : Ty} {v : Value}

/-- **Soundness.** A value that conforms to a type without `any` conforms to whatever that type can
be assigned to. -/
theorem conforms_of_assignable (ha : a.AnyFree) (hv : v.conforms a = true)
    (h : a.assignable b = true) : v.conforms b = true := by
  obtain ⟨type, hstands⟩ := Ty.exists_stands v
  rw [← hstands.assignable_iff (Or.inl rfl)] at hv ⊢
  exact Ty.assignable_of_bridges ha.bridge hv h

/-- An object of a type that has its fields in another order conforms to a union, too. -/
theorem conforms_of_assignable_endpoint :
    let v : Value := .object [("ports", .array [.number (Number.ofInt 80), .null]),
      ("name", .string "web")]
    Ty.endpoint.AnyFree ∧ v.conforms Ty.endpoint = true ∧
      Ty.endpoint.assignable Ty.nameOrEndpoint = true ∧
      v.conforms Ty.nameOrEndpoint = true := by
  intro v
  have hv : v.conforms Ty.endpoint = true := by decide +kernel
  have htgt : Ty.endpoint.assignable Ty.nameOrEndpoint = true := by decide +kernel
  exact ⟨Ty.anyFree_endpoint, hv, htgt,
    conforms_of_assignable Ty.anyFree_endpoint hv htgt⟩

-- an array of anything can be assigned to an array of strings, whatever its elements are
example :
    (Value.array [.null]).conforms (.array .any) = true ∧
      Ty.assignable (.array .any) (.array .string) = true ∧
      (Value.array [.null]).conforms (.array .string) = false := by
  decide +kernel

end Value

end Provision
