import Provision.Proofs.Ty.Outline

/-!
# Equality and assignment of types

Equality of types is transitive (`Ty.same_trans`), and a type whose tables have distinct names
equals itself (`Ty.Tabular.same_self`). Assignment is coarser: equal types can be assigned
(`Ty.assignable_of_same`), and in place of a type an equal one can be
(`Ty.assignable_of_same_of_assignable`). So it does not matter that a union lists equal types once:
a union can be assigned exactly if all the types that it was made of can
(`Ty.assignable_ofVariants_iff`). Altogether, one type can be assigned to another if each of its
variants, at any depth, is `any` or fits one of the other (`Ty.assignable_iff_leaves`).
-/

namespace Provision.Ty

open List Table

variable {a b c s t u : Ty} {fs : List (String × Ty)} {vs ts : List Ty}

/-! ### Lists of types -/

theorem sameFields_iff {gs : List (String × Ty)} : sameFields fs gs = true ↔
    ∀ f ∈ fs, ∃ u, find? gs f.1 = some u ∧ same f.2 u = true := by
  induction fs with
  | nil => simp [sameFields]
  | cons f fs ih =>
    rw [sameFields, Bool.and_eq_true, ih, forall_mem_cons]
    cases find? gs f.1 with
    | none => simp
    | some u => simp

theorem sameVariants_iff {ws : List Ty} :
    sameVariants vs ws = true ↔ ∀ v ∈ vs, ∃ w ∈ ws, same v w = true := by
  induction vs with
  | nil => simp [sameVariants]
  | cons v vs ih => rw [sameVariants, Bool.and_eq_true, ih, forall_mem_cons, any_eq_true]

theorem sameList_iff {us : List Ty} :
    sameList ts us = true ↔ Forall₂ (fun t u => same t u = true) ts us := by
  induction ts generalizing us with
  | nil => cases us <;> simp [sameList]
  | cons t ts ih => cases us <;> simp [sameList, ih]

theorem assignableAll_iff : assignableAll vs b = true ↔ ∀ v ∈ vs, assignable v b = true := by
  induction vs with
  | nil => simp [assignableAll]
  | cons v vs ih => rw [assignableAll, Bool.and_eq_true, ih, forall_mem_cons]

theorem assignableFields_iff {gs : List (String × Ty)} : assignableFields fs gs = true ↔
    ∀ f ∈ fs, ∃ u, find? gs f.1 = some u ∧ assignable f.2 u = true := by
  induction fs with
  | nil => simp [assignableFields]
  | cons f fs ih =>
    rw [assignableFields, Bool.and_eq_true, ih, forall_mem_cons]
    cases find? gs f.1 with
    | none => simp
    | some u => simp

/-! ### Equality -/

/-- The shapes of two equal types, constructor by constructor. -/
inductive Matches : Ty → Ty → Prop
  | scalar (kind : Scalar) : Matches (.scalar kind) (.scalar kind)
  | array {a b : Ty} (elem : same a b = true) : Matches (.array a) (.array b)
  | object {fs gs : List (String × Ty)} (length : fs.length = gs.length)
    (fields : sameFields fs gs = true) : Matches (.object fs) (.object gs)
  | union {vs ws : List Ty} (length : vs.length = ws.length)
    (variants : sameVariants vs ws = true) : Matches (.union vs) (.union ws)
  | function {ps qs : List Ty} {r t : Ty} (params : sameList ps qs = true)
    (result : same r t = true) : Matches (.function ps r) (.function qs t)
  | schema (name : String) (ps qs rs ts : List (String × Ty)) :
    Matches (.schema name ps rs) (.schema name qs ts)
  | resource (name owner : String) (ps qs : List (String × Ty)) :
    Matches (.resource name owner ps) (.resource name owner qs)
  | component (name : String) (inst : Option String) (is js os us : List (String × Ty))
    (ns ms : List Ty) : Matches (.component name inst is os ns) (.component name inst js us ms)

/-- Equality goes by the parts of types of one form. -/
theorem same_iff_matches : same a b = true ↔ Matches a b := by
  constructor
  · intro h
    cases a <;> cases b <;> simp only [same, Bool.and_eq_true, beq_iff_eq, Bool.false_eq_true] at h
    case scalar.scalar => subst h; exact .scalar _
    case array.array => exact .array h
    case object.object => exact .object h.1 h.2
    case union.union => exact .union h.1 h.2
    case function.function => exact .function h.1 h.2
    case schema.schema => subst h; exact .schema _ _ _ _ _
    case resource.resource => obtain ⟨rfl, rfl⟩ := h; exact .resource _ _ _ _
    case component.component => obtain ⟨rfl, rfl⟩ := h; exact .component _ _ _ _ _ _ _ _
  · intro h
    cases h with
    | object hlen hflds => rw [same, hlen, hflds, beq_self_eq_true, Bool.and_self]
    | union hlen hvs => rw [same, hlen, hvs, beq_self_eq_true, Bool.and_self]
    | function hps hrt => rw [same, hps, hrt, Bool.and_self]
    | array helem => rw [same, helem]
    | _ => simp [same]

/-- The types inside a type that equality looks at. -/
def parts : Ty → List Ty
  | .array elem => [elem]
  | .object fields => fields.map (·.2)
  | .union variants => variants
  | .function params result => result :: params
  | _ => []

theorem sizeOf_lt_of_mem_parts (h : s ∈ t.parts) : sizeOf s < sizeOf t := by
  cases t with
  | array elem => simp [mem_singleton.mp h]
  | object fields =>
    obtain ⟨⟨name, u⟩, hf, rfl⟩ := mem_map.mp h
    have hlt := sizeOf_lt_of_mem hf
    simp only [Prod.mk.sizeOf_spec, Ty.object.sizeOf_spec] at hlt ⊢
    omega
  | union variants =>
    have hlt : sizeOf s < sizeOf variants := sizeOf_lt_of_mem h
    rw [Ty.union.sizeOf_spec]
    omega
  | function params result =>
    rw [Ty.function.sizeOf_spec]
    rcases mem_cons.mp h with rfl | h
    · omega
    · have hlt := sizeOf_lt_of_mem h
      omega
  | _ => cases h

/-- To prove something of all types, take it for granted of the types inside. -/
@[elab_as_elim]
theorem parts_induction {motive : Ty → Prop} (step : ∀ t, (∀ p ∈ t.parts, motive p) → motive t)
    (t : Ty) : motive t :=
  step t fun p _ => parts_induction step p
termination_by sizeOf t
decreasing_by exact sizeOf_lt_of_mem_parts ‹_›

theorem sameList_trans {us ws : List Ty} (h : ∀ t ∈ ts, ∀ {b c}, same t b = true →
      same b c = true → same t c = true) (htu : sameList ts us = true)
    (huw : sameList us ws = true) : sameList ts ws = true := by
  rw [sameList_iff] at htu huw ⊢
  induction htu generalizing ws with
  | nil => exact huw
  | cons ht _ ih =>
    obtain ⟨hfst, h⟩ := forall_mem_cons.mp h
    cases huw with
    | cons hu huw => exact .cons (hfst ht hu) (ih h huw)

/-- Equality of types is transitive, for any types. -/
theorem same_trans (a : Ty) {b c : Ty} (hab : same a b = true) (hbc : same b c = true) :
    same a c = true := by
  induction a using parts_induction generalizing b c with
  | step a ih =>
    cases same_iff_matches.mp hab with
    | scalar => exact hbc
    | array helem =>
      cases same_iff_matches.mp hbc with
      | array helem' =>
        exact same_iff_matches.mpr (.array (ih _ (mem_singleton_self _) helem helem'))
    | object hlen hflds =>
      cases same_iff_matches.mp hbc with
      | object hlen' hflds' =>
        refine same_iff_matches.mpr
          (.object (hlen.trans hlen') (sameFields_iff.mpr fun f hf => ?_))
        -- the entry that the name has in the middle has an equal one in its turn
        obtain ⟨u, hu, hfu⟩ := sameFields_iff.mp hflds f hf
        obtain ⟨w, hw, huw⟩ := sameFields_iff.mp hflds' _ (mem_of_find? hu)
        exact ⟨w, hw, ih f.2 (mem_map_of_mem hf) hfu huw⟩
    | union hlen hvs =>
      cases same_iff_matches.mp hbc with
      | union hlen' hvs' =>
        refine same_iff_matches.mpr
          (.union (hlen.trans hlen') (sameVariants_iff.mpr fun v hv => ?_))
        obtain ⟨w, hw, hvw⟩ := sameVariants_iff.mp hvs v hv
        obtain ⟨x, hx, hwx⟩ := sameVariants_iff.mp hvs' w hw
        exact ⟨x, hx, ih v hv hvw hwx⟩
    | function hps hrt =>
      cases same_iff_matches.mp hbc with
      | function hps' hrt' =>
        exact same_iff_matches.mpr
          (.function (sameList_trans (fun p hp => ih p (mem_cons_of_mem _ hp)) hps hps')
            (ih _ mem_cons_self hrt hrt'))
    | schema =>
      cases same_iff_matches.mp hbc with
      | schema => exact same_iff_matches.mpr (.schema _ _ _ _ _)
    | resource =>
      cases same_iff_matches.mp hbc with
      | resource => exact same_iff_matches.mpr (.resource _ _ _ _)
    | component =>
      cases same_iff_matches.mp hbc with
      | component => exact same_iff_matches.mpr (.component _ _ _ _ _ _ _ _)

/-! ### Assignment -/

theorem isAny_iff : t.isAny = true ↔ t = .any := by
  unfold isAny
  split
  · simp
  · next h => simpa using fun ht => h ht

/-- A type that is no union fits a variant of another: one that fits everything, an equal one, or
one with elements or fields that its own can be assigned to; an instance fits what it is an instance
of. -/
inductive Fits : Ty → Ty → Prop
  | any (a : Ty) : Fits a .any
  | same {a t : Ty} (equal : same a t = true) : Fits a t
  | array {a e : Ty} (elem : assignable a e = true) : Fits (.array a) (.array e)
  | openObject (fs : List (String × Ty)) : Fits (.object fs) (.object [])
  | object {fs gs : List (String × Ty)} (length : fs.length = gs.length)
    (fields : assignableFields fs gs = true) : Fits (.object fs) (.object gs)
  | resource (name owner : String) (ps qs rs : List (String × Ty)) :
    Fits (.resource name owner ps) (.schema owner qs rs)
  | component (name : String) (inst inst' : Option String) (is js os us : List (String × Ty))
    (ns ms : List Ty) : Fits (.component name inst is os ns) (.component name inst' js us ms)

/-- A type that is no union can be assigned where a leaf takes it. -/
theorem assignable_iff (ha : a.union? = none) :
    assignable a b = true ↔ a = .any ∨ ∃ t ∈ b.leaves, Fits a t := by
  -- beside `any` and equal types each constructor has a test of its own, or none
  have htest : ∀ {f : Ty → Bool}, a ≠ .any → (∀ t, f t = true → Fits a t) →
      (∀ t, Fits a t → t = .any ∨ same a t = true ∨ f t = true) →
      (b.leaves.any (fun t => t.isAny || same a t || f t) = true ↔
        a = .any ∨ ∃ t ∈ b.leaves, Fits a t) := by
    intro f hany hf hfits
    simp only [any_eq_true, Bool.or_eq_true, isAny_iff, or_assoc, hany, false_or]
    refine exists_congr fun t => and_congr_right fun _ => ⟨?_, hfits t⟩
    rintro (rfl | hsame | h)
    exacts [.any a, .same hsame, hf t h]
  have hplain : a ≠ .any → (∀ t, Fits a t → t = .any ∨ same a t = true) →
      (b.leaves.any (fun t => t.isAny || same a t) = true ↔
        a = .any ∨ ∃ t ∈ b.leaves, Fits a t) := fun hany hfits => by
    simpa using htest (f := fun _ => false) hany nofun fun t h => (hfits t h).imp_right Or.inl
  cases a with
  | union vs => cases ha
  | scalar kind =>
    cases kind with
    | any => simp [assignable]
    | _ =>
      simp only [assignable]
      refine hplain (by simp) fun t h => ?_
      cases h with
      | any => exact .inl rfl
      | same h => exact .inr h
  | array a =>
    rw [assignable]
    refine htest Ty.noConfusion (fun t h => ?_) fun t h => ?_
    · cases t with
      | array e => exact .array h
      | _ => cases h
    · cases h with
      | any => exact .inl rfl
      | same h => exact .inr (.inl h)
      | array h => exact .inr (.inr h)
  | object fs =>
    rw [assignable]
    refine htest Ty.noConfusion (fun t h => ?_) fun t h => ?_
    · cases t with
      | object gs =>
        simp only [Bool.or_eq_true, List.isEmpty_iff, Bool.and_eq_true, beq_iff_eq] at h
        rcases h with rfl | ⟨hlen, hflds⟩
        · exact .openObject fs
        · exact .object hlen hflds
      | _ => cases h
    · cases h with
      | any => exact .inl rfl
      | same h => exact .inr (.inl h)
      | openObject => simp
      | object hlen hflds => simp [hlen, hflds]
  | function ps r =>
    simp only [assignable]
    refine hplain Ty.noConfusion fun t h => ?_
    cases h with
    | any => exact .inl rfl
    | same h => exact .inr h
  | schema name ps rs =>
    simp only [assignable]
    refine hplain Ty.noConfusion fun t h => ?_
    cases h with
    | any => exact .inl rfl
    | same h => exact .inr h
  | resource name owner ps =>
    rw [assignable]
    refine htest Ty.noConfusion (fun t h => ?_) fun t h => ?_
    · cases t with
      | schema n qs rs => exact beq_iff_eq.mp h ▸ .resource _ _ _ _ _
      | _ => cases h
    · cases h with
      | any => exact .inl rfl
      | same h => exact .inr (.inl h)
      | resource => simp
  | component name inst is os ns =>
    rw [assignable]
    refine htest Ty.noConfusion (fun t h => ?_) fun t h => ?_
    · cases t with
      | component n inst' js us ms => exact beq_iff_eq.mp h ▸ .component _ _ _ _ _ _ _ _ _
      | _ => cases h
    · cases h with
      | any => exact .inl rfl
      | same h => exact .inr (.inl h)
      | component => simp

theorem assignable_union_iff : assignable (.union vs) b = true ↔
    b = .any ∨ same (.union vs) b = true ∨ ∀ v ∈ vs, assignable v b = true := by
  rw [assignable, Bool.or_eq_true, Bool.or_eq_true, isAny_iff, assignableAll_iff, or_assoc]

theorem union?_eq_none_of_same (h : same a b = true) (ha : a.union? = none) : b.union? = none := by
  cases same_iff_matches.mp h with
  | union => cases ha
  | _ => rfl

theorem assignable_of_same (h : same a b = true) : assignable a b = true := by
  cases same_iff_matches.mp h with
  | union hlen hvs => exact assignable_union_iff.mpr (Or.inr (Or.inl h))
  | _ => exact (assignable_iff rfl).mpr (Or.inr ⟨_, by simp [leaves], .same h⟩)

theorem fits_array_iff :
    Fits (.array a) u ↔ u = .any ∨ ∃ e, u = .array e ∧ assignable a e = true := by
  constructor
  · intro h
    cases h with
    | any => exact Or.inl rfl
    | same hsame =>
      cases same_iff_matches.mp hsame with
      | array helem => exact Or.inr ⟨_, rfl, assignable_of_same helem⟩
    | array helem => exact Or.inr ⟨_, rfl, helem⟩
  · rintro (rfl | ⟨e, rfl, helem⟩)
    · exact .any _
    · exact .array helem

theorem fits_object_iff : Fits (.object fs) u ↔ u = .any ∨
    ∃ gs, u = .object gs ∧ (gs = [] ∨ fs.length = gs.length ∧ assignableFields fs gs = true) := by
  constructor
  · intro h
    cases h with
    | any => exact Or.inl rfl
    | same hsame =>
      cases same_iff_matches.mp hsame with
      | object hlen hflds =>
        refine Or.inr ⟨_, rfl, Or.inr ⟨hlen, assignableFields_iff.mpr fun f hf => ?_⟩⟩
        obtain ⟨w, hw, hfw⟩ := sameFields_iff.mp hflds f hf
        exact ⟨w, hw, assignable_of_same hfw⟩
    | openObject => exact Or.inr ⟨[], rfl, Or.inl rfl⟩
    | object hlen hflds => exact Or.inr ⟨_, rfl, Or.inr ⟨hlen, hflds⟩⟩
  · rintro (rfl | ⟨gs, rfl, rfl | ⟨hlen, hflds⟩⟩)
    · exact .any _
    · exact .openObject fs
    · exact .object hlen hflds

/-- A type fits where an equal one does, provided that equal elements and fields can be assigned
alike. -/
theorem fits_of_same_of_parts
    (hparts : ∀ p ∈ a.parts, ∀ {d f}, same p d = true → assignable d f = true →
      assignable p f = true)
    (hsame : same a b = true) (h : Fits b t) : Fits a t := by
  cases h with
  | any => exact .any a
  | same hsame' => exact .same (same_trans a hsame hsame')
  | array helem =>
    cases same_iff_matches.mp hsame with
    | array helem' => exact .array (hparts _ (mem_singleton_self _) helem' helem)
  | openObject =>
    cases same_iff_matches.mp hsame with
    | object => exact .openObject _
  | object hlen hflds =>
    cases same_iff_matches.mp hsame with
    | object hlen' hflds' =>
      refine .object (hlen'.trans hlen) (assignableFields_iff.mpr fun f hf => ?_)
      obtain ⟨u, hu, hfu⟩ := sameFields_iff.mp hflds' f hf
      obtain ⟨w, hw, huw⟩ := assignableFields_iff.mp hflds _ (mem_of_find? hu)
      exact ⟨w, hw, hparts f.2 (mem_map_of_mem hf) hfu huw⟩
  | resource =>
    cases same_iff_matches.mp hsame with
    | resource => exact .resource _ _ _ _ _
  | component =>
    cases same_iff_matches.mp hsame with
    | component => exact .component _ _ _ _ _ _ _ _ _

theorem assignable_of_same_of_assignable (a : Ty) {a' b : Ty} (hsame : same a a' = true)
    (h : assignable a' b = true) : assignable a b = true := by
  induction a using parts_induction generalizing a' b with
  | step a ih =>
    cases ha : a.union? with
    | none =>
      rcases (assignable_iff (union?_eq_none_of_same hsame ha)).mp h with rfl | ⟨t, ht, hfit⟩
      · exact (assignable_iff ha).mpr (Or.inl (eq_any_of_same hsame))
      · exact (assignable_iff ha).mpr (Or.inr ⟨t, ht, fits_of_same_of_parts ih hsame hfit⟩)
    | some vs =>
      cases same_iff_matches.mp hsame with
      | @union vs ws _ hvs =>
        rcases assignable_union_iff.mp h with hany | hsame' | hall
        · exact assignable_union_iff.mpr (Or.inl hany)
        · exact assignable_union_iff.mpr (Or.inr (Or.inl (same_trans (.union vs) hsame hsame')))
        · refine assignable_union_iff.mpr (Or.inr (Or.inr fun v hv => ?_))
          obtain ⟨w, hw, hvw⟩ := sameVariants_iff.mp hvs v hv
          exact ih v hv hvw (hall w hw)
      | _ => cases ha

theorem fits_of_same_of_fits (hsame : same a b = true) (h : Fits b t) : Fits a t :=
  fits_of_same_of_parts (fun p _ => assignable_of_same_of_assignable p) hsame h

/-! ### Variants at any depth -/

/-- To prove something of all types, look at types that are no unions and at unions. -/
@[elab_as_elim]
theorem union_induction {motive : Ty → Prop} (single : ∀ t, t.union? = none → motive t)
    (union : ∀ vs, (∀ v ∈ vs, motive v) → motive (.union vs)) (t : Ty) : motive t := by
  induction t using parts_induction with
  | step t ih =>
    cases t with
    | union vs => exact union vs ih
    | _ => exact single _ rfl

theorem exists_same_leaf (h : same a b = true) (hs : s ∈ a.leaves) :
    ∃ t ∈ b.leaves, same s t = true := by
  induction a using union_induction generalizing b with
  | single a ha =>
    rw [leaves_of_union? ha, mem_singleton] at hs
    rw [leaves_of_union? (union?_eq_none_of_same h ha)]
    exact ⟨b, mem_singleton_self b, hs ▸ h⟩
  | union vs ih =>
    cases same_iff_matches.mp h with
    | union _ hvs =>
      obtain ⟨v, hv, hs⟩ := mem_leaves_union.mp hs
      obtain ⟨w, hw, hvw⟩ := sameVariants_iff.mp hvs v hv
      obtain ⟨t, ht, hst⟩ := ih v hv hvw hs
      exact ⟨t, mem_leaves_union.mpr ⟨w, hw, ht⟩, hst⟩

/-- A type can be assigned to another if each of its variants is `any` or fits one of the other. -/
theorem assignable_iff_leaves :
    assignable a b = true ↔ ∀ s ∈ a.leaves, s = .any ∨ ∃ t ∈ b.leaves, Fits s t := by
  induction a using union_induction with
  | single a ha => rw [leaves_of_union? ha, forall_mem_singleton, assignable_iff ha]
  | union vs ih =>
    rw [assignable_union_iff]
    constructor
    · rintro (rfl | hsame | hall) s hs
      · exact Or.inr ⟨.any, by simp [leaves], .any s⟩
      · obtain ⟨t, ht, hst⟩ := exists_same_leaf hsame hs
        exact Or.inr ⟨t, ht, .same hst⟩
      · obtain ⟨v, hv, hs⟩ := mem_leaves_union.mp hs
        exact (ih v hv).mp (hall v hv) s hs
    · intro hleaves
      refine Or.inr (Or.inr fun v hv => (ih v hv).mpr fun s hs => ?_)
      exact hleaves s (mem_leaves_union.mpr ⟨v, hv, hs⟩)

/-! ### Unions -/

theorem assignable_union_iff_forall :
    assignable (.union vs) b = true ↔ ∀ v ∈ vs, assignable v b = true := by
  rw [assignable_iff_leaves]
  constructor
  · intro h v hv
    exact assignable_iff_leaves.mpr fun s hs => h s (mem_leaves_union.mpr ⟨v, hv, hs⟩)
  · intro h s hs
    obtain ⟨v, hv, hs⟩ := mem_leaves_union.mp hs
    exact assignable_iff_leaves.mp (h v hv) s hs

theorem exists_of_mem_foldl_addVariant (acc : List Ty) (h : t ∈ ts) :
    ∃ v ∈ ts.foldl addVariant acc, v = t ∨ same t v = true := by
  induction ts generalizing acc with
  | nil => cases h
  | cons u ts ih =>
    rcases mem_cons.mp h with rfl | h
    · have hsub := subset_foldl_addVariant ts (addVariant acc t)
      by_cases hany : acc.any (same t) = true
      · obtain ⟨v, hv, hsame⟩ := any_eq_true.mp hany
        rw [addVariant, if_pos hany] at hsub
        refine ⟨v, ?_, Or.inr hsame⟩
        rw [foldl_cons, addVariant, if_pos hany]
        exact hsub hv
      · rw [addVariant, if_neg hany] at hsub
        refine ⟨t, ?_, Or.inl rfl⟩
        rw [foldl_cons, addVariant, if_neg hany]
        exact hsub (mem_append_right acc (mem_singleton_self t))
    · exact ih _ h

/-- A union can be assigned exactly if the types that it is made of can. -/
theorem assignable_ofVariants_iff (h : ∀ t ∈ ts, t.union? = none) :
    assignable (ofVariants ts) b = true ↔ ∀ t ∈ ts, assignable t b = true := by
  have hvs : ts.flatMap variants = ts := by
    refine (flatMap_congr fun t ht => ?_).trans (flatMap_singleton' ts)
    exact variants_of_union? (h t ht)
  -- the types that are left out equal some that are not
  have hlst : (∀ v ∈ ts.foldl addVariant [], assignable v b = true) ↔
      ∀ t ∈ ts, assignable t b = true := by
    constructor
    · intro hall t ht
      obtain ⟨v, hv, rfl | hsame⟩ := exists_of_mem_foldl_addVariant [] ht
      · exact hall v hv
      · exact assignable_of_same_of_assignable t hsame (hall v hv)
    · intro hall v hv
      exact hall v ((mem_foldl_addVariant hv).resolve_left not_mem_nil)
  rw [ofVariants, hvs, ← hlst]
  split
  · next t heq => rw [heq, forall_mem_singleton]
  · exact assignable_union_iff_forall

/-! ### Types with distinct names -/

mutual

/-- Every table of fields in a type has distinct names. -/
def Tabular : Ty → Prop
  | .array elem => elem.Tabular
  | .object fields => (names fields).Nodup ∧ TabularFields fields
  | .union variants => TabularAll variants
  | .function params result => TabularAll params ∧ result.Tabular
  | _ => True

def TabularFields : List (String × Ty) → Prop
  | [] => True
  | (_, t) :: rest => t.Tabular ∧ TabularFields rest

def TabularAll : List Ty → Prop
  | [] => True
  | t :: ts => t.Tabular ∧ TabularAll ts

end

theorem tabularFields_iff : TabularFields fs ↔ ∀ f ∈ fs, f.2.Tabular := by
  induction fs with
  | nil => simp [TabularFields]
  | cons f fs ih => rw [TabularFields, ih, forall_mem_cons]

theorem tabularAll_iff : TabularAll ts ↔ ∀ t ∈ ts, t.Tabular := by
  induction ts with
  | nil => simp [TabularAll]
  | cons t ts ih => rw [TabularAll, ih, forall_mem_cons]

theorem sameList_self (h : ∀ t ∈ ts, same t t = true) : sameList ts ts = true := by
  induction ts with
  | nil => rw [sameList]
  | cons t ts ih =>
    obtain ⟨ht, hts⟩ := forall_mem_cons.mp h
    rw [sameList, ht, ih hts, Bool.and_self]

/-- With distinct names, every field finds itself. -/
theorem Tabular.same_self (t : Ty) (h : t.Tabular) : same t t = true := by
  induction t using parts_induction with
  | step t ih =>
    cases t with
    | scalar kind => exact same_iff_matches.mpr (.scalar kind)
    | array elem =>
      rw [Tabular] at h
      exact same_iff_matches.mpr (.array (ih elem (mem_singleton_self elem) h))
    | object fields =>
      rw [Tabular, tabularFields_iff] at h
      refine same_iff_matches.mpr (.object rfl (sameFields_iff.mpr fun f hf => ?_))
      exact ⟨f.2, (mem_iff_find? h.1).mp hf, ih f.2 (mem_map_of_mem hf) (h.2 f hf)⟩
    | union variants =>
      rw [Tabular, tabularAll_iff] at h
      exact same_iff_matches.mpr
        (.union rfl (sameVariants_self (fun v hv => ih v hv (h v hv)) (Subset.refl _)))
    | function params result =>
      rw [Tabular, tabularAll_iff] at h
      exact same_iff_matches.mpr (.function
        (sameList_self fun p hp => ih p (mem_cons_of_mem _ hp) (h.1 p hp)) (ih _ mem_cons_self h.2))
    | schema name _ _ => exact same_iff_matches.mpr (.schema name _ _ _ _)
    | resource name owner _ => exact same_iff_matches.mpr (.resource name owner _ _)
    | component name inst _ _ _ => exact same_iff_matches.mpr (.component name inst _ _ _ _ _ _)

end Provision.Ty
