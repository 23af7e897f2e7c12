import Provision.Proofs.Ty.Assignment

/-!
# Equality and unions of normal types

A type is normal (`Ty.Normal`) if no object in it has a name twice, and no union in it has a union
among its variants, two equal variants, or exactly one.

Equality compares unions from one side: there are as many variants in both, and each of the first
has an equal one in the second. For normal types that is enough. Distinct variants have distinct
partners (`exists_matching`), so no variant of the second union is left over. Hence equality is an
equivalence relation, and two types are equal if one is the other with its fields and variants in
another order (`Ty.equivalence_same`).

`Ty.ofVariants` makes normal types of normal types, and it is a union of sets. Normal types are
equal if they have the same variants (`Ty.Normal.same_iff_has`), and the variants of a union are
those of the types that it is made of (`Ty.has_ofVariants`). So neither order nor repetition nor
grouping of these types shows in it (`Ty.ofVariants_union`).
-/

namespace Provision

open List Table

/-! ### Partners -/

section Partners

variable {α β : Type _} {R : α → β → Prop} {xs : List α} {ys : List β}

theorem exists_of_forall₂_of_mem (h : Forall₂ R xs ys) {x : α} (hx : x ∈ xs) :
    ∃ y ∈ ys, R x y := by
  induction h with
  | nil => cases hx
  | cons hxy _ ih =>
    rcases mem_cons.mp hx with rfl | hx
    · exact ⟨_, mem_cons_self, hxy⟩
    · obtain ⟨y, hy, hxy⟩ := ih hx
      exact ⟨y, mem_cons_of_mem _ hy, hxy⟩

theorem exists_of_forall₂_of_mem_right (h : Forall₂ R xs ys) {y : β} (hy : y ∈ ys) :
    ∃ x ∈ xs, R x y :=
  exists_of_forall₂_of_mem (R := flip R) (Forall₂.flip h) hy

theorem forall₂_imp_of_mem {S : α → β → Prop} (h : Forall₂ R xs ys)
    (himp : ∀ x ∈ xs, ∀ y ∈ ys, R x y → S x y) : Forall₂ S xs ys := by
  induction h with
  | nil => exact .nil
  | cons hxy _ ih =>
    refine .cons (himp _ mem_cons_self _ mem_cons_self hxy) (ih fun x hx y hy => ?_)
    exact himp x (mem_cons_of_mem _ hx) y (mem_cons_of_mem _ hy)

/-- If every element of a list has a partner in another list, and no two of them have the same one,
then the partners are some of the elements of that list. -/
theorem exists_matching (hpartner : ∀ x ∈ xs, ∃ y ∈ ys, R x y)
    (hdist : xs.Pairwise fun x x' => ∀ y, R x y → ¬ R x' y) :
    ∃ zs : List β, zs.Subperm ys ∧ Forall₂ R xs zs := by
  induction xs with
  | nil => exact ⟨[], nil_subperm, .nil⟩
  | cons x xs ih =>
    obtain ⟨⟨y, hy, hxy⟩, hpartner⟩ := forall_mem_cons.mp hpartner
    obtain ⟨hx, hdist⟩ := pairwise_cons.mp hdist
    obtain ⟨zs, hsub, hall⟩ := ih hpartner hdist
    -- the partner of the first element is nobody else's
    have hnew : y ∉ zs := fun hmem => by
      obtain ⟨x', hx', hx'y⟩ := exists_of_forall₂_of_mem_right hall hmem
      exact hx x' hx' y hxy hx'y
    exact ⟨y :: zs, cons_subperm_of_not_mem_of_mem hnew hy hsub, .cons hxy hall⟩

theorem exists_perm_matching (hpartner : ∀ x ∈ xs, ∃ y ∈ ys, R x y)
    (hdist : xs.Pairwise fun x x' => ∀ y, R x y → ¬ R x' y) (hlen : xs.length = ys.length) :
    ∃ zs : List β, zs.Perm ys ∧ Forall₂ R xs zs := by
  obtain ⟨zs, hsub, hall⟩ := exists_matching hpartner hdist
  exact ⟨zs, hsub.perm_of_length_le (by rw [← hlen, hall.length_eq]), hall⟩

theorem forall₂_fields_iff {R : α → α → Prop} {fs gs : List (String × α)} :
    Forall₂ (fun f g => f.1 = g.1 ∧ R f.2 g.2) fs gs ↔
      names fs = names gs ∧ Forall₂ R (fs.map (·.2)) (gs.map (·.2)) := by
  induction fs generalizing gs with
  | nil => cases gs <;> simp [names]
  | cons f fs ih =>
    cases gs with
    | nil => simp [names]
    | cons g gs =>
      simp only [forall₂_cons, ih, names, map_cons, cons.injEq,
        and_and_and_comm]

end Partners

namespace Ty

variable {a b t u v : Ty}

/-! ### Normal types -/

/-- A normal type: objects have distinct names, and unions have variants that are no unions and
differ from each other, but not exactly one. What is known about schemas, resources and components
does not count. -/
inductive Normal : Ty → Prop
  | scalar (kind : Scalar) : Normal (.scalar kind)
  | array {e : Ty} (elem : Normal e) : Normal (.array e)
  | object {fs : List (String × Ty)} (names : (names fs).Nodup)
    (fields : ∀ f ∈ fs, Normal f.2) : Normal (.object fs)
  | union {vs : List Ty} (flat : ∀ v ∈ vs, v.union? = none)
    (distinct : vs.Pairwise fun v w => same v w = false) (length : vs.length ≠ 1)
    (variants : ∀ v ∈ vs, Normal v) : Normal (.union vs)
  | function {ps : List Ty} {r : Ty} (params : ∀ p ∈ ps, Normal p) (result : Normal r) :
    Normal (.function ps r)
  | schema (name : String) (ps rs : List (String × Ty)) : Normal (.schema name ps rs)
  | resource (name owner : String) (ps : List (String × Ty)) : Normal (.resource name owner ps)
  | component (name : String) (inst : Option String) (is os : List (String × Ty)) (ns : List Ty) :
    Normal (.component name inst is os ns)

theorem normal_array_iff : (Ty.array t).Normal ↔ t.Normal := by
  refine ⟨fun h => ?_, .array⟩
  cases h with
  | array helem => exact helem

theorem normal_object_iff {fs : List (String × Ty)} :
    (Ty.object fs).Normal ↔ (names fs).Nodup ∧ ∀ f ∈ fs, f.2.Normal := by
  refine ⟨fun h => ?_, fun h => .object h.1 h.2⟩
  cases h with
  | object hnms hflds => exact ⟨hnms, hflds⟩

theorem normal_union_iff {vs : List Ty} :
    (Ty.union vs).Normal ↔ (∀ v ∈ vs, v.union? = none) ∧
      (vs.Pairwise fun v w => same v w = false) ∧ vs.length ≠ 1 ∧ ∀ v ∈ vs, v.Normal := by
  refine ⟨fun h => ?_, fun h => .union h.1 h.2.1 h.2.2.1 h.2.2.2⟩
  cases h with
  | union hflat hdist hlen hvs => exact ⟨hflat, hdist, hlen, hvs⟩

theorem normal_function_iff {ps : List Ty} {r : Ty} :
    (Ty.function ps r).Normal ↔ (∀ p ∈ ps, p.Normal) ∧ r.Normal := by
  refine ⟨fun h => ?_, fun h => .function h.1 h.2⟩
  cases h with
  | function hps hrt => exact ⟨hps, hrt⟩

mutual

def decideNormal : (t : Ty) → Decidable t.Normal
  | .scalar kind => .isTrue (.scalar kind)
  | .array e => @decidable_of_iff _ _ normal_array_iff.symm (decideNormal e)
  | .object fs =>
    have := decideNormalFields fs
    decidable_of_iff _ normal_object_iff.symm
  | .union vs =>
    have := decideNormalAll vs
    decidable_of_iff _ normal_union_iff.symm
  | .function ps r =>
    have := decideNormalAll ps
    have := decideNormal r
    decidable_of_iff _ normal_function_iff.symm
  | .schema name ps rs => .isTrue (.schema name ps rs)
  | .resource name owner ps => .isTrue (.resource name owner ps)
  | .component name inst is os ns => .isTrue (.component name inst is os ns)

/-- Decides whether the types of all entries are normal. -/
def decideNormalFields : (fs : List (String × Ty)) → Decidable (∀ f ∈ fs, f.2.Normal)
  | [] => .isTrue (forall_mem_nil _)
  | (name, t) :: fs =>
    have := decideNormal t
    have := decideNormalFields fs
    decidable_of_iff (t.Normal ∧ ∀ f ∈ fs, f.2.Normal)
      (forall_mem_cons (a := (name, t)) (p := fun f => f.2.Normal)).symm

def decideNormalAll : (ts : List Ty) → Decidable (∀ t ∈ ts, t.Normal)
  | [] => .isTrue (forall_mem_nil _)
  | t :: ts =>
    have := decideNormal t
    have := decideNormalAll ts
    decidable_of_iff (t.Normal ∧ ∀ t ∈ ts, t.Normal) forall_mem_cons.symm

end

instance : DecidablePred Normal := decideNormal

theorem Normal.tabular (h : t.Normal) : t.Tabular := by
  induction h with
  | array _ ih => rwa [Tabular]
  | object hnms _ ih =>
    rw [Tabular]
    exact ⟨hnms, tabularFields_iff.mpr ih⟩
  | union _ _ _ _ ih =>
    rw [Tabular]
    exact tabularAll_iff.mpr ih
  | function _ _ ihparams ihresult =>
    rw [Tabular]
    exact ⟨tabularAll_iff.mpr ihparams, ihresult⟩
  | _ => simp [Tabular]

theorem Normal.same_self (h : t.Normal) : same t t = true := Tabular.same_self t h.tabular

/-! ### Equality -/

/-- A type and the same type with fields and variants in another order, at any depth. What is known
about schemas, resources and components may differ. -/
inductive Rearranged : Ty → Ty → Prop
  | scalar (kind : Scalar) : Rearranged (.scalar kind) (.scalar kind)
  | array {a b : Ty} (elem : Rearranged a b) : Rearranged (.array a) (.array b)
  | object {fs gs hs : List (String × Ty)} (names : names fs = names gs)
    (types : Forall₂ Rearranged (fs.map (·.2)) (gs.map (·.2))) (order : gs.Perm hs) :
    Rearranged (.object fs) (.object hs)
  | union {us vs ws : List Ty} (variants : Forall₂ Rearranged us vs) (order : vs.Perm ws) :
    Rearranged (.union us) (.union ws)
  | function {ps qs : List Ty} {r t : Ty} (params : Forall₂ Rearranged ps qs)
    (result : Rearranged r t) : Rearranged (.function ps r) (.function qs t)
  | schema (name : String) (ps qs rs ts : List (String × Ty)) :
    Rearranged (.schema name ps rs) (.schema name qs ts)
  | resource (name owner : String) (ps qs : List (String × Ty)) :
    Rearranged (.resource name owner ps) (.resource name owner qs)
  | component (name : String) (inst : Option String) (is js os us : List (String × Ty))
    (ns ms : List Ty) : Rearranged (.component name inst is os ns) (.component name inst js us ms)

/-- Types that are equal from either side, and differ in their order only. -/
structure Twins (a b : Ty) : Prop where
  same : same a b = true
  symm : Ty.same b a = true
  rearranged : Rearranged a b

theorem distinct_twins {vs : List Ty} (h : vs.Pairwise fun v w => same v w = false) :
    vs.Pairwise fun v v' => ∀ w, Twins v w → ¬ Twins v' w := by
  refine h.imp fun {v v'} hne w hv hv' => ?_
  have hsame : same v v' = true := same_trans v hv.same hv'.symm
  rw [hne] at hsame
  cases hsame

theorem twins_object {fs gs : List (String × Ty)} (hnms : (names fs).Nodup)
    (h : same (.object fs) (.object gs) = true)
    (hpartner : ∀ f ∈ fs, ∃ g ∈ gs, f.1 = g.1 ∧ Twins f.2 g.2) :
    Twins (.object fs) (.object gs) := by
  cases same_iff_matches.mp h with
  | object hlen _ =>
    have hdist : fs.Pairwise fun f f' => ∀ g : String × Ty,
        f.1 = g.1 ∧ Twins f.2 g.2 → ¬ (f'.1 = g.1 ∧ Twins f'.2 g.2) :=
      (pairwise_map.mp hnms).imp fun hne g hf hf' => hne (hf.1.trans hf'.1.symm)
    -- the names of the first are distinct, so no field of the second is left over
    obtain ⟨zs, hperm, hall⟩ := exists_perm_matching hpartner hdist hlen
    have hsymm : sameFields gs fs = true := sameFields_iff.mpr fun g hg => by
      obtain ⟨f, hf, hnm, htwins⟩ := exists_of_forall₂_of_mem_right hall (hperm.mem_iff.mpr hg)
      exact ⟨f.2, hnm ▸ (mem_iff_find? hnms).mp hf, htwins.symm⟩
    obtain ⟨hnms', htys⟩ := forall₂_fields_iff.mp hall
    exact ⟨h, same_iff_matches.mpr (.object hlen.symm hsymm),
      .object hnms' (htys.imp fun _ _ htwins => htwins.rearranged) hperm⟩

theorem twins_union {vs ws : List Ty} (hdist : vs.Pairwise fun v w => same v w = false)
    (h : same (.union vs) (.union ws) = true) (hpartner : ∀ v ∈ vs, ∃ w ∈ ws, Twins v w) :
    Twins (.union vs) (.union ws) := by
  cases same_iff_matches.mp h with
  | union hlen _ =>
    -- as above, with variants that differ in place of distinct names
    obtain ⟨zs, hperm, hall⟩ := exists_perm_matching hpartner (distinct_twins hdist) hlen
    have hsymm : sameVariants ws vs = true := sameVariants_iff.mpr fun w hw => by
      obtain ⟨v, hv, htwins⟩ := exists_of_forall₂_of_mem_right hall (hperm.mem_iff.mpr hw)
      exact ⟨v, hv, htwins.symm⟩
    exact ⟨h, same_iff_matches.mpr (.union hlen.symm hsymm),
      .union (hall.imp fun _ _ htwins => htwins.rearranged) hperm⟩

/-- Normal types that are equal are so from either side. -/
theorem Normal.twins (ha : a.Normal) (hb : b.Normal) (h : same a b = true) : Twins a b := by
  induction ha generalizing b with
  | scalar kind =>
    cases same_iff_matches.mp h with
    | scalar => exact ⟨h, h, .scalar kind⟩
  | array _ ih =>
    cases same_iff_matches.mp h with
    | array helem =>
      have htwins := ih (normal_array_iff.mp hb) helem
      exact ⟨h, same_iff_matches.mpr (.array htwins.symm), .array htwins.rearranged⟩
  | object hnms _ ih =>
    cases same_iff_matches.mp h with
    | object _ hflds =>
      obtain ⟨-, hgs⟩ := normal_object_iff.mp hb
      refine twins_object hnms h fun f hf => ?_
      obtain ⟨u, hu, hfu⟩ := sameFields_iff.mp hflds f hf
      have hmem := mem_of_find? hu
      exact ⟨_, hmem, rfl, ih f hf (hgs _ hmem) hfu⟩
  | union _ hdist _ _ ih =>
    cases same_iff_matches.mp h with
    | union _ hvs =>
      obtain ⟨-, -, -, hws⟩ := normal_union_iff.mp hb
      refine twins_union hdist h fun v hv => ?_
      obtain ⟨w, hw, hvw⟩ := sameVariants_iff.mp hvs v hv
      exact ⟨w, hw, ih v hv (hws w hw) hvw⟩
  | function _ _ ihparams ihresult =>
    cases same_iff_matches.mp h with
    | function hps hrt =>
      obtain ⟨hqs, ht⟩ := normal_function_iff.mp hb
      have hall := forall₂_imp_of_mem (sameList_iff.mp hps) fun p hp q hq hpq =>
        ihparams p hp (hqs q hq) hpq
      have htwins := ihresult ht hrt
      have hsymm := sameList_iff.mpr (Forall₂.flip (hall.imp fun _ _ h => h.symm))
      exact ⟨h, same_iff_matches.mpr (.function hsymm htwins.symm),
        .function (hall.imp fun _ _ h => h.rearranged) htwins.rearranged⟩
  | schema name _ _ =>
    cases same_iff_matches.mp h with
    | schema => exact ⟨h, same_iff_matches.mpr (.schema _ _ _ _ _), .schema _ _ _ _ _⟩
  | resource name owner _ =>
    cases same_iff_matches.mp h with
    | resource => exact ⟨h, same_iff_matches.mpr (.resource _ _ _ _), .resource _ _ _ _⟩
  | component name inst _ _ _ =>
    cases same_iff_matches.mp h with
    | component =>
      exact ⟨h, same_iff_matches.mpr (.component _ _ _ _ _ _ _ _), .component _ _ _ _ _ _ _ _⟩

theorem Normal.same_symm (ha : a.Normal) (hb : b.Normal) (h : same a b = true) : same b a = true :=
  (ha.twins hb h).symm

/-- The order of fields and variants does not count. -/
theorem Normal.same_of_rearranged (ha : a.Normal) (hb : b.Normal) (h : Rearranged a b) :
    same a b = true := by
  induction ha generalizing b with
  | scalar kind =>
    cases h with
    | scalar => exact same_iff_matches.mpr (.scalar kind)
  | array _ ih =>
    cases h with
    | array helem => exact same_iff_matches.mpr (.array (ih (normal_array_iff.mp hb) helem))
  | object _ _ ih =>
    cases h with
    | object hnms htys hperm =>
      obtain ⟨hnms', hhs⟩ := normal_object_iff.mp hb
      have hall := forall₂_fields_iff.mpr ⟨hnms, htys⟩
      have hlen := hall.length_eq.trans hperm.length_eq
      refine same_iff_matches.mpr (.object hlen (sameFields_iff.mpr fun f hf => ?_))
      obtain ⟨g, hg, hnm, hfg⟩ := exists_of_forall₂_of_mem hall hf
      have hmem := hperm.mem_iff.mp hg
      exact ⟨g.2, hnm ▸ (mem_iff_find? hnms').mp hmem, ih f hf (hhs g hmem) hfg⟩
  | union _ _ _ _ ih =>
    cases h with
    | union hall hperm =>
      obtain ⟨-, -, -, hws⟩ := normal_union_iff.mp hb
      have hlen := hall.length_eq.trans hperm.length_eq
      refine same_iff_matches.mpr (.union hlen (sameVariants_iff.mpr fun v hv => ?_))
      obtain ⟨w, hw, hvw⟩ := exists_of_forall₂_of_mem hall hv
      have hmem := hperm.mem_iff.mp hw
      exact ⟨w, hmem, ih v hv (hws w hmem) hvw⟩
  | function _ _ ihparams ihresult =>
    cases h with
    | function hall hrt =>
      obtain ⟨hqs, ht⟩ := normal_function_iff.mp hb
      have hps := forall₂_imp_of_mem hall fun p hp q hq hpq => ihparams p hp (hqs q hq) hpq
      exact same_iff_matches.mpr (.function (sameList_iff.mpr hps) (ihresult ht hrt))
  | schema name _ _ =>
    cases h with
    | schema => exact same_iff_matches.mpr (.schema _ _ _ _ _)
  | resource name owner _ =>
    cases h with
    | resource => exact same_iff_matches.mpr (.resource _ _ _ _)
  | component name inst _ _ _ =>
    cases h with
    | component => exact same_iff_matches.mpr (.component _ _ _ _ _ _ _ _)

/-- **Equality of types.** On normal types equality is an equivalence relation, and two of them are
equal exactly if one is the other with its fields and variants in another order. -/
theorem equivalence_same :
    Equivalence (fun a b : {t : Ty // t.Normal} => same a.1 b.1 = true) ∧
      ∀ a b : {t : Ty // t.Normal}, same a.1 b.1 = true ↔ Rearranged a.1 b.1 := by
  refine ⟨⟨fun a => a.2.same_self, fun {a b} h => a.2.same_symm b.2 h,
    fun {a _ _} hab hbc => same_trans a.1 hab hbc⟩, fun a b => ⟨fun h => ?_, fun h => ?_⟩⟩
  · exact (a.2.twins b.2 h).rearranged
  · exact a.2.same_of_rearranged b.2 h

-- with a variant twice, a union can be equal to another that is not equal to it
example : same (.union [.number, .number]) (.union [.number, .string]) = true ∧
    same (.union [.number, .string]) (.union [.number, .number]) = false := by
  decide +kernel

/-! ### Unions -/

/-- A type is among the variants of another, up to equality. -/
def Has (t v : Ty) : Prop := ∃ w ∈ t.variants, same v w = true

theorem Normal.of_mem_variants (h : t.Normal) (hv : v ∈ t.variants) : v.Normal := by
  cases t with
  | union vs =>
    cases h with
    | union _ _ _ hvs => exact hvs v hv
  | _ => exact mem_singleton.mp hv ▸ h

theorem Normal.union?_of_mem_variants (h : t.Normal) (hv : v ∈ t.variants) : v.union? = none := by
  cases t with
  | union vs =>
    cases h with
    | union hflat _ _ _ => exact hflat v hv
  | _ => exact mem_singleton.mp hv ▸ rfl

theorem Normal.union?_of_length_variants (h : t.Normal) (hlen : t.variants.length = 1) :
    t.union? = none := by
  cases t with
  | union vs =>
    cases h with
    | union _ _ hne _ => exact absurd hlen hne
  | _ => rfl

theorem Normal.distinct_variants (h : t.Normal) :
    t.variants.Pairwise fun v w => same v w = false := by
  cases t with
  | union vs =>
    cases h with
    | union _ hdist _ _ => exact hdist
  | _ => exact pairwise_singleton _ _

theorem has_of_same (h : same a b = true) (hv : a.Has v) : b.Has v := by
  obtain ⟨w, hw, hvw⟩ := hv
  cases same_iff_matches.mp h with
  | union _ hvs =>
    obtain ⟨x, hx, hwx⟩ := sameVariants_iff.mp hvs w hw
    exact ⟨x, hx, same_trans v hvw hwx⟩
  | _ =>
    obtain rfl := mem_singleton.mp hw
    exact ⟨_, mem_singleton_self _, same_trans v hvw h⟩

theorem Normal.length_variants_le (ha : a.Normal) (hb : b.Normal)
    (h : ∀ v ∈ a.variants, b.Has v) : a.variants.length ≤ b.variants.length := by
  have hpartner : ∀ v ∈ a.variants, ∃ w ∈ b.variants, Twins v w := fun v hv => by
    obtain ⟨w, hw, hvw⟩ := h v hv
    exact ⟨w, hw, (ha.of_mem_variants hv).twins (hb.of_mem_variants hw) hvw⟩
  obtain ⟨zs, hsub, hall⟩ := exists_matching hpartner (distinct_twins ha.distinct_variants)
  exact hall.length_eq ▸ hsub.length_le

theorem Normal.same_of_has (ha : a.Normal) (hb : b.Normal)
    (hlen : a.variants.length = b.variants.length) (h : ∀ v ∈ a.variants, b.Has v) :
    same a b = true := by
  cases a with
  | union vs =>
    cases ha with
    | union _ _ hne _ =>
      cases b with
      | union ws => exact same_iff_matches.mpr (.union hlen (sameVariants_iff.mpr h))
      | _ => exact absurd hlen hne
  | _ =>
    -- a normal type with a single variant is that variant
    have hb' : b.union? = none := hb.union?_of_length_variants hlen.symm
    obtain ⟨w, hw, hsame⟩ := h _ (mem_singleton_self _)
    rw [variants_of_union? hb'] at hw
    exact mem_singleton.mp hw ▸ hsame

/-- Normal types are equal exactly if they have the same variants. -/
theorem Normal.same_iff_has (ha : a.Normal) (hb : b.Normal) :
    same a b = true ↔ ∀ v, a.Has v ↔ b.Has v := by
  refine ⟨fun h v => ⟨has_of_same h, has_of_same (ha.same_symm hb h)⟩, fun h => ?_⟩
  have hab : ∀ v ∈ a.variants, b.Has v := fun v hv =>
    (h v).mp ⟨v, hv, (ha.of_mem_variants hv).same_self⟩
  have hba : ∀ v ∈ b.variants, a.Has v := fun v hv =>
    (h v).mpr ⟨v, hv, (hb.of_mem_variants hv).same_self⟩
  have hlen : a.variants.length = b.variants.length :=
    Nat.le_antisymm (ha.length_variants_le hb hab) (hb.length_variants_le ha hba)
  exact ha.same_of_has hb hlen hab

theorem distinct_foldl_addVariant {ts acc : List Ty} (hts : ∀ t ∈ ts, t.Normal)
    (hacc : ∀ t ∈ acc, t.Normal) (hdist : acc.Pairwise fun v w => same v w = false) :
    (ts.foldl addVariant acc).Pairwise fun v w => same v w = false := by
  induction ts generalizing acc with
  | nil => exact hdist
  | cons t ts ih =>
    obtain ⟨ht, hts⟩ := forall_mem_cons.mp hts
    rw [foldl_cons, addVariant]
    split
    · exact ih hts hacc hdist
    · next hnone =>
      -- the new variant was compared with the old ones, not they with it
      have hnew : ∀ v ∈ acc, same v t = false := fun v hv => by
        refine Bool.eq_false_iff.mpr fun hvt => hnone (any_eq_true.mpr ⟨v, hv, ?_⟩)
        exact (hacc v hv).same_symm ht hvt
      refine ih hts ?_ ?_
      · exact forall_mem_append.mpr ⟨hacc, forall_mem_singleton.mpr ht⟩
      · refine pairwise_append.mpr ⟨hdist, pairwise_singleton _ _, ?_⟩
        exact fun v hv w hw => mem_singleton.mp hw ▸ hnew v hv

section OfVariants

variable {ts us : List Ty}

theorem normal_ofVariants (h : ∀ t ∈ ts, t.Normal) : (ofVariants ts).Normal := by
  have hnormal : ∀ v ∈ ts.flatMap variants, v.Normal := fun v hv => by
    obtain ⟨t, ht, hvt⟩ := mem_flatMap.mp hv
    exact (h t ht).of_mem_variants hvt
  have hlst : ∀ v ∈ (ts.flatMap variants).foldl addVariant [], v.Normal ∧ v.union? = none := by
    intro v hv
    obtain ⟨t, ht, hvt⟩ := mem_flatMap.mp
      ((mem_foldl_addVariant hv).resolve_left not_mem_nil)
    exact ⟨(h t ht).of_mem_variants hvt, (h t ht).union?_of_mem_variants hvt⟩
  unfold ofVariants
  split
  · next t heq => exact (hlst t (heq ▸ mem_singleton_self t)).1
  · next hlen =>
    refine .union (fun v hv => (hlst v hv).2) ?_ ?_ (fun v hv => (hlst v hv).1)
    · exact distinct_foldl_addVariant hnormal (forall_mem_nil _) .nil
    · exact fun hone => by
        obtain ⟨t, ht⟩ := length_eq_one_iff.mp hone
        exact hlen t ht

/-- The variants of a union of normal types are those of the types. -/
theorem has_ofVariants (h : ∀ t ∈ ts, t.Normal) : (ofVariants ts).Has v ↔ ∃ t ∈ ts, t.Has v := by
  have hvs := variants_ofVariants_of_union? fun t ht v hv =>
    (h t ht).union?_of_mem_variants hv
  unfold Has
  rw [hvs]
  constructor
  · rintro ⟨w, hw, hvw⟩
    obtain ⟨t, ht, hwt⟩ := mem_flatMap.mp
      ((mem_foldl_addVariant hw).resolve_left not_mem_nil)
    exact ⟨t, ht, w, hwt, hvw⟩
  · rintro ⟨t, ht, w, hw, hvw⟩
    obtain ⟨x, hx, rfl | hwx⟩ :=
      exists_of_mem_foldl_addVariant [] (mem_flatMap.mpr ⟨t, ht, hw⟩)
    · exact ⟨x, hx, hvw⟩
    · exact ⟨x, hx, same_trans v hvw hwx⟩

theorem same_ofVariants_iff (hts : ∀ t ∈ ts, t.Normal) (hus : ∀ u ∈ us, u.Normal) :
    same (ofVariants ts) (ofVariants us) = true ↔
      ∀ v, (∃ t ∈ ts, t.Has v) ↔ ∃ u ∈ us, u.Has v := by
  rw [(normal_ofVariants hts).same_iff_has (normal_ofVariants hus)]
  simp only [has_ofVariants hts, has_ofVariants hus]

theorem same_ofVariants_of_mem_iff (hts : ∀ t ∈ ts, t.Normal) (h : ∀ t, t ∈ us ↔ t ∈ ts) :
    same (ofVariants us) (ofVariants ts) = true := by
  refine (same_ofVariants_iff (fun u hu => hts u ((h u).mp hu)) hts).mpr fun v => ?_
  simp only [h]

theorem same_ofVariants_group {xs ys : List Ty} (h : ∀ t ∈ xs ++ ys, t.Normal) :
    same (ofVariants (xs ++ [ofVariants ys])) (ofVariants (xs ++ ys)) = true := by
  obtain ⟨hxs, hys⟩ := forall_mem_append.mp h
  have hgroup : ∀ t ∈ xs ++ [ofVariants ys], t.Normal :=
    forall_mem_append.mpr ⟨hxs, forall_mem_singleton.mpr (normal_ofVariants hys)⟩
  refine (same_ofVariants_iff hgroup h).mpr fun v => ?_
  simp only [mem_append, or_and_right, exists_or, mem_singleton, exists_eq_left,
    has_ofVariants hys]

theorem same_ofVariants_replace {xs ys : List Ty} (h : ∀ x ∈ xs ++ t :: ys, x.Normal)
    (hu : u.Normal) (hsame : same t u = true) :
    same (ofVariants (xs ++ u :: ys)) (ofVariants (xs ++ t :: ys)) = true := by
  obtain ⟨hxs, htys⟩ := forall_mem_append.mp h
  obtain ⟨ht, hys⟩ := forall_mem_cons.mp htys
  have hreplaced : ∀ x ∈ xs ++ u :: ys, x.Normal :=
    forall_mem_append.mpr ⟨hxs, forall_mem_cons.mpr ⟨hu, hys⟩⟩
  refine (same_ofVariants_iff hreplaced h).mpr fun v => ?_
  simp only [mem_append, mem_cons, or_and_right, exists_or, exists_eq_left,
    (ht.same_iff_has hu).mp hsame v]

/-- **Unions of types.** A union of normal types is normal, and it has the variants that the types
have. Up to equality it stays the same if the types come in another order, if one of them is
repeated, if one is replaced by an equal type, and if some are united first. -/
theorem ofVariants_union (h : ∀ t ∈ ts, t.Normal) :
    (ofVariants ts).Normal ∧
    (∀ v, (ofVariants ts).Has v ↔ ∃ t ∈ ts, t.Has v) ∧
    (∀ us, us.Perm ts → same (ofVariants us) (ofVariants ts) = true) ∧
    (∀ xs ys, xs ++ ys = ts → ∀ t ∈ ts,
      same (ofVariants (xs ++ t :: ys)) (ofVariants ts) = true) ∧
    (∀ xs t ys, xs ++ t :: ys = ts → ∀ u : Ty, u.Normal → same t u = true →
      same (ofVariants (xs ++ u :: ys)) (ofVariants ts) = true) ∧
    (∀ xs ys, xs ++ ys = ts →
      same (ofVariants (xs ++ [ofVariants ys])) (ofVariants ts) = true) := by
  refine ⟨normal_ofVariants h, fun v => has_ofVariants h, fun us hperm => ?_, ?_, ?_, ?_⟩
  · exact same_ofVariants_of_mem_iff h fun t => hperm.mem_iff
  · rintro xs ys rfl t ht
    refine same_ofVariants_of_mem_iff h fun u => ?_
    rw [List.perm_middle.mem_iff, List.mem_cons, or_iff_right_of_imp]
    rintro rfl
    exact ht
  · rintro xs t ys rfl u hu hsame
    exact same_ofVariants_replace h hu hsame
  · rintro xs ys rfl
    exact same_ofVariants_group h

/-- Numbers or strings, arrays of these, objects, and a union that has the first two in another
order. -/
private def overlapping : List Ty :=
  [.union [.number, .string], .array (.union [.number, .string]),
    .object [("env", .string), ("size", .number)],
    .union [.null, .array (.union [.string, .number]), .string]]

/-- Five of the seven variants differ. They are the same with the types in the opposite order, with
the fields of the object in the opposite order, and with the last two types united first. -/
theorem ofVariants_union_overlapping :
    (∀ t ∈ overlapping, t.Normal) ∧ (ofVariants overlapping).Normal ∧
    (ofVariants overlapping).variants.length = 5 ∧
    same (ofVariants overlapping.reverse) (ofVariants overlapping) = true ∧
    same (ofVariants (overlapping.set 2 (.object [("size", .number), ("env", .string)])))
      (ofVariants overlapping) = true ∧
    same (ofVariants (overlapping.take 2 ++ [ofVariants (overlapping.drop 2)]))
      (ofVariants overlapping) = true := by
  have h : ∀ t ∈ overlapping, t.Normal := by decide +kernel
  obtain ⟨hnormal, -, hperm, -, hreplace, hgroup⟩ := ofVariants_union h
  refine ⟨h, hnormal, by decide +kernel, hperm _ (List.reverse_perm _), ?_, ?_⟩
  · exact hreplace (overlapping.take 2) _ (overlapping.drop 3) rfl _ (by decide +kernel)
      (by decide +kernel)
  · exact hgroup _ _ (List.take_append_drop 2 _)

end OfVariants

end Ty

end Provision
