import Provision.Proofs.Demands
import Provision.Proofs.Ty.Equality

/-!
# Equality of values

`Value.same` looks up the fields of one object in another one. On regular values (`Value.Regular`),
which hold no `nan` and no key twice, it is an equivalence relation: objects of the same size whose
fields all have partners have the same keys (`Value.Regular.same_symm`). The order of keys does not
show, at any depth (`Value.Regular.same_of_rearranged`). So whether an array has a repeated element
depends neither on the order of its elements nor on that of their keys, and `@unique` reports the
first element that repeats an earlier one, with the first of those (`Decorator.unique_of_regular`).
-/

namespace Provision

open List Table

/-! ### Numbers -/

namespace Number

theorem equals_self {x : Number} (h : x ≠ .nan) : x.equals x = true := by
  cases x with
  | nan => exact absurd rfl h
  | infinity s => exact beq_self_eq_true s
  | finite s u => exact beq_self_eq_true (signedUnits s u)

theorem equals_comm (x y : Number) : x.equals y = y.equals x := by
  cases x <;> cases y <;> simp only [equals] <;> exact BEq.comm

theorem equals_trans {x y z : Number} (hxy : x.equals y = true) (hyz : y.equals z = true) :
    x.equals z = true := by
  cases x <;> cases y <;> cases z <;> simp_all [equals]

end Number

namespace Value

variable {a b c : Value}

/-! ### Comparing lists and fields -/

theorem sameList_iff {xs ys : List Value} :
    sameList xs ys = true ↔ Forall₂ (fun x y => same x y = true) xs ys := by
  induction xs generalizing ys with
  | nil => cases ys <;> simp [sameList]
  | cons x xs ih => cases ys <;> simp [sameList, ih]

theorem same_object_iff {fs gs : List (String × Value)} :
    same (.object fs) (.object gs) = true ↔ fs.length = gs.length ∧
      ∀ f ∈ fs, ∃ y, find? gs f.1 = some y ∧ same f.2 y = true := by
  have hflds : sameFields fs gs = true ↔
      ∀ f ∈ fs, ∃ y, find? gs f.1 = some y ∧ same f.2 y = true := by
    induction fs with
    | nil => simp [sameFields]
    | cons f fs ih =>
      rw [sameFields, Bool.and_eq_true, ih, forall_mem_cons]
      cases find? gs f.1 <;> simp
  rw [same, Bool.and_eq_true, beq_iff_eq, hflds]

/-! ### Regular values -/

/-- A value without `nan`, in whose objects no key stands twice. -/
inductive Regular : Value → Prop where
  | null : Regular .null
  | bool (b : Bool) : Regular (.bool b)
  | number {x : Number} (h : x ≠ .nan) : Regular (.number x)
  | string (s : String) : Regular (.string s)
  | array {items : List Value} (h : ∀ v ∈ items, Regular v) : Regular (.array items)
  | object {fields : List (String × Value)} (hkeys : (names fields).Nodup)
      (h : ∀ f ∈ fields, Regular f.2) : Regular (.object fields)

/-- The keys of objects are brought into another order, at any depth. -/
inductive Rearranged : Value → Value → Prop where
  | refl (v : Value) : Rearranged v v
  | array {xs ys : List Value} (h : Forall₂ Rearranged xs ys) :
      Rearranged (.array xs) (.array ys)
  | object {fs gs hs : List (String × Value)} (hnms : names fs = names gs)
      (h : Forall₂ Rearranged (fs.map (·.2)) (gs.map (·.2))) (hperm : gs.Perm hs) :
      Rearranged (.object fs) (.object hs)

namespace Regular

theorem same_self (h : a.Regular) : same a a = true := by
  induction h with
  | null => rfl
  | bool b => exact beq_self_eq_true b
  | number h => exact Number.equals_self h
  | string s => exact beq_self_eq_true s
  | array _ ih => exact sameList_iff.mpr (forall₂_same.mpr ih)
  | object hkeys _ ih =>
    exact same_object_iff.mpr ⟨rfl, fun f hf => ⟨f.2, (mem_iff_find? hkeys).mp hf, ih f hf⟩⟩

/-- Equality of regular values is symmetric, key by key. -/
theorem same_symm (ha : a.Regular) (hb : b.Regular) (h : same a b = true) : same b a = true := by
  induction ha generalizing b with
  | null => cases hb <;> simp_all [same]
  | bool _ => cases hb <;> simp_all [same]
  | number _ =>
    cases hb with
    | number _ =>
      rw [same] at h ⊢
      rwa [Number.equals_comm]
    | _ => simp [same] at h
  | string _ => cases hb <;> simp_all [same]
  | array _ ih =>
    cases hb with
    | array hys =>
      rw [same, sameList_iff] at h ⊢
      exact Forall₂.flip (forall₂_imp_of_mem h fun x hx y hy hxy => ih x hx (hys y hy) hxy)
    | _ => simp [same] at h
  | @object fs hkeys _ ih =>
    cases hb with
    | @object gs hkeys' hgs =>
      obtain ⟨hlen, hflds⟩ := same_object_iff.mp h
      -- the keys of the first object are among those of the second, and as many
      have hsub : names fs ⊆ names gs := by
        intro key hkey
        obtain ⟨f, hf, rfl⟩ := mem_map.mp hkey
        obtain ⟨y, hy, -⟩ := hflds f hf
        exact mem_names_iff.mpr (hy ▸ rfl)
      have hperm : (names fs).Perm (names gs) :=
        (subperm_of_subset hkeys hsub).perm_of_length_le (by simp [names, hlen])
      refine same_object_iff.mpr ⟨hlen.symm, fun g hg => ?_⟩
      obtain ⟨f, hf, hnm⟩ := mem_map.mp (hperm.mem_iff.mpr (mem_map_of_mem hg))
      obtain ⟨y, hy, hsame⟩ := hflds f hf
      obtain rfl : g.2 = y := Option.some.inj
        (((mem_iff_find? hkeys').mp hg).symm.trans (hnm ▸ hy))
      exact ⟨f.2, hnm ▸ (mem_iff_find? hkeys).mp hf, ih f hf (hgs g hg) hsame⟩
    | _ => simp [same] at h

/-- Equality of regular values is transitive. -/
theorem same_trans (ha : a.Regular) (hab : same a b = true) (hbc : same b c = true) :
    same a c = true := by
  induction ha generalizing b c with
  | @array xs hxs ih =>
    clear hxs
    cases b <;> cases c <;> simp only [same, Bool.false_eq_true] at hab hbc ⊢
    rename_i ys zs
    rw [sameList_iff] at hab hbc ⊢
    induction hab generalizing zs with
    | nil => exact hbc
    | cons hxy _ ihs =>
      cases hbc with
      | cons hyz hbc =>
        obtain ⟨ihx, ih⟩ := forall_mem_cons.mp ih
        exact .cons (ihx hxy hyz) (ihs ih _ hbc)
  | object _ _ ih =>
    cases b <;> cases c <;> try simp only [same, Bool.false_eq_true] at hab hbc
    obtain ⟨hlen, hflds⟩ := same_object_iff.mp hab
    obtain ⟨hlen', hflds'⟩ := same_object_iff.mp hbc
    refine same_object_iff.mpr ⟨hlen.trans hlen', fun f hf => ?_⟩
    obtain ⟨y, hy, hfy⟩ := hflds f hf
    obtain ⟨z, hz, hyz⟩ := hflds' (f.1, y) (mem_of_find? hy)
    exact ⟨z, hz, ih f hf hfy hyz⟩
  | number _ =>
    cases b <;> cases c <;> simp only [same, Bool.false_eq_true] at hab hbc ⊢
    exact Number.equals_trans hab hbc
  | _ => cases b <;> cases c <;> simp_all [same]

/-- What is regular stays so in another order, and equals what it was. -/
theorem same_of_rearranged (ha : a.Regular) (h : a.Rearranged b) :
    b.Regular ∧ same a b = true := by
  induction ha generalizing b with
  | array hxs ih =>
    cases h with
    | refl => exact ⟨.array hxs, (Regular.array hxs).same_self⟩
    | array hall =>
      refine ⟨.array fun y hy => ?_, ?_⟩
      · obtain ⟨x, hx, hxy⟩ := exists_of_forall₂_of_mem_right hall hy
        exact (ih x hx hxy).1
      · rw [same, sameList_iff]
        exact forall₂_imp_of_mem hall fun x hx y _ hxy => (ih x hx hxy).2
  | object hkeys hfs ih =>
    cases h with
    | refl => exact ⟨.object hkeys hfs, (Regular.object hkeys hfs).same_self⟩
    | object hnms hvals hperm =>
      have hall := forall₂_fields_iff.mpr ⟨hnms, hvals⟩
      rw [hnms] at hkeys
      have hkeys' := (hperm.map Prod.fst).nodup_iff.mp hkeys
      refine ⟨.object hkeys' fun g hg => ?_, same_object_iff.mpr ⟨?_, fun f hf => ?_⟩⟩
      · obtain ⟨f, hf, -, hfg⟩ := exists_of_forall₂_of_mem_right hall (hperm.mem_iff.mpr hg)
        exact (ih f hf hfg).1
      · exact hall.length_eq.trans hperm.length_eq
      · obtain ⟨g, hg, hnm, hfg⟩ := exists_of_forall₂_of_mem hall hf
        have hfind := (mem_iff_find? hkeys').mp (hperm.mem_iff.mp hg)
        exact ⟨g.2, hnm ▸ hfind, (ih f hf hfg).2⟩
  | null => cases h; exact ⟨.null, rfl⟩
  | bool b => cases h; exact ⟨.bool b, (Regular.bool b).same_self⟩
  | number hx => cases h; exact ⟨.number hx, (Regular.number hx).same_self⟩
  | string s => cases h; exact ⟨.string s, (Regular.string s).same_self⟩

theorem same_eq_of_rearranged {a' b' : Value} (ha : a.Regular) (hb : b.Regular)
    (haa' : a.Rearranged a') (hbb' : b.Rearranged b') : same a' b' = same a b := by
  obtain ⟨ha', haa'⟩ := ha.same_of_rearranged haa'
  obtain ⟨hb', hbb'⟩ := hb.same_of_rearranged hbb'
  refine Bool.eq_iff_iff.mpr ⟨fun h => ?_, fun h => ?_⟩
  · exact ha.same_trans haa' (ha'.same_trans h (hb.same_symm hb' hbb'))
  · exact ha'.same_trans (ha.same_symm ha' haa') (ha.same_trans h hbb')

end Regular

/-! ### Repeated elements -/

def Distinct (items : List Value) : Prop := items.Pairwise fun v w => same v w = false

theorem distinct_iff_of_forall₂ {items others : List Value} (h : ∀ v ∈ items, v.Regular)
    (hall : Forall₂ Rearranged items others) : Distinct others ↔ Distinct items := by
  obtain ⟨hlen, hget⟩ := forall₂_iff_get.mp hall
  have hsame : ∀ i j (hi : i < items.length) (hj : j < items.length),
      same others[i] others[j] = same items[i] items[j] := fun i j hi hj =>
    (h _ (getElem_mem hi)).same_eq_of_rearranged (h _ (getElem_mem hj))
      (hget i hi (hlen ▸ hi)) (hget j hj (hlen ▸ hj))
  rw [Distinct, Distinct, pairwise_iff_getElem, pairwise_iff_getElem]
  constructor
  · intro hdist i j hi hj hij
    rw [← hsame i j hi hj]
    exact hdist i j _ _ hij
  · intro hdist i j hi hj hij
    rw [hsame i j (hlen ▸ hi) (hlen ▸ hj)]
    exact hdist i j _ _ hij

theorem distinct_iff_of_perm {items others : List Value} (h : ∀ v ∈ items, v.Regular)
    (hperm : items.Perm others) : Distinct others ↔ Distinct items := by
  have hrgl : ∀ {items : List Value}, (∀ v ∈ items, v.Regular) →
      (Distinct items ↔
        items.Pairwise fun v w => v.Regular → w.Regular → same v w = false) := fun h =>
    Pairwise.iff_of_mem fun hv hw =>
      ⟨fun hsame _ _ => hsame, fun hsame => hsame (h _ hv) (h _ hw)⟩
  rw [hrgl h, hrgl fun v hv => h v (hperm.mem_iff.mpr hv)]
  refine (hperm.pairwise_iff fun hvw hw hv => ?_).symm
  rw [← Bool.not_eq_true]
  intro hsame
  exact absurd (hw.same_symm hv hsame) (by rw [hvw hv hw]; exact Bool.false_ne_true)

end Value

namespace Decorator

theorem Flags.exists_of_checkDistinct {earlier items : List Value} {fault : ValueFault}
    (h : checkDistinct earlier items = .error fault) : ∃ before v after i,
      items = before ++ v :: after ∧ fault = .duplicate v (earlier ++ before).length i ∧
      (earlier ++ before).findIdx? (·.same v) = some i ∧
      Demand.distinct.PassesFrom earlier before := by
  induction items generalizing earlier with
  | nil => cases h
  | cons v items ih =>
    rw [checkDistinct] at h
    cases hfst : earlier.findIdx? (·.same v) with
    | none =>
      rw [hfst] at h
      obtain ⟨before, w, after, i, rfl, hfault, hi, hpass⟩ := ih h
      rw [append_assoc] at hfault hi
      exact ⟨v :: before, w, after, i, rfl, hfault, hi, findIdx?_eq_none_iff.mp hfst, hpass⟩
    | some i =>
      rw [hfst] at h
      refine ⟨[], v, items, i, rfl, ?_, ?_, trivial⟩
      · rw [append_nil]
        exact (Except.error.inj h).symm
      · rw [append_nil]
        exact hfst

/-- On regular values equality is an equivalence relation, and the order of keys does not show in
it. So whether `@unique` passes an array of them depends neither on the order of its elements nor on
that of their keys, and a fault names the first element that equals an earlier one, with the first
of those. -/
theorem unique_of_regular :
    Equivalence (fun v w : {v : Value // v.Regular} => v.1.same w.1 = true) ∧
    (∀ {v v' w w' : Value}, v.Regular → w.Regular → v.Rearranged v' → w.Rearranged w' →
      v'.same w' = v.same w) ∧
    ∀ (args : Arguments) {items : List Value}, (∀ v ∈ items, v.Regular) →
      (unique.checkValue args (.array items) = .ok () ↔
        items.Pairwise fun v w => v.same w = false) ∧
      (∀ {others items' : List Value}, List.Forall₂ Value.Rearranged items others →
        others.Perm items' →
        (unique.checkValue args (.array items') = .ok () ↔
          unique.checkValue args (.array items) = .ok ())) ∧
      ∀ {fault : ValueFault}, unique.checkValue args (.array items) = .error fault →
        ∃ before v after i u, items = before ++ v :: after ∧
          fault = .duplicate v before.length i ∧ (before.Pairwise fun v w => v.same w = false) ∧
          before[i]? = some u ∧ u.same v = true ∧
          ∀ k < i, ∀ w, before[k]? = some w → w.same v = false := by
  have hok : ∀ (args : Arguments) (items : List Value),
      unique.checkValue args (.array items) = .ok () ↔ Value.Distinct items := by
    intro args items
    refine (Flags.decides_checkUnique (.array items)).ok_iff.trans ?_
    simp [Demand.Met, Value.Distinct]
  refine ⟨⟨fun v => v.2.same_self, fun {v w} h => v.2.same_symm w.2 h,
    fun {v _ _} hvw hwx => v.2.same_trans hvw hwx⟩,
    fun hv hw hvv' hww' => hv.same_eq_of_rearranged hw hvv' hww', ?_⟩
  intro args items hits
  refine ⟨hok args items, fun hall hperm => ?_, fun {fault} hfault => ?_⟩
  · have hoth : ∀ w ∈ _, Value.Regular w := fun w hw => by
      obtain ⟨v, hv, hvw⟩ := exists_of_forall₂_of_mem_right hall hw
      exact ((hits v hv).same_of_rearranged hvw).1
    rw [hok, hok, Value.distinct_iff_of_perm hoth hperm,
      Value.distinct_iff_of_forall₂ hits hall]
  · obtain ⟨before, v, after, i, rfl, rfl, hfst, hpass⟩ := Flags.exists_of_checkDistinct hfault
    obtain ⟨hi, hsame, hleast⟩ := List.findIdx?_eq_some_iff_getElem.mp hfst
    refine ⟨before, v, after, i, before[i], rfl, rfl, (Demand.passesFrom_distinct_iff.mp hpass).2,
      List.getElem?_eq_getElem hi, hsame, fun k hk w hw => ?_⟩
    obtain ⟨_, rfl⟩ := List.getElem?_eq_some_iff.mp hw
    exact Bool.not_eq_true _ ▸ hleast k hk

/-- Two objects with the same fields in another order, the second one behind a third. -/
def swappedKeys : List Value :=
  [.object [("a", .null), ("b", .array [.bool true])], .object [],
    .object [("b", .array [.bool true]), ("a", .null)]]

theorem unique_of_regular_swappedKeys : (∀ v ∈ swappedKeys, v.Regular) ∧
    unique.checkValue .bare (.array swappedKeys) ≠ .ok () ∧
    unique.checkValue .bare (.array swappedKeys.reverse) ≠ .ok () := by
  have hrgl : ∀ v ∈ swappedKeys, v.Regular := by
    have hlist : Value.Regular (.array [.bool true]) := .array (by simpa using .bool true)
    intro v hv
    simp only [swappedKeys, List.mem_cons, List.not_mem_nil, or_false] at hv
    rcases hv with rfl | rfl | rfl
    · exact .object (by decide) (by simpa using ⟨.null, hlist⟩)
    · exact .object (by decide) (by simp)
    · exact .object (by decide) (by simpa using ⟨hlist, .null⟩)
  obtain ⟨-, -, hunique⟩ := unique_of_regular
  obtain ⟨hok, hoth, -⟩ := hunique .bare hrgl
  have hsame : ∀ v ∈ swappedKeys, Value.Rearranged v v := fun v _ => .refl v
  have hrepeated : ¬ unique.checkValue .bare (.array swappedKeys) = .ok () := fun h =>
    absurd (hok.mp h) (by decide)
  refine ⟨hrgl, hrepeated, fun h => hrepeated ?_⟩
  exact (hoth (List.forall₂_same.mpr hsame) (List.reverse_perm _).symm).mp h

end Decorator

end Provision
