import Provision.Proofs.Ty.Outline

/-!
# What written types mean

A written type means a type as soon as its names do (`TypeExpr.meaning`), and it is a function of
what they mean: it does not matter how a session got to know them (`Session.resolveType_eq`). So the
same type written at two places has one outline if its names have (`TypeExpr.outline_meaning`), and
no meaning if one of them has none (`TypeExpr.meaning_eq_none`).
-/

namespace Provision

open List

/-- Whether a type is that of a component or of an instance of one. -/
def Ty.isComponent : Ty → Bool
  | .component _ _ _ _ _ => true
  | _ => false

/-- Whether a type is that of a schema or of a component. -/
def Ty.isDeclared : Ty → Bool
  | .schema .. | .component .. => true
  | _ => false

namespace TypeExpr

/-- The type that a word of the language stands for. -/
def builtIn? (word : String) : Option Ty :=
  match Scalar.ofKeyword? word with
  | some kind => some (.scalar kind)
  | none => if word = "object" then some (.object []) else none

mutual

/-- The names in a written type that are not words of the language. -/
def names : TypeExpr → List String
  | .named name => if (builtIn? name.text).isSome then [] else [name.text]
  | .array elem _ => names elem
  | .union variants _ => namesAll variants

def namesAll : List TypeExpr → List String
  | [] => []
  | e :: es => names e ++ namesAll es

end

mutual

/-- What a written type means where names mean what is given. -/
def meaning (view : String → Option Ty) : TypeExpr → Option Ty
  | .named name => (builtIn? name.text).or (view name.text)
  | .array elem _ => (meaning view elem).map .array
  | .union variants _ => (meanings view variants).map Ty.ofVariants

def meanings (view : String → Option Ty) : List TypeExpr → Option (List Ty)
  | [] => some []
  | e :: es => (meaning view e).bind fun t => (meanings view es).map (t :: ·)

end

variable {view view' : String → Option Ty}

mutual

theorem meaning_congr : ∀ e : TypeExpr, (∀ n ∈ e.names, view n = view' n) →
    e.meaning view = e.meaning view'
  | .named name, h => by
    rw [meaning, meaning]
    cases hbi : builtIn? name.text with
    | some t => rfl
    | none =>
      rw [names, hbi] at h
      exact h name.text (mem_singleton_self _)
  | .array elem _, h => by rw [meaning, meaning, meaning_congr elem h]
  | .union variants _, h => by rw [meaning, meaning, meanings_congr variants h]

theorem meanings_congr : ∀ es : List TypeExpr, (∀ n ∈ namesAll es, view n = view' n) →
    meanings view es = meanings view' es
  | [], _ => rfl
  | e :: es, h => by
    rw [namesAll] at h
    rw [meanings, meanings, meaning_congr e fun n hn => h n (mem_append_left _ hn),
      meanings_congr es fun n hn => h n (mem_append_right _ hn)]

end

theorem outline_builtIn? (word : String) : (builtIn? word).map Ty.outline = builtIn? word := by
  unfold builtIn?
  split
  · rfl
  · split <;> rfl

mutual

theorem outline_meaning : ∀ e : TypeExpr,
    (e.meaning view).map Ty.outline = e.meaning fun n => (view n).map Ty.outline
  | .named name => by
    rw [meaning, meaning, Option.map_or, outline_builtIn?]
  | .array elem _ => by
    rw [meaning, meaning, ← outline_meaning elem]
    cases meaning view elem <;> rfl
  | .union variants _ => by
    rw [meaning, meaning, ← outline_meanings variants]
    cases meanings view variants with
    | none => rfl
    | some ts => exact congrArg some (Ty.outline_ofVariants ts)

theorem outline_meanings : ∀ es : List TypeExpr, (meanings view es).map (·.map Ty.outline) =
    meanings (fun n => (view n).map Ty.outline) es
  | [] => rfl
  | e :: es => by
    rw [meanings, meanings, ← outline_meaning e, ← outline_meanings es]
    cases meaning view e with
    | none => rfl
    | some t => cases meanings view es <;> rfl

end

mutual

/-- A written type has no meaning just if a name in it has none. -/
theorem meaning_eq_none : ∀ e : TypeExpr,
    e.meaning view = none ↔ ∃ n ∈ e.names, view n = none
  | .named name => by
    rw [meaning, names]
    cases builtIn? name.text <;> simp
  | .array elem _ => by rw [meaning, names, Option.map_eq_none_iff, meaning_eq_none elem]
  | .union variants _ => by
    rw [meaning, names, Option.map_eq_none_iff, meanings_eq_none variants]

theorem meanings_eq_none : ∀ es : List TypeExpr,
    meanings view es = none ↔ ∃ n ∈ namesAll es, view n = none
  | [] => by simp [meanings, namesAll]
  | e :: es => by
    have hsplit : (∃ n ∈ namesAll (e :: es), view n = none) ↔
        e.meaning view = none ∨ meanings view es = none := by
      rw [namesAll, meaning_eq_none e, meanings_eq_none es]
      simp only [mem_append, or_and_right, exists_or]
    rw [hsplit, meanings]
    cases e.meaning view <;> simp

end

theorem exists_of_meaning {e : TypeExpr} {type : Ty} (h : e.meaning view = some type) :
    ∀ n ∈ e.names, ∃ u, view n = some u := by
  intro n hn
  cases hview : view n with
  | some u => exact ⟨u, rfl⟩
  | none =>
    rw [(meaning_eq_none e).mpr ⟨n, hn, hview⟩] at h
    cases h

theorem flat_builtIn? {word : String} {t : Ty} (h : builtIn? word = some t) : t.Flat := by
  unfold builtIn? at h
  split at h
  · next kind _ =>
    cases h
    exact Ty.Single.flat ⟨by rw [Ty.same, beq_self_eq_true], rfl, rfl⟩
  · split at h
    · cases h
      exact Ty.Single.flat ⟨by rw [Ty.same, Ty.sameFields, beq_self_eq_true]; rfl, rfl, rfl⟩
    · cases h

theorem not_isDeclared_of_builtIn? {word : String} {t v : Ty} (h : builtIn? word = some t)
    (hv : v ∈ t.leaves) : v.isDeclared = false := by
  unfold builtIn? at h
  split at h
  · cases h
    rw [Ty.leaves_of_union? rfl] at hv
    exact mem_singleton.mp hv ▸ rfl
  · split at h
    · cases h
      rw [Ty.leaves_of_union? rfl] at hv
      exact mem_singleton.mp hv ▸ rfl
    · cases h

mutual

theorem flat_meaning (h : ∀ n t, view n = some t → t.Flat) :
    ∀ (e : TypeExpr) {t : Ty}, e.meaning view = some t → t.Flat
  | .named name, t, he => by
    rw [meaning] at he
    cases hbi : builtIn? name.text with
    | some u =>
      rw [hbi] at he
      exact Option.some.inj he ▸ flat_builtIn? hbi
    | none =>
      rw [hbi] at he
      exact h name.text t he
  | .array elem _, t, he => by
    rw [meaning] at he
    obtain ⟨u, hu, rfl⟩ := Option.map_eq_some_iff.mp he
    exact (flat_meaning h elem hu).array
  | .union variants _, t, he => by
    rw [meaning] at he
    obtain ⟨ts, hts, rfl⟩ := Option.map_eq_some_iff.mp he
    exact Ty.Flat.ofVariants (flat_meanings h variants hts)

theorem flat_meanings (h : ∀ n t, view n = some t → t.Flat) :
    ∀ (es : List TypeExpr) {ts : List Ty}, meanings view es = some ts → ∀ t ∈ ts, t.Flat
  | [], ts, hes => by
    cases hes
    exact forall_mem_nil _
  | e :: es, ts, hes => by
    rw [meanings] at hes
    obtain ⟨t, ht, hes⟩ := Option.bind_eq_some_iff.mp hes
    obtain ⟨ts, hts, rfl⟩ := Option.map_eq_some_iff.mp hes
    exact forall_mem_cons.mpr ⟨flat_meaning h e ht, flat_meanings h es hts⟩

end

mutual

theorem exists_of_mem_leaves_meaning :
    ∀ (e : TypeExpr) {t v : Ty}, e.meaning view = some t → v ∈ t.leaves →
      v.isDeclared = true → ∃ n ∈ e.names, ∃ u, view n = some u ∧ v ∈ u.leaves
  | .named name, t, v, he, hv, hdecl => by
    rw [meaning] at he
    rw [names]
    cases hbi : builtIn? name.text with
    | some u =>
      rw [hbi] at he
      cases he
      rw [not_isDeclared_of_builtIn? hbi hv] at hdecl
      cases hdecl
    | none =>
      rw [hbi] at he
      exact ⟨name.text, mem_singleton_self _, t, he, hv⟩
  | .array elem _, t, v, he, hv, hdecl => by
    rw [meaning] at he
    obtain ⟨u, -, rfl⟩ := Option.map_eq_some_iff.mp he
    rw [Ty.leaves_of_union? rfl] at hv
    -- An array is its own only alternative, and is not declared.
    obtain rfl := mem_singleton.mp hv
    cases hdecl
  | .union variants _, t, v, he, hv, hdecl => by
    rw [meaning] at he
    obtain ⟨ts, hts, rfl⟩ := Option.map_eq_some_iff.mp he
    obtain ⟨t, ht, hvt⟩ := Ty.exists_of_mem_leaves_ofVariants hv
    exact exists_of_mem_leaves_meanings variants hts ht hvt hdecl

theorem exists_of_mem_leaves_meanings :
    ∀ (es : List TypeExpr) {ts : List Ty} {t v : Ty}, meanings view es = some ts → t ∈ ts →
      v ∈ t.leaves → v.isDeclared = true →
        ∃ n ∈ namesAll es, ∃ u, view n = some u ∧ v ∈ u.leaves
  | [], ts, t, v, hes, ht, _, _ => by
    cases hes
    cases ht
  | e :: es, ts, t, v, hes, ht, hv, hdecl => by
    rw [meanings] at hes
    obtain ⟨t', ht', hes⟩ := Option.bind_eq_some_iff.mp hes
    obtain ⟨ts, hts, rfl⟩ := Option.map_eq_some_iff.mp hes
    rw [namesAll]
    rcases mem_cons.mp ht with rfl | ht
    · obtain ⟨n, hn, hu⟩ := exists_of_mem_leaves_meaning e ht' hv hdecl
      exact ⟨n, mem_append_left _ hn, hu⟩
    · obtain ⟨n, hn, hu⟩ := exists_of_mem_leaves_meanings es hts ht hv hdecl
      exact ⟨n, mem_append_right _ hn, hu⟩

end

theorem exists_of_mem_variants_meaning (h : ∀ n t, view n = some t → t.Flat) (e : TypeExpr)
    {t v : Ty} (he : e.meaning view = some t) (hv : v ∈ t.variants)
    (hdecl : v.isDeclared = true) :
    ∃ n ∈ e.names, ∃ u, view n = some u ∧ v ∈ u.variants := by
  obtain ⟨n, hn, u, hu, hvu⟩ := exists_of_mem_leaves_meaning e he
    ((flat_meaning h e he).mem_leaves_iff.mpr hv) hdecl
  exact ⟨n, hn, u, hu, (h n u hu).mem_leaves_iff.mp hvu⟩

mutual

theorem allAny_meaning (h : ∀ n t, view n = some t → t.Flat) :
    ∀ (e : TypeExpr) {t : Ty}, e.meaning view = some t → t.AllAny →
      ∀ n ∈ e.names, ∃ u, view n = some u ∧ u.AllAny
  | .named name, t, he, hany => by
    rw [meaning] at he
    rw [names]
    cases hbi : builtIn? name.text with
    | some _ => exact forall_mem_nil _
    | none =>
      rw [hbi] at he
      rintro n hn
      obtain rfl := mem_singleton.mp hn
      exact ⟨t, he, hany⟩
  | .array elem _, t, he, hany => by
    rw [meaning] at he
    obtain ⟨u, -, rfl⟩ := Option.map_eq_some_iff.mp he
    cases hany _ (mem_singleton_self _)
  | .union variants _, t, he, hany => by
    rw [meaning] at he
    obtain ⟨ts, hts, rfl⟩ := Option.map_eq_some_iff.mp he
    exact allAny_meanings h variants hts (hany.of_ofVariants (flat_meanings h variants hts))

theorem allAny_meanings (h : ∀ n t, view n = some t → t.Flat) :
    ∀ (es : List TypeExpr) {ts : List Ty}, meanings view es = some ts → (∀ t ∈ ts, t.AllAny) →
      ∀ n ∈ namesAll es, ∃ u, view n = some u ∧ u.AllAny
  | [], _, _, _ => forall_mem_nil _
  | e :: es, ts, hes, hany => by
    rw [meanings] at hes
    obtain ⟨t, ht, hes⟩ := Option.bind_eq_some_iff.mp hes
    obtain ⟨ts, hts, rfl⟩ := Option.map_eq_some_iff.mp hes
    obtain ⟨hanyt, hany⟩ := forall_mem_cons.mp hany
    intro n hn
    rcases mem_append.mp hn with hn | hn
    · exact allAny_meaning h e ht hanyt n hn
    · exact allAny_meanings h es hts hany n hn

end

end TypeExpr

/-- A type that has a name of its own to be written with: that of a schema or of a component. -/
def Ty.isNominal : Ty → Bool
  | .schema _ _ _ => true
  | .component _ none _ _ _ => true
  | _ => false

theorem Ty.isNominal_of_core {type type' : Ty} (h : type'.core = type.core) :
    type'.isNominal = type.isNominal := by
  have hcore : ∀ type : Ty, type.core.isNominal = type.isNominal := by
    intro type
    cases type with
    | component _ inst _ _ _ => cases inst <;> rfl
    | _ => rfl
  rw [← hcore, h, hcore]

namespace Session

/-- The type that a name means where one is written. -/
def denotes? (s : Session) (n : String) : Option Ty :=
  match s.scopes.resolve n with
  | .ok (scope, found) =>
    if s.aliases.contains (scope, n) || found.isNominal then some found else none
  | .error _ => none

variable {s : Session}

/-- A name that can be written is that of an alias, or is bound to a type with a name of its own. -/
theorem resolve_of_denotes? {n : String} {type : Ty} (h : s.denotes? n = some type) :
    ∃ scope, s.scopes.resolve n = .ok (scope, type) ∧
      ((scope, n) ∈ s.aliases ∨ type.isNominal = true) := by
  unfold denotes? at h
  cases hres : s.scopes.resolve n with
  | error e =>
    rw [hres] at h
    cases h
  | ok found =>
    rw [hres] at h
    dsimp only at h
    split at h
    · next hwr =>
      cases h
      exact ⟨found.1, rfl, (Bool.or_eq_true_iff.mp hwr).imp_left contains_iff_mem.mp⟩
    · cases h

mutual

/-- A session resolves a written type to what it means where names mean what the session knows. -/
theorem resolveType_eq : ∀ e : TypeExpr, (s.resolveType e).toOption = e.meaning s.denotes?
  | .named name => by
    rw [resolveType, TypeExpr.meaning, TypeExpr.builtIn?]
    cases Scalar.ofKeyword? name.text with
    | some kind => rfl
    | none =>
      dsimp only
      split
      · rfl
      · -- No built-in type has the name: it is looked up in the scopes.
        rw [Option.none_or, denotes?]
        cases s.scopes.resolve name.text with
        | error e => rfl
        | ok found =>
          obtain ⟨scope, found⟩ := found
          dsimp only
          split
          · next halias =>
            rw [halias, Bool.true_or]
            rfl
          · next halias =>
            rw [Bool.eq_false_iff.mpr halias, Bool.false_or]
            cases found with
            | component _ inst _ _ _ => cases inst <;> rfl
            | _ => rfl
  | .array elem _ => by
    rw [resolveType, TypeExpr.meaning, ← resolveType_eq elem]
    cases s.resolveType elem <;> rfl
  | .union variants _ => by
    rw [resolveType, TypeExpr.meaning, ← resolveTypes_eq variants]
    cases s.resolveTypes variants <;> rfl

theorem resolveTypes_eq : ∀ es : List TypeExpr,
    (s.resolveTypes es).toOption = TypeExpr.meanings s.denotes? es
  | [] => rfl
  | e :: es => by
    rw [resolveTypes, TypeExpr.meanings, ← resolveType_eq e, ← resolveTypes_eq es]
    cases s.resolveType e with
    | error _ => rfl
    | ok t => cases s.resolveTypes es <;> rfl

end

end Session

end Provision
