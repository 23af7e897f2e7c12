import Provision.Checker
import Provision.Proofs.Session.Inference
import Provision.Proofs.Ty.Assignment

/-!
# Two readings of literals

An expression that consists of literals is read in two ways: it has a type, which can be assigned to
the type that is expected of it or not, and it has a value, which conforms to that type or not. The
two readings agree (`Session.checkValue_iff_conforms`), though the type of an array is made of the
types of its elements, and that of an empty array depends on what was expected.

`Ty.Stands` is what the type of an expression and its value have to do with each other: as long as
nothing was expected, or the type in question itself, one can be assigned to it exactly if the other
conforms to it.
-/

namespace Provision

open List

variable {vs : List Value} {fs : List (String × Value)} {kind : Scalar}

/-! ### Expressions -/

namespace Expr

mutual

def keysDistinct : Expr → Bool
  | .lit _ _ => true
  | .var _ => true
  | .member base _ _ => base.keysDistinct
  | .array items _ => keysDistinctAll items
  | .object fields _ => decide (fields.map (·.key.text)).Nodup && keysDistinctFields fields
  | .unary _ operand _ => operand.keysDistinct
  | .call callee args _ => callee.keysDistinct && keysDistinctAll args
  | .binary lhs _ rhs _ => lhs.keysDistinct && rhs.keysDistinct
  | .paren inner _ => inner.keysDistinct

/-- Whether no object literal in some expressions has a key twice. -/
def keysDistinctAll : List Expr → Bool
  | [] => true
  | e :: es => e.keysDistinct && keysDistinctAll es

/-- Whether no object literal in the values of another has a key twice. -/
def keysDistinctFields : List ObjectField → Bool
  | [] => true
  | .mk _ value _ :: rest => value.keysDistinct && keysDistinctFields rest

end

end Expr

/-! ### Values -/

namespace Value

variable {t : Ty}

theorem conformsAll_iff : conformsAll vs t = true ↔ ∀ v ∈ vs, v.conforms t = true := by
  induction vs with
  | nil => simp [conformsAll]
  | cons v vs ih => rw [conformsAll, Bool.and_eq_true, ih, forall_mem_cons]

theorem conformsFields_iff {gs : List (String × Ty)} :
    conformsFields fs gs = true ↔
      ∀ f ∈ fs, ∃ u, Table.find? gs f.1 = some u ∧ f.2.conforms u = true := by
  induction fs with
  | nil => simp [conformsFields]
  | cons f fs ih =>
    rw [conformsFields, Bool.and_eq_true, ih, forall_mem_cons]
    cases Table.find? gs f.1 with
    | none => simp
    | some u => simp

theorem conforms_array_iff : (Value.array vs).conforms t = true ↔
    ∃ u ∈ t.leaves, u = .any ∨ ∃ e, u = .array e ∧ ∀ v ∈ vs, v.conforms e = true := by
  rw [conforms, any_eq_true]
  refine exists_congr fun u => and_congr_right fun _ => ?_
  cases u with
  | array e => simp [conformsAll_iff]
  | _ => simp [Ty.isAny_iff]

/-- An object conforms to the open type, and to an object type with its keys that its entries
conform to. -/
theorem conforms_object_iff : (Value.object fs).conforms t = true ↔
    ∃ u ∈ t.leaves, u = .any ∨ ∃ gs, u = .object gs ∧ (gs = [] ∨ fs.length = gs.length ∧
      ∀ f ∈ fs, ∃ w, Table.find? gs f.1 = some w ∧ f.2.conforms w = true) := by
  rw [conforms, any_eq_true]
  refine exists_congr fun u => and_congr_right fun _ => ?_
  cases u with
  | object gs => simp [conformsFields_iff]
  | _ => simp [Ty.isAny_iff]

theorem keys_ofFields? {fields : List ObjectField} {entries : List (String × Value)}
    (h : ofFields? fields = some entries) : entries.map (·.1) = fields.map (·.key.text) := by
  induction fields generalizing entries with
  | nil =>
    cases h
    rfl
  | cons f fields ih =>
    obtain ⟨key, value, span⟩ := f
    obtain ⟨v, -, hrest⟩ := Option.bind_eq_some_iff.mp h
    obtain ⟨entries, hents, heq⟩ := Option.bind_eq_some_iff.mp hrest
    cases heq
    exact congrArg (key.text :: ·) (ih hents)

def scalar? : Value → Option Scalar
  | .null => some .null
  | .bool _ => some .boolean
  | .number _ => some .number
  | .string _ => some .string
  | _ => none

theorem conforms_of_scalar? {v : Value} (h : v.scalar? = some kind) :
    v.conforms t = true ↔ ∃ u ∈ t.leaves, u = .any ∨ u.same (.scalar kind) = true := by
  cases v with
  | array _ => cases h
  | object _ => cases h
  | _ =>
    cases h
    simp [conforms, Ty.isAny_iff]

end Value

/-! ### Types that stand for values -/

namespace Ty

/-- A type that was found for an expression with a value, `hint` being expected. It is no union, and
it can be assigned to what was expected, or if nothing was, to any type, exactly if the value
conforms. -/
structure Stands (hint : Option Ty) (v : Value) (type : Ty) : Prop where
  union? : type.union? = none
  scalar : ∀ {kind}, v.scalar? = some kind → type = .scalar kind
  assignable_iff : ∀ {t : Ty}, hint = none ∨ hint = some t ∧ t.Tabular →
    (type.assignable t = true ↔ v.conforms t = true)

variable {hint : Option Ty} {t : Ty}

theorem same_scalar_iff : same (.scalar kind) t = true ↔ t = .scalar kind := by
  constructor
  · intro h
    cases same_iff_matches.mp h with
    | scalar => rfl
  · rintro rfl
    exact same_iff_matches.mpr (.scalar kind)

theorem stands_scalar {v : Value} (h : v.scalar? = some kind) : Stands hint v (.scalar kind) where
  union? := rfl
  scalar h' := by rw [Option.some.inj (h.symm.trans h')]
  assignable_iff {t} _ := by
    have hkind : Ty.scalar kind ≠ .any := by
      cases v <;> cases h <;> nofun
    rw [Ty.assignable_iff rfl, Value.conforms_of_scalar? h, or_iff_right hkind]
    refine exists_congr fun u => and_congr_right fun _ => ⟨fun hfits => ?_, ?_⟩
    · cases hfits with
      | any => exact Or.inl rfl
      | same hsame =>
        rw [same_scalar_iff.mp hsame]
        exact Or.inr (same_iff_matches.mpr (.scalar kind))
    · rintro (rfl | hsame)
      · exact .any _
      · cases same_iff_matches.mp hsame with
        | scalar => exact .same hsame

theorem hint_elem (ht : hint = none ∨ hint = some t ∧ t.Tabular) {e : Ty}
    (he : .array e ∈ t.leaves) :
    hint.bind Ty.elem? = none ∨ hint.bind Ty.elem? = some e ∧ e.Tabular := by
  rcases ht with rfl | ⟨rfl, htabular⟩
  · exact Or.inl rfl
  · cases t with
    | array e' =>
      -- an array type is its own only variant
      rw [leaves_of_union? rfl, mem_singleton] at he
      obtain rfl := Ty.array.inj he
      rw [Tabular] at htabular
      exact Or.inr ⟨rfl, htabular⟩
    | _ => exact Or.inl rfl

theorem stands_array_nil :
    Stands hint (.array []) (.array ((hint.bind Ty.elem?).getD .any)) where
  union? := rfl
  scalar := nofun
  assignable_iff {t} ht := by
    rw [Ty.assignable_iff rfl, Value.conforms_array_iff, or_iff_right nofun]
    refine exists_congr fun u => and_congr_right fun hu => fits_array_iff.trans ?_
    refine or_congr_right (exists_congr fun e => and_congr_right fun he => iff_of_true ?_ nofun)
    rcases hint_elem ht (he ▸ hu) with hnone | ⟨hsome, htabular⟩
    · rw [hnone, Option.getD_none, assignable]
    · rw [hsome, Option.getD_some]
      exact assignable_of_same (Tabular.same_self e htabular)

theorem forall_assignable_iff {types : List Ty} (h : Forall₂ (Stands hint) vs types)
    (ht : hint = none ∨ hint = some t ∧ t.Tabular) :
    (∀ type ∈ types, type.assignable t = true) ↔ ∀ v ∈ vs, v.conforms t = true := by
  induction h with
  | nil => simp
  | cons hfst _ ih =>
    rw [forall_mem_cons, forall_mem_cons, hfst.assignable_iff ht, ih]

theorem stands_array {types : List Ty} (h : Forall₂ (Stands (hint.bind Ty.elem?)) vs types) :
    Stands hint (.array vs) (.array (ofVariants types)) where
  union? := rfl
  scalar := nofun
  assignable_iff {t} ht := by
    have hun : ∀ type ∈ types, type.union? = none := by
      clear ht
      induction h with
      | nil => exact forall_mem_nil _
      | cons hfst _ ih => exact forall_mem_cons.mpr ⟨hfst.union?, ih⟩
    have helts : ∀ {e}, .array e ∈ t.leaves →
        ((ofVariants types).assignable e = true ↔ ∀ v ∈ vs, v.conforms e = true) := fun he =>
      (assignable_ofVariants_iff hun).trans (forall_assignable_iff h (hint_elem ht he))
    rw [Ty.assignable_iff rfl, Value.conforms_array_iff, or_iff_right nofun]
    refine exists_congr fun u => and_congr_right fun hu => fits_array_iff.trans ?_
    exact or_congr_right (exists_congr fun e => and_congr_right fun he => helts (he ▸ hu))

/-- A field that stands for an entry of an object: it has its key, and its type stands for the
value. -/
def StandsAt (hints : Table Ty) (f : String × Value) (g : String × Ty) : Prop :=
  g.1 = f.1 ∧ Stands (Table.find? hints f.1) f.2 g.2

/-- Fields that stand for what is expected of them make an object that does. -/
theorem stands_object {types hints : Table Ty} (hhints : hints = [] ∨ hint = some (.object hints))
    (h : Forall₂ (StandsAt hints) fs types) : Stands hint (.object fs) (.object types) where
  union? := rfl
  scalar := nofun
  assignable_iff {t} ht := by
    -- what is expected of a field is nothing, or what the type in question says
    have hhint : ∀ {gs}, .object gs ∈ t.leaves → ∀ {n u}, Table.find? gs n = some u →
        Table.find? hints n = none ∨ Table.find? hints n = some u ∧ u.Tabular := by
      intro gs hgs n u hu
      rcases hhints with rfl | rfl
      · exact Or.inl rfl
      · obtain ⟨heq, htabular⟩ := ht.resolve_left fun h => by cases h
        cases heq
        rw [leaves_of_union? rfl, mem_singleton] at hgs
        obtain rfl := Ty.object.inj hgs
        rw [Tabular] at htabular
        exact Or.inr ⟨hu, tabularFields_iff.mp htabular.2 _ (Table.mem_of_find? hu)⟩
    have hflds : ∀ {gs}, .object gs ∈ t.leaves → (assignableFields types gs = true ↔
        ∀ f ∈ fs, ∃ w, Table.find? gs f.1 = some w ∧ f.2.conforms w = true) := by
      intro gs hgs
      rw [assignableFields_iff]
      clear hhints
      induction h with
      | nil => simp
      | @cons f g fs types hfst _ ih =>
        obtain ⟨hnm, hstands⟩ := hfst
        rw [forall_mem_cons, forall_mem_cons, ih, hnm]
        refine and_congr_left fun _ => exists_congr fun u => and_congr_right fun hu => ?_
        exact hstands.assignable_iff (hhint hgs hu)
    have hlen : types.length = fs.length := h.length_eq.symm
    rw [Ty.assignable_iff rfl, Value.conforms_object_iff, or_iff_right fun h => by cases h]
    refine exists_congr fun u => and_congr_right fun hu => fits_object_iff.trans ?_
    refine or_congr_right (exists_congr fun gs => and_congr_right fun hgs => or_congr_right ?_)
    rw [hlen, hflds (hgs ▸ hu)]

end Ty

/-! ### Inference -/

namespace Session

variable {k : Checker} {s t : Session}

theorem run_bind_of_ok {m : Inferring α} {f : α → Inferring β} {a : α}
    (h : m.run.run s = (.ok a, t)) : (m >>= f).run.run s = (f a).run.run t := by
  show ((m.run >>= ExceptT.bindCont f : Checking _).run s) = _
  rw [run_bind, h]
  rfl

theorem run_nested_of_ok {span : Span} {m : Inferring α} {a : α} (hdp : s.depth < k.maxDepth)
    (h : m.run.run { s with depth := s.depth + 1 } = (.ok a, { s with depth := s.depth + 1 })) :
    (nested k span m).run.run s = (.ok a, s) := by
  rw [run_nested, if_pos hdp, h]
  rfl

theorem exists_hints (fields : List ObjectField) (span : Span) (hint : Option Ty) :
    ∃ hints, (hints = [] ∨ hint = some (.object hints)) ∧
      infer k (.object fields span) hint = nested k span (do
        return .object (← inferFields k hints [] fields)) := by
  cases hint with
  | none => exact ⟨[], Or.inl rfl, by rw [infer]; nofun⟩
  | some type =>
    cases type with
    | object hints => exact ⟨hints, Or.inr rfl, by rw [infer]⟩
    | _ => exact ⟨[], Or.inl rfl, by rw [infer]; nofun⟩

mutual

/-- A literal has a type, and finding it changes nothing. -/
theorem infer_literal : ∀ (e : Expr) {v : Value}, Value.ofExpr? e = some v →
    e.keysDistinct = true → ∀ (hint : Option Ty) {s : Session},
      s.depth + e.height ≤ k.maxDepth →
        ∃ type, (infer k e hint).run.run s = (.ok type, s) ∧ Ty.Stands hint v type
  | .lit value span, v, hv, _, hint, s, hdp => by
    rw [Expr.height] at hdp
    refine ⟨value.type, ?_, ?_⟩
    · rw [infer]
      exact run_nested_of_ok (by omega) rfl
    · cases value <;> obtain rfl := Option.some.inj hv <;> exact Ty.stands_scalar rfl
  | .paren inner span, v, hv, hkeys, hint, s, hdp => by
    rw [Expr.height] at hdp
    rw [Value.ofExpr?] at hv
    rw [Expr.keysDistinct] at hkeys
    obtain ⟨type, hrun, hstands⟩ := infer_literal inner hv hkeys hint
      (s := { s with depth := s.depth + 1 }) (by dsimp only; omega)
    refine ⟨type, ?_, hstands⟩
    rw [infer]
    exact run_nested_of_ok (by omega) hrun
  | .unary op operand span, v, hv, hkeys, hint, s, hdp => by
    rw [Expr.height] at hdp
    rw [Expr.keysDistinct] at hkeys
    cases op with
    | not => simp [Value.ofExpr?] at hv
    | neg =>
      rw [Value.ofExpr?] at hv
      split at hv
      · next x hx =>
        cases hv
        obtain ⟨type, hrun, hstands⟩ := infer_literal operand hx hkeys none
          (s := { s with depth := s.depth + 1 }) (by dsimp only; omega)
        -- the operand is a number, and so is the whole
        obtain rfl := hstands.scalar rfl
        have hfits : Ty.isAnyOr .number UnaryOp.neg.type = true := by
          simp [Ty.isAnyOr, UnaryOp.type, Ty.same]
        refine ⟨.number, ?_, Ty.stands_scalar rfl⟩
        rw [infer]
        refine run_nested_of_ok (by omega) ((run_bind_of_ok hrun).trans ?_)
        rw [if_pos hfits]
        rfl
      · cases hv
  | .array items span, v, hv, hkeys, hint, s, hdp => by
    rw [Expr.height] at hdp
    rw [Expr.keysDistinct] at hkeys
    rw [Value.ofExpr?] at hv
    obtain ⟨vs, hvs, rfl⟩ := Option.map_eq_some_iff.mp hv
    obtain ⟨types, hrun, hstands⟩ := inferItems_literal items hvs hkeys (hint.bind Ty.elem?)
      (s := { s with depth := s.depth + 1 }) (by dsimp only; omega)
    cases hstands with
    | nil =>
      refine ⟨_, ?_, Ty.stands_array_nil⟩
      rw [infer]
      exact run_nested_of_ok (by omega) (run_bind_of_ok hrun)
    | cons hfst hrest =>
      refine ⟨_, ?_, Ty.stands_array (.cons hfst hrest)⟩
      rw [infer]
      exact run_nested_of_ok (by omega) (run_bind_of_ok hrun)
  | .object fields span, v, hv, hkeys, hint, s, hdp => by
    rw [Expr.height] at hdp
    rw [Expr.keysDistinct, Bool.and_eq_true, decide_eq_true_eq] at hkeys
    rw [Value.ofExpr?] at hv
    obtain ⟨entries, hents, rfl⟩ := Option.map_eq_some_iff.mp hv
    obtain ⟨hints, hhints, hinfer⟩ := exists_hints (k := k) fields span hint
    obtain ⟨types, hrun, hstands⟩ := inferFields_literal fields hents hkeys.2 hkeys.1 hints []
      (s := { s with depth := s.depth + 1 }) (fun _ _ => rfl) (by dsimp only; omega)
    have hnd : (entries.map (·.1)).Nodup := Value.keys_ofFields? hents ▸ hkeys.1
    rw [Table.ofList_of_nodup hnd, hinfer]
    exact ⟨_, run_nested_of_ok (by omega) (run_bind_of_ok hrun), Ty.stands_object hhints hstands⟩
  | .var _, v, hv, _, _, _, _ => by
    cases hv
  | .member _ _ _, v, hv, _, _, _, _ => by
    cases hv
  | .call _ _ _, v, hv, _, _, _, _ => by
    cases hv
  | .binary _ _ _ _, v, hv, _, _, _, _ => by
    cases hv

theorem inferItems_literal : ∀ (es : List Expr) {vs : List Value}, Value.ofExprs? es = some vs →
    Expr.keysDistinctAll es = true → ∀ (hint : Option Ty) {s : Session},
      s.depth + Expr.heightAll es ≤ k.maxDepth →
        ∃ types, (inferItems k es hint).run.run s = (.ok types, s) ∧
          Forall₂ (Ty.Stands hint) vs types
  | [], vs, hvs, _, hint, s, _ => by
    cases hvs
    exact ⟨[], rfl, .nil⟩
  | e :: es, vs, hvs, hkeys, hint, s, hdp => by
    rw [Expr.heightAll] at hdp
    rw [Expr.keysDistinctAll, Bool.and_eq_true] at hkeys
    obtain ⟨v, hv, hrest⟩ := Option.bind_eq_some_iff.mp hvs
    obtain ⟨others, hoth, heq⟩ := Option.bind_eq_some_iff.mp hrest
    cases heq
    obtain ⟨type, hrun, hstands⟩ := infer_literal e hv hkeys.1 hint (s := s) (by omega)
    obtain ⟨types, hruns, hall⟩ := inferItems_literal es hoth hkeys.2 hint (s := s) (by omega)
    refine ⟨type :: types, ?_, .cons hstands hall⟩
    rw [inferItems]
    exact (run_bind_of_ok hrun).trans (run_bind_of_ok hruns)

theorem inferFields_literal : ∀ (fields : List ObjectField) {entries : List (String × Value)},
    Value.ofFields? fields = some entries → Expr.keysDistinctFields fields = true →
    (fields.map (·.key.text)).Nodup → ∀ (hints types : Table Ty) {s : Session},
      (∀ f ∈ fields, types.contains f.key.text = false) →
      s.depth + Expr.heightFields fields ≤ k.maxDepth →
        ∃ more, (inferFields k hints types fields).run.run s = (.ok (types ++ more), s) ∧
          Forall₂ (Ty.StandsAt hints) entries more
  | [], entries, hents, _, _, hints, types, s, _, _ => by
    cases hents
    exact ⟨[], by rw [append_nil]; rfl, .nil⟩
  | .mk key value span :: rest, entries, hents, hkeys, hnd, hints, types, s, hnew,
      hdp => by
    rw [Expr.heightFields] at hdp
    rw [Expr.keysDistinctFields, Bool.and_eq_true] at hkeys
    obtain ⟨v, hv, hrest⟩ := Option.bind_eq_some_iff.mp hents
    obtain ⟨others, hoth, heq⟩ := Option.bind_eq_some_iff.mp hrest
    cases heq
    obtain ⟨hkey, hnd⟩ := nodup_cons.mp hnd
    obtain ⟨hfst, hlater⟩ := forall_mem_cons.mp hnew
    have hfree : ¬ types.contains key.text = true := Bool.eq_false_iff.mp hfst
    obtain ⟨type, hrun, hstands⟩ :=
      infer_literal value hv hkeys.1 (Table.find? hints key.text) (s := s) (by omega)
    -- a later key is another one
    have hnew' : ∀ f ∈ rest, (types.insert key.text type).contains f.key.text = false := by
      intro f hf
      have hne : f.key.text ≠ key.text := fun heq =>
        hkey (mem_map.mpr ⟨f, hf, heq⟩)
      rw [Table.contains, Table.find?_insert, if_neg hne]
      exact hlater f hf
    obtain ⟨more, hruns, hall⟩ := inferFields_literal rest hoth hkeys.2 hnd hints
      (types.insert key.text type) (s := s) hnew' (by omega)
    refine ⟨(key.text, type) :: more, ?_, .cons ⟨rfl, hstands⟩ hall⟩
    rw [inferFields, if_neg hfree]
    refine (run_bind_of_ok hrun).trans ?_
    rw [hruns, Table.insert_of_find?_eq_none (Option.not_isSome_iff_eq_none.mp hfree),
      append_assoc]
    rfl

end

/-- **Literals.** A literal within the limits of a check passes the check against a type exactly if
its value conforms to the type. -/
theorem checkValue_iff_conforms {e : Expr} {v : Value} {expected : Ty}
    (hv : Value.ofExpr? e = some v) (hkeys : e.keysDistinct = true)
    (hdp : s.depth + e.height ≤ k.maxDepth) (hexpected : expected.Tabular)
    (subject : Subject) :
    ((checkValue k subject expected e).run s).2.findings = s.findings ↔
      v.conforms expected = true := by
  obtain ⟨type, hrun, hstands⟩ := infer_literal e hv hkeys (some expected) hdp
  rw [← hstands.assignable_iff (Or.inr ⟨rfl, hexpected⟩), checkValue, run_bind, hrun]
  dsimp only
  split
  · next hasg => exact iff_of_true rfl hasg
  · next hnot =>
    refine iff_of_false (fun heq => ?_) hnot
    exact List.cons_ne_nil _ _ (List.append_right_eq_self.mp heq)

/-- `[[], [-1, (2)], expr]`, in which an empty array stands beside one of numbers. -/
private def nestedArrays (e : Expr) : Expr :=
  .array [.array [] ⟨1, 3⟩,
    .array [.unary .neg (.lit (.int 1) ⟨7, 8⟩) ⟨6, 8⟩, .paren (.lit (.int 2) ⟨11, 12⟩) ⟨10, 13⟩]
      ⟨5, 14⟩, e] ⟨0, 20⟩

/-- Arrays of numbers or of arrays of texts, and texts. -/
private def arraysOrTexts : Ty :=
  .array (.union [.array .number, .array (.array .string), .string])

/-- With just the depth that the numbers need, the literal passes with an array of empty arrays in
the last place, and does not with an array of a number and an empty array there. -/
theorem checkValue_iff_conforms_nestedArrays :
    let k : Checker := { Checker.builtin with maxDepth := 4 }
    let accepted := nestedArrays (.array [.array [] ⟨0, 0⟩] ⟨0, 0⟩)
    let rejected := nestedArrays (.array [.lit (.int 1) ⟨0, 0⟩, .array [] ⟨0, 0⟩] ⟨0, 0⟩)
    ((checkValue k (.variable "v") arraysOrTexts accepted).run {}).2.findings = [] ∧
      ((checkValue k (.variable "v") arraysOrTexts rejected).run {}).2.findings ≠ [] := by
  have htable : arraysOrTexts.Tabular := by
    simp [arraysOrTexts, Ty.Tabular, Ty.TabularAll]
  refine ⟨(checkValue_iff_conforms rfl rfl (by decide) htable _).mpr (by decide +kernel), ?_⟩
  intro hnil
  exact absurd ((checkValue_iff_conforms rfl rfl (by decide) htable _).mp hnil) (by decide +kernel)

end Session

end Provision
