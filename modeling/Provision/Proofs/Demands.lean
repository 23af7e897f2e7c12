import Provision.Proofs.Arguments
import Provision.Proofs.Literals

/-!
# What checks of values ask

A decorator whose check waits for a value asks something of the value (`Demand`), and what it asks
is written between its parentheses (`Demand.Asked`). Where its arguments have passed the check of
shapes and its declaration the check of types, a value of the declared type is never of the wrong
kind for it: the check passes exactly if the demand is met, and for an array it names the first
element that is not as asked (`Decorator.decides_checkValue`).

The checks of elements are loops that stop at the first fault; `Demand.Scans` says what such a loop
comes to, and is built up one element at a time.
-/

namespace Provision

open List

variable {kind : Scalar}

/-! ### Values of admitted types -/

namespace Ty

theorem eq_scalar_of_same {t : Ty} (h : t.same (.scalar kind) = true) : t = .scalar kind := by
  cases same_iff_matches.mp h with
  | scalar => rfl

theorem union?_of_mem_leaves {t u : Ty} (h : u ∈ t.leaves) : u.union? = none := by
  induction t using union_induction with
  | single t ht =>
    rw [leaves_of_union? ht, mem_singleton] at h
    exact h ▸ ht
  | union vs ih =>
    obtain ⟨v, hv, h⟩ := mem_leaves_union.mp h
    exact ih v hv h

end Ty

namespace Value

variable {v : Value} {type : Ty}

/-- A value of a type is a value of one of its alternatives. -/
theorem exists_leaf (h : v.conforms type = true) : ∃ u ∈ type.leaves, v.conforms u = true := by
  have hleaf : ∀ {f : Ty → Bool}, type.leaves.any f = true →
      ∃ u ∈ type.leaves, u.leaves.any f = true := by
    intro f hf
    obtain ⟨u, hu, hu'⟩ := any_eq_true.mp hf
    refine ⟨u, hu, ?_⟩
    rw [Ty.leaves_of_union? (Ty.union?_of_mem_leaves hu), any_cons, hu', Bool.true_or]
  cases v with
  | _ =>
    simp only [conforms] at h ⊢
    exact hleaf h

theorem scalar?_of_conforms (hkind : kind ≠ .any)
    (h : v.conforms (.scalar kind) = true) : v.scalar? = some kind := by
  cases v <;> simp_all [conforms, Ty.leaves, Ty.isAny_iff, Ty.same_scalar_iff, scalar?]

theorem exists_items_of_conforms {elem : Ty} (h : v.conforms (.array elem) = true) :
    ∃ items, v = .array items ∧ ∀ w ∈ items, w.conforms elem = true := by
  cases v <;> simp_all [conforms, Ty.leaves, Ty.isAny_iff, Ty.same, conformsAll_iff]

theorem exists_number (h : v.scalar? = some .number) : ∃ x, v = .number x := by
  cases v with
  | number x => exact ⟨x, rfl⟩
  | _ => cases h

theorem exists_string (h : v.scalar? = some .string) : ∃ s, v = .string s := by
  cases v with
  | string s => exact ⟨s, rfl⟩
  | _ => cases h

/-- A value of a type that takes a scalar or an array of it is one or the other. -/
theorem plain_or_array (hkind : kind ≠ .any) (hv : v.conforms type = true)
    (hadmits : ∀ u ∈ type.leaves, u.same (.scalar kind) = true ∨
      (TypeClass.arrayOf kind).admits u = true) :
    v.scalar? = some kind ∨ ∃ items, v = .array items ∧ ∀ w ∈ items, w.scalar? = some kind := by
  obtain ⟨u, hu, hv⟩ := exists_leaf hv
  rcases hadmits u hu with hu | hu
  · exact Or.inl (scalar?_of_conforms hkind (Ty.eq_scalar_of_same hu ▸ hv))
  · cases u with
    | array elem =>
      obtain ⟨items, rfl, hits⟩ := exists_items_of_conforms hv
      obtain rfl := Ty.eq_scalar_of_same hu
      exact Or.inr ⟨items, rfl, fun w hw => scalar?_of_conforms hkind (hits w hw)⟩
    | _ => cases hu

theorem string_or_array (hv : v.conforms type = true)
    (hadmits : ∀ u ∈ type.leaves, u.same .string = true ∨ TypeClass.array.admits u = true) :
    (∃ s, v = .string s) ∨ ∃ items, v = .array items := by
  obtain ⟨u, hu, hv⟩ := exists_leaf hv
  rcases hadmits u hu with hu | hu
  · exact Or.inl (exists_string (scalar?_of_conforms nofun (Ty.eq_scalar_of_same hu ▸ hv)))
  · cases u with
    | array elem =>
      obtain ⟨items, rfl, -⟩ := exists_items_of_conforms hv
      exact Or.inr ⟨items, rfl⟩
    | _ => cases hu

end Value

/-! ### What arguments say -/

namespace Expr

/-- The value of a literal. -/
def ofLit : Lit → Value
  | .int n => .number (Number.ofInt n)
  | .float x => .number x
  | .str s => .string s
  | .bool b => .bool b
  | .null => .null

/-- The value that an expression made of literals writes down. -/
inductive Writes : Expr → Value → Prop
  | lit {l : Lit} {span : Span} : Writes (.lit l span) (ofLit l)
  | neg {e : Expr} {x : Number} {span : Span} (h : Writes e (.number x)) :
      Writes (.unary .neg e span) (.number x.neg)
  | paren {e : Expr} {v : Value} {span : Span} (h : Writes e v) : Writes (.paren e span) v
  | array {items : List Expr} {vs : List Value} {span : Span} (h : Forall₂ Writes items vs) :
      Writes (.array items span) (.array vs)
  | object {fields : List ObjectField} {entries : List (String × Value)} {span : Span}
      (hkeys : entries.map (·.1) = fields.map (·.key.text))
      (h : Forall₂ Writes (fields.map (·.value)) (entries.map (·.2))) :
      Writes (.object fields span) (.object (Table.ofList entries))

mutual

/-- A value read from an expression is what the expression writes. -/
theorem writes_of_ofExpr? : ∀ {e : Expr} {v : Value}, Value.ofExpr? e = some v → e.Writes v
  | .lit value span, v, hv => by
    cases value <;> obtain rfl := Option.some.inj hv <;> exact .lit
  | .paren inner span, v, hv => .paren (writes_of_ofExpr? hv)
  | .unary op operand span, v, hv => by
    cases op with
    | not => simp [Value.ofExpr?] at hv
    | neg =>
      rw [Value.ofExpr?] at hv
      split at hv
      · next x hx =>
        cases hv
        exact .neg (writes_of_ofExpr? hx)
      · cases hv
  | .array items span, v, hv => by
    obtain ⟨vs, hvs, rfl⟩ := Option.map_eq_some_iff.mp hv
    exact .array (writes_of_ofExprs? hvs)
  | .object fields span, v, hv => by
    obtain ⟨entries, hents, rfl⟩ := Option.map_eq_some_iff.mp hv
    exact .object (Value.keys_ofFields? hents) (writes_of_ofFields? hents)
  | .var _, v, hv | .member _ _ _, v, hv | .call _ _ _, v, hv | .binary _ _ _ _, v, hv => by
    cases hv

theorem writes_of_ofExprs? : ∀ {es : List Expr} {vs : List Value}, Value.ofExprs? es = some vs →
    Forall₂ Writes es vs
  | [], vs, hvs => Option.some.inj hvs ▸ .nil
  | e :: es, vs, hvs => by
    obtain ⟨v, hv, hrest⟩ := Option.bind_eq_some_iff.mp hvs
    obtain ⟨others, hoth, heq⟩ := Option.bind_eq_some_iff.mp hrest
    exact Option.some.inj heq ▸ .cons (writes_of_ofExpr? hv) (writes_of_ofExprs? hoth)

theorem writes_of_ofFields? : ∀ {fields : List ObjectField} {entries : List (String × Value)},
    Value.ofFields? fields = some entries →
    Forall₂ Writes (fields.map (·.value)) (entries.map (·.2))
  | [], entries, hents => Option.some.inj hents ▸ .nil
  | .mk key value span :: rest, entries, hents => by
    obtain ⟨v, hv, hrest⟩ := Option.bind_eq_some_iff.mp hents
    obtain ⟨others, hoth, heq⟩ := Option.bind_eq_some_iff.mp hrest
    exact Option.some.inj heq ▸ .cons (writes_of_ofExpr? hv) (writes_of_ofFields? hoth)

end

end Expr

/-- Among named arguments there is one of a name that says a text. -/
def NamedArg.Say (args : List NamedArg) (key text : String) : Prop :=
  ∃ a ∈ args, a.name.text = key ∧ a.value.Says (.str text)

/-- A text found under a key is written there as a literal. -/
theorem NamedArg.say_of_namedString? {args : List NamedArg} {key text : String}
    (h : (Arguments.named args).namedString? key = some text) : Say args key text := by
  obtain ⟨a, ha, htext⟩ := Option.bind_eq_some_iff.mp h
  have hnm := find?_some ha
  exact ⟨a, mem_of_find?_eq_some ha, beq_iff_eq.mp hnm,
    Expr.says_of_literal? (Expr.literal?_eq_str_iff.mpr htext)⟩

/-! ### Demands -/

/-- What a check that waits for a value asks of it. -/
inductive Demand where
  | number (side : Side) (bound : Int)
  | length (side : Side) (bound : Int)
  | nonEmpty
  | distinct
  | among (values : List Value)
  | matching (matcher : String → Bool)

namespace Demand

/-- What a decorator of a name asks, as it is written between its parentheses. -/
inductive Asked (engine : Pattern.Engine) : String → Arguments → Demand → Prop
  | minValue {arg : Expr} {n : Int} (h : arg.Says (.int n)) :
      Asked engine "minValue" (.value arg) (.number .min n)
  | maxValue {arg : Expr} {n : Int} (h : arg.Says (.int n)) :
      Asked engine "maxValue" (.value arg) (.number .max n)
  | minLength {arg : Expr} {n : Int} (h : arg.Says (.int n)) :
      Asked engine "minLength" (.value arg) (.length .min n)
  | maxLength {arg : Expr} {n : Int} (h : arg.Says (.int n)) :
      Asked engine "maxLength" (.value arg) (.length .max n)
  | nonEmpty {args : Arguments} : Asked engine "nonEmpty" args .nonEmpty
  | unique {args : Arguments} : Asked engine "unique" args .distinct
  | oneAllowed {arg : Expr} {v : Value} (harg : ∀ items span, arg ≠ .array items span)
      (h : arg.Writes v) : Asked engine "allowed" (.value arg) (.among [v])
  | allowed {items : List Expr} {span : Span} {vs : List Value} (h : Forall₂ Expr.Writes items vs) :
      Asked engine "allowed" (.value (.array items span)) (.among vs)
  /-- The pattern is written out, or it is that of a preset; the letters of the flags are
  optional. -/
  | validate {args : List NamedArg} {text letters : String} {matcher : String → Bool}
      (htext : NamedArg.Say args "regex" text ∨
        ∃ preset, NamedArg.Say args "preset" preset ∧ (preset, text) ∈ Decorator.Validate.presets)
      (hletters : NamedArg.Say args "flags" letters ∨
        letters = "" ∧ ∀ a ∈ args, a.name.text ≠ "flags")
      (h : engine.compile? { ignoreCase := 'i' ∈ letters.toList
                             multiLine := 'm' ∈ letters.toList
                             dotAll := 's' ∈ letters.toList
                             extended := 'x' ∈ letters.toList } text = some matcher) :
      Asked engine "validate" (.named args) (.matching matcher)

/-- A number is not below the least one that is asked for, or not above the greatest. -/
def InBound (bound : Int) (x : Number) : Side → Prop
  | .min => x.less (Number.ofInt bound) = false
  | .max => (Number.ofInt bound).less x = false

def InLength (bound : Int) (n : Nat) : Side → Prop
  | .min => bound ≤ n
  | .max => n ≤ bound

/-- Whether an element of an array is as asked, `earlier` being those before it. -/
def Passes : Demand → List Value → Value → Prop
  | .number side bound, _, v => ∃ x, v = .number x ∧ InBound bound x side
  | .distinct, earlier, v => ∀ u ∈ earlier, u.same v = false
  | .among values, _, v => ∃ u ∈ values, u.same v = true
  | .matching matcher, _, v => ∃ s, v = .string s ∧ matcher s = true
  | _, _, _ => True

/-- All elements of an array are as asked, from some of them on. -/
def PassesFrom (d : Demand) : List Value → List Value → Prop
  | _, [] => True
  | earlier, v :: rest => d.Passes earlier v ∧ d.PassesFrom (earlier ++ [v]) rest

def Met : Demand → Value → Prop
  | .number side bound, v => (∀ x, v = .number x → InBound bound x side) ∧
      ∀ items, v = .array items → ∀ x, .number x ∈ items → InBound bound x side
  | .length side bound, v => (∀ s, v = .string s → InLength bound s.length side) ∧
      ∀ items, v = .array items → InLength bound items.length side
  | .nonEmpty, v => (∀ s, v = .string s → Text.isBlankText s = false) ∧ v ≠ .array []
  | .distinct, v => ∀ items, v = .array items → items.Pairwise fun u w => u.same w = false
  | .among values, v => (∃ u ∈ values, u.same v = true) ∨
      ∃ items, v = .array items ∧ ∀ w ∈ items, ∃ u ∈ values, u.same w = true
  | .matching matcher, v => (∃ s, v = .string s ∧ matcher s = true) ∨
      ∃ items, v = .array items ∧ ∀ w ∈ items, ∃ s, w = .string s ∧ matcher s = true

/-- Whether a demand is one on the elements of an array. -/
def elementwise : Demand → Bool
  | .length _ _ => false
  | .nonEmpty => false
  | _ => true

end Demand

namespace ValueFault

/-- Whether a fault says that a value or an element is of the wrong kind. -/
def isKindMismatch : ValueFault → Bool
  | .notANumber _ => true
  | .expectedNumber _ => true
  | .expectedString _ => true
  | .expectedStringOrArray _ => true
  | _ => false

def index? : ValueFault → Option Nat
  | .notAllowed (.element index _) _ => some index
  | .outOfBounds (.element index _) _ _ => some index
  | .notANumber (.element index _) => some index
  | .duplicate _ index _ => some index
  | .noMatch (.element index _) _ => some index
  | .noMatchCustom (.element index _) _ => some index
  | _ => none

end ValueFault

namespace Demand

/-- A check passes a value exactly if the value is as asked. A fault is never that the value is of
the wrong kind, and in an array it is that of the first element that is not as asked. -/
structure Decides (d : Demand) (v : Value) (check : Except ValueFault Unit) : Prop where
  ok_iff : check = .ok () ↔ d.Met v
  fault : ∀ {f}, check = .error f → f.isKindMismatch = false ∧
    ∀ {items}, v = .array items → d.elementwise = true → ∃ before w after,
      items = before ++ w :: after ∧ f.index? = some before.length ∧ ¬ d.Passes before w ∧
        d.PassesFrom [] before

variable {d : Demand} {earlier rest items : List Value} {v : Value} {f : ValueFault}
  {check : Except ValueFault Unit}

theorem Decides.of_ite {b : Prop} [Decidable b] (hmet : ¬ b ↔ d.Met v)
    (hkind : f.isKindMismatch = false)
    (hwhole : (∀ items, v ≠ .array items) ∨ d.elementwise = false) :
    d.Decides v (if b then .error f else .ok ()) where
  ok_iff := by
    rw [← hmet]
    split <;> simp [*]
  fault {g} hg := by
    split at hg
    · cases hg
      refine ⟨hkind, fun {items} hits helementwise => ?_⟩
      rcases hwhole with hwhole | hwhole
      · exact absurd hits (hwhole items)
      · rw [hwhole] at helementwise
        cases helementwise
    · cases hg

/-! ### Loops over elements -/

/-- A loop over elements passes if all of them are as asked, and otherwise stops at the first that
is not. -/
structure Scans (d : Demand) (earlier items : List Value) (check : Except ValueFault Unit) :
    Prop where
  ok : check = .ok () → d.PassesFrom earlier items
  fault : ∀ {f}, check = .error f → f.isKindMismatch = false ∧ ∃ before w after,
    items = before ++ w :: after ∧ f.index? = some (earlier ++ before).length ∧
      ¬ d.Passes (earlier ++ before) w ∧ d.PassesFrom earlier before

theorem Scans.nil : d.Scans earlier [] (.ok ()) := ⟨fun _ => trivial, nofun⟩

/-- A value that passes is added to those seen, and the scan goes on. -/
theorem Scans.pass (hv : d.Passes earlier v) (h : d.Scans (earlier ++ [v]) rest check) :
    d.Scans earlier (v :: rest) check where
  ok hok := ⟨hv, h.ok hok⟩
  fault hf := by
    obtain ⟨hkind, before, w, after, rfl, hidx, hw, hbef⟩ := h.fault hf
    rw [append_assoc] at hidx hw
    exact ⟨hkind, v :: before, w, after, rfl, hidx, hw, hv, hbef⟩

/-- The first value that does not pass is the one at fault, at its own place. -/
theorem Scans.fail (hv : ¬ d.Passes earlier v) (hidx : f.index? = some earlier.length)
    (hkind : f.isKindMismatch = false) : d.Scans earlier (v :: rest) (.error f) where
  ok := nofun
  fault hf := by
    cases hf
    refine ⟨hkind, [], v, rest, rfl, ?_, ?_, trivial⟩
    · rwa [append_nil]
    · rwa [append_nil]

theorem passesFrom_append {before after : List Value}
    (h : d.PassesFrom earlier (before ++ v :: after)) : d.Passes (earlier ++ before) v := by
  induction before generalizing earlier with
  | nil =>
    rw [append_nil]
    exact h.1
  | cons w before ih =>
    have hrest := ih h.2
    rwa [append_assoc] at hrest

/-- A scan of a whole array decides what is demanded of the array. -/
theorem Scans.decides (h : d.Scans [] items check)
    (hmet : d.Met (.array items) ↔ d.PassesFrom [] items) : d.Decides (.array items) check where
  ok_iff := by
    refine ⟨fun hok => hmet.mpr (h.ok hok), fun hpasses => ?_⟩
    cases hchk : check with
    | ok => rfl
    | error f =>
      obtain ⟨-, before, w, after, rfl, -, hw, -⟩ := h.fault hchk
      exact absurd (passesFrom_append (hmet.mp hpasses)) hw
  fault hf := by
    obtain ⟨hkind, before, w, after, rfl, hidx, hw, hbef⟩ := h.fault hf
    refine ⟨hkind, ?_⟩
    rintro items ⟨⟩ -
    exact ⟨before, w, after, rfl, hidx, hw, hbef⟩

theorem passesFrom_iff_forall_mem {P : Value → Prop} (h : ∀ earlier v, d.Passes earlier v ↔ P v) :
    d.PassesFrom earlier items ↔ ∀ v ∈ items, P v := by
  induction items generalizing earlier with
  | nil => simp [PassesFrom]
  | cons v items ih => rw [PassesFrom, h, ih, forall_mem_cons]

/-- Each value passes on its own exactly if no two of them are the same. -/
theorem passesFrom_distinct_iff : distinct.PassesFrom earlier items ↔
    (∀ u ∈ earlier, ∀ w ∈ items, u.same w = false) ∧
      items.Pairwise fun u w => u.same w = false := by
  induction items generalizing earlier with
  | nil => simp [PassesFrom]
  | cons v items ih =>
    rw [PassesFrom, ih, Passes, pairwise_cons]
    simp only [forall_mem_cons, mem_append, mem_singleton, or_imp, forall_and,
      forall_eq]
    tauto

end Demand

/-! ### The checks -/

namespace Decorator

open Demand

variable {items : List Value} {args : Arguments} {v : Value}

namespace Bounds

variable {side : Side} {bound : Int}

theorem not_isBeyond_iff {x : Number} :
    ¬ isBeyond side x (Number.ofInt bound) = true ↔ InBound bound x side := by
  cases side <;> simp [isBeyond, InBound]

theorem not_isLengthBeyond_iff {n : Nat} :
    ¬ isLengthBeyond side n bound = true ↔ InLength bound n side := by
  cases side <;> simp [isLengthBeyond, InLength]

theorem scans_checkElements (earlier : List Value)
    (hits : ∀ w ∈ items, w.scalar? = some .number) :
    (Demand.number side bound).Scans earlier items
      (checkElements side bound earlier.length items) := by
  induction items generalizing earlier with
  | nil => exact .nil
  | cons v items ih =>
    obtain ⟨hv, hrest⟩ := forall_mem_cons.mp hits
    obtain ⟨x, rfl⟩ := Value.exists_number hv
    have hscans := ih (earlier ++ [.number x]) hrest
    rw [length_append] at hscans
    rw [checkElements]
    split
    · next hbeyond =>
      refine .fail ?_ rfl rfl
      rintro ⟨y, ⟨⟩, hy⟩
      exact not_isBeyond_iff.mpr hy hbeyond
    · next hwithin => exact .pass ⟨x, rfl, not_isBeyond_iff.mp hwithin⟩ hscans

theorem decides_checkNumbers (hint : args.int? = some bound)
    (hv : v.scalar? = some .number ∨
      ∃ items, v = .array items ∧ ∀ w ∈ items, w.scalar? = some .number) :
    (Demand.number side bound).Decides v (checkNumbers side args v) := by
  rw [checkNumbers, hint]
  rcases hv with hscalar | ⟨items, rfl, hits⟩
  · obtain ⟨x, rfl⟩ := Value.exists_number hscalar
    refine Decides.of_ite ?_ rfl (Or.inl nofun)
    rw [not_isBeyond_iff]
    simp [Met]
  · refine Scans.decides (scans_checkElements [] hits) ?_
    rw [passesFrom_iff_forall_mem fun _ _ => Iff.rfl]
    constructor
    · intro hmet v hv
      obtain ⟨x, rfl⟩ := Value.exists_number (hits v hv)
      exact ⟨x, rfl, hmet.2 items rfl x hv⟩
    · refine fun hall => ⟨nofun, ?_⟩
      rintro items ⟨⟩ x hx
      obtain ⟨y, ⟨⟩, hy⟩ := hall _ hx
      exact hy

theorem decides_checkLength (hint : args.int? = some bound)
    (hv : (∃ s, v = .string s) ∨ ∃ items, v = .array items) :
    (Demand.length side bound).Decides v (checkLength side args v) := by
  rw [checkLength, hint]
  rcases hv with ⟨s, rfl⟩ | ⟨items, rfl⟩
  all_goals
    refine Decides.of_ite ?_ rfl (Or.inr rfl)
    rw [not_isLengthBeyond_iff]
    simp [Met]

end Bounds

namespace Flags

theorem decides_checkNonEmpty (v : Value) : Demand.nonEmpty.Decides v (checkNonEmpty v) := by
  cases v with
  | string s => exact Decides.of_ite (by simp [Met]) rfl (Or.inr rfl)
  | array items =>
    cases items with
    | nil =>
      refine ⟨by simp [checkNonEmpty, Met], fun hf => ?_⟩
      cases hf
      exact ⟨rfl, nofun⟩
    | cons v items => exact ⟨by simp [checkNonEmpty, Met], nofun⟩
  | _ => exact ⟨by simp [checkNonEmpty, Met], nofun⟩

theorem scans_checkDistinct (earlier items : List Value) :
    distinct.Scans earlier items (checkDistinct earlier items) := by
  induction items generalizing earlier with
  | nil => exact .nil
  | cons v items ih =>
    rw [checkDistinct]
    cases hfst : earlier.findIdx? (·.same v) with
    | none => exact .pass (findIdx?_eq_none_iff.mp hfst) (ih _)
    | some first =>
      refine .fail (fun hpass => ?_) rfl rfl
      rw [findIdx?_eq_none_iff.mpr hpass] at hfst
      cases hfst

theorem decides_checkUnique (v : Value) : distinct.Decides v (checkUnique v) := by
  cases v with
  | array items =>
    refine Scans.decides (scans_checkDistinct [] items) ?_
    rw [passesFrom_distinct_iff]
    simp [Met]
  | _ => exact ⟨by simp [checkUnique, Met], nofun⟩

end Flags

namespace Allowed

variable {allowed : List Value}

/-- The values allowed are those that the argument writes, in their order. -/
theorem asked_of_candidates? {engine : Pattern.Engine} (h : candidates? args = some allowed) :
    Asked engine "allowed" args (.among allowed) := by
  unfold candidates? at h
  cases args with
  | value arg =>
    dsimp only [Arguments.positional?] at h
    split at h
    · next heq =>
      cases heq
      exact .allowed (Expr.writes_of_ofExprs? h)
    · next hsingle heq =>
      cases heq
      obtain ⟨v, hv, rfl⟩ := Option.map_eq_some_iff.mp h
      exact .oneAllowed (fun items span => hsingle items span) (Expr.writes_of_ofExpr? hv)
    · cases h
  | _ => cases h

theorem permits_iff : permits allowed v = true ↔ ∃ u ∈ allowed, u.same v = true := by
  rw [permits, any_eq_true]

theorem scans_checkElements (earlier items : List Value) :
    (among allowed).Scans earlier items (checkElements allowed earlier.length items) := by
  induction items generalizing earlier with
  | nil => exact .nil
  | cons v items ih =>
    have hscans := ih (earlier ++ [v])
    rw [length_append] at hscans
    rw [checkElements]
    split
    · next hpermits => exact .pass (permits_iff.mp hpermits) hscans
    · next hpermits => exact .fail (fun hpass => hpermits (permits_iff.mpr hpass)) rfl rfl

theorem decides_among (hcandidates : candidates? args = some allowed) (v : Value) :
    (among allowed).Decides v (checkValue args v) := by
  unfold checkValue
  rw [hcandidates, Option.getD_some]
  dsimp only
  split
  · next hv => exact ⟨by simp [Met, ← permits_iff, hv], nofun⟩
  · next hv =>
    cases v with
    | array items =>
      refine Scans.decides (scans_checkElements [] items) ?_
      rw [passesFrom_iff_forall_mem fun _ _ => Iff.rfl]
      simp [Met, ← permits_iff, hv]
    | _ =>
      refine ⟨by simp [Met, ← permits_iff, hv], fun hf => ?_⟩
      cases hf
      exact ⟨rfl, nofun⟩

end Allowed

namespace Validate

variable {engine : Pattern.Engine} {matcher : String → Bool} {label : String}

theorem say_of_source {args : List NamedArg} {text : String}
    (h : source (.named args) = .ok (text, label)) : NamedArg.Say args "regex" text ∨
      ∃ preset, NamedArg.Say args "preset" preset ∧ (preset, text) ∈ presets := by
  unfold source at h
  split at h
  · next regex hrx =>
    cases h
    exact Or.inl (NamedArg.say_of_namedString? hrx)
  · split at h
    · cases h
    · next preset hpreset =>
      split at h
      · next hfind =>
        cases h
        exact Or.inr ⟨preset, NamedArg.say_of_namedString? hpreset, Table.mem_of_find? hfind⟩
      · cases h

/-- The pattern demanded is the one that the argument names. -/
theorem asked_of_compile {d : Decoration} (hsh : checkShape engine d = .ok ())
    (h : compile engine d.args = .ok (matcher, label)) :
    Asked engine "validate" d.args (.matching matcher) := by
  obtain ⟨args, hargs, hstrings⟩ :=
    Spec.isSome_namedString? rfl (by decide) (ok_of_bind hsh).1
  rw [hargs] at h hstrings ⊢
  unfold compile at h
  cases hsrc : source (.named args) with
  | error problem =>
    rw [hsrc] at h
    cases h
  | ok found =>
    rw [hsrc] at h
    dsimp only [bind, Except.bind] at h
    split at h
    · cases h
    split at h
    · next hmatcher =>
      cases h
      simp only [flags, contains_eq_mem] at hmatcher
      refine .validate (say_of_source hsrc) ?_ hmatcher
      cases hflags : (Arguments.named args).namedString? "flags" with
      | some letters => exact Or.inl (NamedArg.say_of_namedString? hflags)
      | none =>
        refine Or.inr ⟨rfl, fun a ha hnm => ?_⟩
        have hsome := hstrings a ha
        rw [hnm, hflags] at hsome
        cases hsome
    · cases h

theorem fault_spec (args : Arguments) (label : String) (offender : Offender) :
    (fault args label offender).isKindMismatch = false ∧
    ∀ index w, offender = .element index w →
      (fault args label offender).index? = some index := by
  rw [fault]
  constructor
  · split <;> rfl
  · rintro index w rfl
    split <;> rfl

theorem hasMatch_iff : hasMatch matcher v = true ↔ ∃ s, v = .string s ∧ matcher s = true := by
  cases v with
  | string s => simp [hasMatch, Value.string?]
  | _ => simp [hasMatch, Value.string?]

theorem scans_checkElements (earlier items : List Value) : (matching matcher).Scans earlier items
    (checkElements args matcher label earlier.length items) := by
  induction items generalizing earlier with
  | nil => exact .nil
  | cons v items ih =>
    have hscans := ih (earlier ++ [v])
    rw [length_append] at hscans
    rw [checkElements]
    split
    · next hmatch => exact .pass (hasMatch_iff.mp hmatch) hscans
    · next hmatch =>
      obtain ⟨hkind, hidx⟩ := fault_spec args label (.element earlier.length v)
      exact .fail (fun hpass => hmatch (hasMatch_iff.mpr hpass)) (hidx _ _ rfl) hkind

theorem decides_matching (hcompile : compile engine args = .ok (matcher, label))
    (hv : v.scalar? = some .string ∨
      ∃ items, v = .array items ∧ ∀ w ∈ items, w.scalar? = some .string) :
    (matching matcher).Decides v (checkValue engine args v) := by
  rw [checkValue, hcompile]
  rcases hv with hscalar | ⟨items, rfl, -⟩
  · obtain ⟨s, rfl⟩ := Value.exists_string hscalar
    dsimp only
    rw [← ite_not]
    exact Decides.of_ite (by simp [Met]) (fault_spec _ _ _).1 (Or.inl fun _ => Value.noConfusion)
  · refine Scans.decides (scans_checkElements [] items) ?_
    rw [passesFrom_iff_forall_mem fun _ _ => Iff.rfl]
    simp [Met]

end Validate

/-- **Checks of values.** A decorator of the language whose check waits for a value asks something
of the value, as it is written between its parentheses. Let a decoration have passed the check of
its shape and the check of the type of its declaration, and let a value be of that type. Then the
check passes exactly if the value is as asked. Else the fault is not that the value or an element of
it is of the wrong kind, and in an array whose elements are looked at it is that of the first
element that is not as asked. -/
theorem decides_checkValue {engine : Pattern.Engine} {d : Decorator} (hd : d ∈ builtins engine)
    (hdef : d.spec.deferred = true) {a : Decoration} (hsh : d.checkShape a = .ok ())
    {site : Site} {type : Ty} (hty : d.checkType a site type = .ok ()) {v : Value}
    (hv : v.conforms type = true) :
    ∃ demand, Asked engine d.name a.args demand ∧ demand.Decides v (d.checkValue a.args v) := by
  -- The check of the type tells what kinds of values can come.
  have hadmits : ∀ (spec : Spec) {c c'}, spec.checkType a site type = .ok () →
      spec.restriction = .oneOf [c, c'] →
        ∀ u ∈ type.leaves, c.admits u = true ∨ c'.admits u = true := by
    intro spec c c' hspec hrestriction
    rw [Spec.checkType, hrestriction] at hspec
    dsimp only at hspec
    split at hspec
    · next hall => simpa [Restriction.admits] using hall
    · cases hspec
  -- The four bounds differ by their name and side alone.
  have hval : ∀ name side, d = Bounds.valueBound name side → ∃ arg n, a.args = .value arg ∧
      arg.Says (.int n) ∧ (Demand.number side n).Decides v (d.checkValue a.args v) := by
    rintro name side rfl
    obtain ⟨arg, n, harg, hsays, hn, -⟩ := Bounds.exists_int_of_checkRange rfl hsh
    exact ⟨arg, n, harg, hsays, Bounds.decides_checkNumbers hn
      (Value.plain_or_array nofun hv (hadmits (Bounds.valueSpec name) hty rfl))⟩
  have hlen : ∀ name side, d = Bounds.lengthBound name side → ∃ arg n, a.args = .value arg ∧
      arg.Says (.int n) ∧ (Demand.length side n).Decides v (d.checkValue a.args v) := by
    rintro name side rfl
    obtain ⟨arg, n, harg, hsays, hn, -⟩ := Bounds.exists_int_of_checkRange rfl hsh
    exact ⟨arg, n, harg, hsays, Bounds.decides_checkLength hn
      (Value.string_or_array hv (hadmits (Bounds.lengthSpec name) hty rfl))⟩
  simp only [builtins, List.mem_cons, List.not_mem_nil, or_false] at hd
  rcases hd with rfl | rfl | rfl | rfl | rfl | rfl | rfl | rfl | rfl | rfl | rfl | rfl | rfl | rfl |
    rfl
  · obtain ⟨vs, hvs, -⟩ := Allowed.exists_candidates_of_checkShape hsh
    exact ⟨.among vs, Allowed.asked_of_candidates? hvs, Allowed.decides_among hvs v⟩
  · obtain ⟨arg, n, harg, hsays, hdecides⟩ := hval _ _ rfl
    exact ⟨_, harg ▸ .minValue hsays, hdecides⟩
  · obtain ⟨arg, n, harg, hsays, hdecides⟩ := hval _ _ rfl
    exact ⟨_, harg ▸ .maxValue hsays, hdecides⟩
  · obtain ⟨arg, n, harg, hsays, hdecides⟩ := hlen _ _ rfl
    exact ⟨_, harg ▸ .minLength hsays, hdecides⟩
  · obtain ⟨arg, n, harg, hsays, hdecides⟩ := hlen _ _ rfl
    exact ⟨_, harg ▸ .maxLength hsays, hdecides⟩
  · exact ⟨.nonEmpty, .nonEmpty, Flags.decides_checkNonEmpty v⟩
  · exact ⟨.distinct, .unique, Flags.decides_checkUnique v⟩
  · cases hdef
  · cases hdef
  · cases hdef
  · cases hdef
  · obtain ⟨-, ⟨matcher, label⟩, hcompile⟩ := Validate.exists_compile_of_checkShape hsh
    exact ⟨.matching matcher, Validate.asked_of_compile hsh hcompile,
      Validate.decides_matching hcompile
        (Value.plain_or_array nofun hv (hadmits Validate.spec hty rfl))⟩
  · cases hdef
  · cases hdef
  · cases hdef

/-- `@minValue(-(-5))`. -/
def fromFive : Decoration :=
  ⟨⟨"minValue", default⟩, .value (.unary .neg (.paren (.unary .neg (.lit (.int 5) default) default)
    default) default), default⟩

/-- A list of numbers whose second element is below five. -/
def sevenAndThree : Value := .array [.number (.ofInt 7), .number (.ofInt 3), .number (.ofInt 2)]

theorem decides_checkValue_sevenAndThree : ∃ demand fault,
    Asked .standard "minValue" fromFive.args demand ∧
    minValue.checkValue fromFive.args sevenAndThree = .error fault ∧
    ¬ demand.Met sevenAndThree ∧ fault.isKindMismatch = false ∧ fault.index? = some 1 := by
  have hrun : minValue.checkValue fromFive.args sevenAndThree =
      .error (.outOfBounds (.element 1 (.number (.ofInt 3))) .min 5) := by
    have hint : fromFive.args.int? = some 5 := rfl
    have hseven : Bounds.isBeyond .min (.ofInt 7) (.ofInt 5) = false := by decide +kernel
    have hthree : Bounds.isBeyond .min (.ofInt 3) (.ofInt 5) = true := by decide +kernel
    have hchk : minValue.checkValue = Bounds.checkNumbers .min := rfl
    rw [hchk, Bounds.checkNumbers, hint]
    simp [sevenAndThree, Bounds.checkElements, hseven, hthree]
  obtain ⟨demand, hasked, hdecides⟩ := @decides_checkValue .standard minValue (by simp [builtins])
    rfl fromFive (by rfl) ⟨.input, "x", false⟩ (.union [.number, .array .number])
    (if_pos (by decide +kernel)) sevenAndThree (by decide +kernel)
  refine ⟨demand, _, hasked, hrun, fun hmet => ?_, (hdecides.fault hrun).1, rfl⟩
  rw [hdecides.ok_iff.mpr hmet] at hrun
  cases hrun

end Decorator

end Provision
