import Provision.Decorator.Builtin
import Provision.Proofs.Table
import Provision.Session.Checking

/-!
# Reading the arguments of decorators

The arguments of a decorator are looked at twice: when the shapes of decorations are checked, and
again when the decorator does its work. The second look never finds less than the first
(`Decoration.arguments_readable`): integers are there as they are written and within their range,
lists of permitted values are not empty, patterns compile, import references are of a known kind,
labels are there and not blank, and references have one or two names. So no decorator that passed
the check of shapes is without effect because its arguments could not be read.

The link between the two is that a literal string is the same for both readers
(`Expr.literal?_eq_str_iff`), parentheses and minus signs considered. So the tags and the providers
of a list of decorations are the labels of its arguments, each once
(`Decorator.Labels.tags_and_providers_eq`).
-/

namespace Provision

open List Table Session

variable {forms : List ArgForm} {params : List NamedParam}

/-! ### Literals -/

namespace Expr

variable {e : Expr}

/-- The literal that an expression says. Minus signs before a number count, parentheses do not. -/
inductive Says : Expr → Lit → Prop
  | lit {l : Lit} {span : Span} : Says (.lit l span) l
  | paren {e : Expr} {l : Lit} {span : Span} (h : Says e l) : Says (.paren e span) l
  | negInt {e : Expr} {n : Int} {span : Span} (h : Says e (.int n)) :
      Says (.unary .neg e span) (.int (-n))
  | negFloat {e : Expr} {x : Number} {span : Span} (h : Says e (.float x)) :
      Says (.unary .neg e span) (.float x.neg)

theorem says_of_literal? {l : Lit} (h : e.literal? = some l) : e.Says l := by
  fun_induction literal? e generalizing l with
  | case1 value span =>
    cases h
    exact .lit
  | case2 inner span ih => exact .paren (ih h)
  | case3 operand span n hn ih =>
    cases h
    exact .negInt (ih hn)
  | case4 operand span x hx ih =>
    cases h
    exact .negFloat (ih hx)
  | case5 | case6 => cases h

/-- A minus sign never makes a string, so the two readers of strings agree. -/
theorem literal?_eq_str_iff {s : String} : e.literal? = some (.str s) ↔ e.string? = some s := by
  fun_induction literal? e with
  | case1 value span =>
    cases value with
    | str t => simp [string?]
    | _ => simp [string?]
  | case2 inner span ih => rw [string?, ih]
  | case3 | case4 | case5 | case6 => simp_all [string?]

theorem isLiteral_iff {kinds : List LitKind} :
    e.isLiteral kinds = true ↔ ∃ l, e.literal? = some l ∧ ∃ kind ∈ kinds, kind.holds l = true := by
  rw [isLiteral, Option.any_eq_true]
  simp only [any_eq_true]

theorem exists_string_of_isLiteral (h : e.isLiteral [.string] = true) :
    ∃ s, e.string? = some s := by
  obtain ⟨l, hl, kind, hkind, hholds⟩ := isLiteral_iff.mp h
  obtain rfl := mem_singleton.mp hkind
  cases l with
  | str s => exact ⟨s, literal?_eq_str_iff.mp hl⟩
  | _ => cases hholds

theorem exists_int_of_isLiteral (h : e.isLiteral [.integer] = true) :
    ∃ n, e.literal? = some (.int n) := by
  obtain ⟨l, hl, kind, hkind, hholds⟩ := isLiteral_iff.mp h
  obtain rfl := mem_singleton.mp hkind
  cases l with
  | int n => exact ⟨n, hl⟩
  | _ => cases hholds

theorem path?_ne_nil {path : List Ident} (h : e.path? = some path) : path ≠ [] := by
  fun_induction path? e generalizing path with
  | case1 name =>
    cases h
    exact cons_ne_nil _ _
  | case2 base field span ih =>
    obtain ⟨before, -, rfl⟩ := Option.map_eq_some_iff.mp h
    exact concat_ne_nil _ _
  | case3 inner span ih => exact ih h
  | case4 => cases h

end Expr

namespace Spec

variable {spec : Spec} {d : Decoration}

theorem exists_value_of_checkShape (hsh : spec.shape = .forms forms)
    (h : spec.checkShape d = .ok ()) :
    ∃ arg, d.args = .value arg ∧ ∃ form ∈ forms, form.holds arg = true := by
  unfold checkShape at h
  rw [hsh] at h
  cases hargs : d.args with
  | value arg =>
    rw [hargs] at h
    dsimp only at h
    split at h
    · next hany => exact ⟨arg, rfl, any_eq_true.mp hany⟩
    · cases h
  | _ =>
    rw [hargs] at h
    cases h

theorem isLiteral_of_checkNamed {decorator : String} {seen names : List String}
    {args : List NamedArg} (h : checkNamed decorator params seen args = .ok names) :
    ∀ a ∈ args, ∃ param ∈ params, a.value.isLiteral param.kinds = true := by
  fun_induction checkNamed decorator params seen args with
  | case1 => simp
  | case2 | case3 | case5 => cases h
  | case4 seen arg rest key param hparam hseen hlit ih =>
    intro a ha
    rcases mem_cons.mp ha with rfl | ha
    · exact ⟨param, mem_of_find?_eq_some hparam, hlit⟩
    · exact ih h a ha

theorem exists_named_of_checkShape (hsh : spec.shape = .named params)
    (h : spec.checkShape d = .ok ()) :
    ∃ args, d.args = .named args ∧
      ∀ a ∈ args, ∃ param ∈ params, a.value.isLiteral param.kinds = true := by
  unfold checkShape at h
  rw [hsh] at h
  cases hargs : d.args with
  | named args =>
    rw [hargs] at h
    dsimp only at h
    cases hnamed : checkNamed spec.name params [] args with
    | error f =>
      rw [hnamed] at h
      cases h
    | ok names => exact ⟨args, rfl, isLiteral_of_checkNamed hnamed⟩
  | _ =>
    rw [hargs] at h
    cases h

theorem isSome_namedString? (hsh : spec.shape = .named params)
    (hkinds : ∀ param ∈ params, param.kinds = [.string]) (h : spec.checkShape d = .ok ()) :
    ∃ args, d.args = .named args ∧ ∀ a ∈ args, (d.args.namedString? a.name.text).isSome := by
  obtain ⟨args, hargs, hliterals⟩ := exists_named_of_checkShape hsh h
  refine ⟨args, hargs, fun a ha => ?_⟩
  rw [hargs, Arguments.namedString?]
  -- what is read is the first argument of that name
  obtain ⟨b, hb⟩ : ∃ b, args.find? (·.name.text == a.name.text) = some b :=
    Option.isSome_iff_exists.mp (find?_isSome.mpr ⟨a, ha, beq_self_eq_true _⟩)
  obtain ⟨param, hparam, hlit⟩ := hliterals b (mem_of_find?_eq_some hb)
  rw [hkinds param hparam] at hlit
  obtain ⟨s, hs⟩ := Expr.exists_string_of_isLiteral hlit
  rw [hb, Option.bind_some, hs]
  rfl

end Spec

theorem ok_of_bind {check rest : Except Diagnostic Unit} (h : (do check; rest) = .ok ()) :
    check = .ok () ∧ rest = .ok () := by
  cases check with
  | error f => cases h
  | ok _ => exact ⟨rfl, h⟩

namespace Decorator

variable {d : Decoration}

/-! ### Integers -/

namespace Bounds

theorem exists_int_of_checkRange {spec : Spec} {limit : Int} (hsh : spec.shape = integer)
    (h : checkRange spec limit d = .ok ()) : ∃ arg n, d.args = .value arg ∧ arg.Says (.int n) ∧
      d.args.int? = some n ∧ 0 ≤ n ∧ n < limit := by
  obtain ⟨hspec, hrange⟩ := ok_of_bind h
  obtain ⟨arg, hargs, form, hform, hholds⟩ := Spec.exists_value_of_checkShape hsh hspec
  obtain rfl := mem_singleton.mp hform
  obtain ⟨n, hn⟩ := Expr.exists_int_of_isLiteral hholds
  have hint : d.args.int? = some n := by
    rw [hargs]
    simp [Arguments.int?, Arguments.positional?, hn]
  rw [hint] at hrange
  dsimp only at hrange
  split at hrange
  · next hwithin => exact ⟨arg, n, hargs, Expr.says_of_literal? hn, hint, hwithin⟩
  · cases hrange

end Bounds

theorem getLast?_filterMap_countOf? (ds : List Decoration) :
    (ds.filterMap countOf?).getLast? =
      (ds.filter (·.name.text = Bounds.countSpec.name)).getLast?.bind countOf? := by
  induction ds using reverseRecOn with
  | nil => rfl
  | append_singleton ds e ih =>
    rw [filterMap_append, filter_append]
    by_cases he : e.name.text = Bounds.countSpec.name
    · have hcnt : ∃ count, countOf? e = some count := ⟨_, if_pos he⟩
      obtain ⟨count, hcnt⟩ := hcnt
      simp [hcnt, he]
    · have hnone : countOf? e = none := if_neg he
      simpa [hnone, he] using ih

/-- The last count of a list is the one that is recorded. -/
theorem count_recordDecorations {ds : List Decoration}
    (hlast : (ds.filter (·.name.text = Bounds.countSpec.name)).getLast? = some d) {n : Int}
    (hint : d.args.int? = some n) (hnonneg : 0 ≤ n) (hlt : n < Bounds.countLimit) {s : Session}
    {x : String} {i : InstanceInfo} (hi : find? s.instances x = some i) :
    ∃ i', find? ((recordDecorations x ds).run s).2.instances x = some i' ∧
      i'.count = some n.toNat := by
  have hnm : d.name.text = Bounds.countSpec.name :=
    of_decide_eq_true (mem_filter.mp (mem_of_getLast? hlast)).2
  have hfits : n.toNat < Nat.pow 2 32 := by
    have hlim : n < 1000 := hlt
    have hpow : Nat.pow 2 32 = 4294967296 := rfl
    omega
  have hcnt : countOf? d = some (some n.toNat) := by
    refine (if_pos hnm).trans ?_
    rw [hint, Option.bind_some, if_pos ⟨hnonneg, hfits⟩]
  have hcounts := getLast?_filterMap_countOf? ds
  rw [hlast, Option.bind_some, hcnt] at hcounts
  have hfind : ∀ f : InstanceInfo → InstanceInfo,
      find? ((modifyInstance x f).run s).2.instances x = some (f i) := fun f =>
    find?_modify.trans ((if_pos rfl).trans (congrArg (Option.map f) hi))
  exact ⟨_, hfind _, by rw [hcounts, Option.getD_some]⟩

/-! ### Permitted values -/

namespace Allowed

theorem exists_candidates_of_checkShape (h : checkShape d = .ok ()) :
    ∃ vs, candidates? d.args = some vs ∧ vs ≠ [] := by
  unfold checkShape at h
  split at h
  · next hnone =>
    obtain ⟨arg, hargs, -⟩ := Spec.exists_value_of_checkShape rfl h
    rw [hargs] at hnone
    cases hnone
  · cases h
  · next arg hnonempty hsome =>
    cases hvs : candidates? d.args with
    | none =>
      rw [hvs] at h
      cases h
    | some vs =>
      refine ⟨vs, rfl, ?_⟩
      rintro rfl
      -- only an empty array has no candidates, and that is a finding
      rw [candidates?, hsome] at hvs
      split at hvs
      · next items span heq =>
        cases heq
        cases items with
        | nil => exact hnonempty span rfl
        | cons e es =>
          obtain ⟨v, -, hv⟩ := Option.bind_eq_some_iff.mp hvs
          obtain ⟨vs, -, hcons⟩ := Option.bind_eq_some_iff.mp hv
          cases hcons
      · next heq =>
        obtain ⟨v, -, hv⟩ := Option.map_eq_some_iff.mp hvs
        cases hv
      · cases hvs

end Allowed

/-! ### Patterns -/

namespace Validate

variable {engine : Pattern.Engine}

theorem exists_compile_of_checkShape (h : checkShape engine d = .ok ()) :
    ((d.args.namedString? "regex").isSome ↔ (d.args.namedString? "preset").isNone) ∧
      ∃ compiled, compile engine d.args = .ok compiled := by
  obtain ⟨-, hrest⟩ := ok_of_bind h
  split at hrest
  · cases hrest
  · next hboth =>
    cases hcompile : compile engine d.args with
    | error problem =>
      rw [hcompile] at hrest
      cases hrest
    | ok compiled =>
      refine ⟨?_, compiled, rfl⟩
      -- a pattern comes from one of the two, and both at once are a finding
      cases hrx : d.args.namedString? "regex" with
      | some regex =>
        cases hpreset : d.args.namedString? "preset" with
        | some preset => simp [hrx, hpreset] at hboth
        | none => simp
      | none =>
        cases hpreset : d.args.namedString? "preset" with
        | some preset => simp
        | none =>
          rw [compile, source, hrx, hpreset] at hcompile
          cases hcompile

theorem checkValue_ne_badPattern {args : Arguments} {compiled : (String → Bool) × String}
    (h : compile engine args = .ok compiled) (v : Value) (problem : PatternProblem) :
    checkValue engine args v ≠ .error (.badPattern problem) := by
  have hfault : ∀ label offender, fault args label offender ≠ .badPattern problem := by
    intro label offender
    unfold fault
    split <;> nofun
  have helts : ∀ index vs, checkElements args compiled.1 compiled.2 index vs ≠
      .error (.badPattern problem) := by
    intro index vs
    induction vs generalizing index with
    | nil => nofun
    | cons v vs ih =>
      rw [checkElements]
      split
      · exact ih (index + 1)
      · exact fun heq => hfault _ _ (Except.error.inj heq)
  rw [checkValue, h]
  cases v with
  | string s =>
    dsimp only
    split
    · nofun
    · exact fun heq => hfault _ _ (Except.error.inj heq)
  | array items => exact helts 0 items
  | _ => nofun

end Validate

/-! ### Imports -/

namespace Existing

theorem exists_reference_of_checkShape (h : checkShape d = .ok ()) :
    ∃ arg reference kind, d.args = .value arg ∧ arg.Says (.str reference) ∧
      d.args.positional?.bind Expr.string? = some reference ∧
      ImportRef.classify? reference = some kind := by
  obtain ⟨hspec, hrest⟩ := ok_of_bind h
  obtain ⟨arg, hargs, form, hform, hholds⟩ := Spec.exists_value_of_checkShape rfl hspec
  obtain rfl := mem_singleton.mp hform
  obtain ⟨reference, href⟩ := Expr.exists_string_of_isLiteral hholds
  have hread : d.args.positional?.bind Expr.string? = some reference := by
    rw [hargs]
    exact href
  rw [hread] at hrest
  dsimp only at hrest
  split at hrest
  · cases hrest
  · cases hkind : ImportRef.classify? reference with
    | some kind => exact ⟨arg, reference, kind, hargs,
      Expr.says_of_literal? (Expr.literal?_eq_str_iff.mpr href), hread, hkind⟩
    | none =>
      rw [hkind] at hrest
      cases hrest

end Existing

/-! ### References -/

namespace DependsOn

/-- What passes is a list of references of one name or two. -/
theorem elements_of_checkShape (h : checkShape d = .ok ()) :
    ∃ arg, d.args.positional? = some arg ∧ elements arg ≠ [] ∧
      ∀ e ∈ elements arg, ∃ path, e.path? = some path ∧ path.length ≤ 2 := by
  obtain ⟨hspec, hrest⟩ := ok_of_bind h
  obtain ⟨arg, hargs, form, hform, hholds⟩ := Spec.exists_value_of_checkShape rfl hspec
  have hpositional : d.args.positional? = some arg := by rw [hargs, Arguments.positional?]
  have hpaths : ∀ e ∈ elements arg, e.path?.isSome := by
    rcases mem_cons.mp hform with rfl | hform
    · -- an array is no path, so a single reference is its own element
      cases arg with
      | array items span => cases hholds
      | _ =>
        intro e he
        obtain rfl := mem_singleton.mp he
        exact hholds
    · obtain rfl := mem_singleton.mp hform
      cases arg with
      | array items span => exact all_eq_true.mp hholds
      | _ => cases hholds
  rw [hpositional] at hrest
  dsimp only at hrest
  split at hrest
  · cases hrest
  · next hnonempty =>
    refine ⟨arg, hpositional, fun hnil => hnonempty (isEmpty_iff.mpr hnil), fun e he => ?_⟩
    cases hlong : (elements arg).find? isLong with
    | some r =>
      rw [hlong] at hrest
      cases hrest
    | none =>
      obtain ⟨path, hpath⟩ := Option.isSome_iff_exists.mp (hpaths e he)
      have hshort := find?_eq_none.mp hlong e he
      rw [isLong, hpath, Option.any_some, decide_eq_true_eq] at hshort
      exact ⟨path, hpath, Nat.le_of_not_lt hshort⟩

theorem forall₂_filterMap_reference? {es : List Expr} (h : ∀ e ∈ es, e.path?.isSome) :
    Forall₂ (fun e r => reference? e = some r) es (es.filterMap reference?) := by
  induction es with
  | nil => exact .nil
  | cons e es ih =>
    obtain ⟨path, hpath⟩ := Option.isSome_iff_exists.mp (h e mem_cons_self)
    have href : reference? e = some ⟨path, e.span⟩ := by
      rw [reference?, hpath, Option.map_some]
    rw [filterMap_cons_some href]
    exact .cons href (ih fun e' he' => h e' (mem_cons_of_mem e he'))

theorem checkTarget_of_positional? {arg : Expr} (harg : d.args.positional? = some arg)
    {site : Site} (htgt : site.target ∈ spec.targets) (hdefinition : site.definition = false) :
    checkTarget d site = .ok ((elements arg).filterMap reference?) := by
  have hspec : spec.checkTarget d site = .ok () := by
    rw [Spec.checkTarget, if_neg, if_neg]
    · rw [hdefinition, Bool.and_false]
      exact Bool.false_ne_true
    · rw [contains_iff_mem.mpr htgt]
      exact Bool.false_ne_true
  rw [checkTarget, hspec, harg]
  rfl

theorem splitReference_of_length {path : List Ident} {span : Span} (hne : path ≠ [])
    (hlen : path.length ≤ 2) :
    (path.length = 1 ∨ path.length = 2) ∧
      ∃ parts, splitReference ⟨path, span⟩ = .ok parts := by
  rcases path with _ | ⟨a, _ | ⟨b, _ | ⟨c, rest⟩⟩⟩
  · exact absurd rfl hne
  · exact ⟨Or.inl rfl, _, rfl⟩
  · exact ⟨Or.inr rfl, _, rfl⟩
  · simp at hlen

end DependsOn

/-! ### Labels -/

namespace Labels

variable {arg : Expr} {ds : List Decoration} {key : String}

/-- What an argument mentions: labels, which have no value, or the keys of an object with their
values. -/
def mentions : Expr → List (String × Option String)
  | .array items _ => items.filterMap fun e => e.string?.map (·, none)
  | .object fields _ => fields.map fun f => (f.key.text, f.value.string?)
  | arg => arg.string?.toList.map (·, none)

/-- What the decorations of a name mention, in the order of the source. -/
def mentioned (name : String) (ds : List Decoration) : List (String × Option String) :=
  (ds.filter (·.name.text = name)).flatMap fun d => d.args.positional?.toList.flatMap mentions

/-- The values that are mentioned for a key. -/
def valuesOf (ms : List (String × Option String)) (key : String) : List String :=
  ms.filterMap fun m => if m.1 = key then m.2 else none

/-- Each key once, where it is first mentioned, with the last of its values. -/
def gathered (ms : List (String × Option String)) : Table (Option String) :=
  (ms.map (·.1)).eraseDups.map fun key => (key, (valuesOf ms key).getLast?)

/-- Takes in one mention more. -/
def add (tags : Table (Option String)) : String × Option String → Table (Option String)
  | (key, some v) => tags.insert key (some v)
  | (key, none) => addLabel tags key

theorem eraseDups_concat (l : List String) (x : String) :
    (l ++ [x]).eraseDups = if x ∈ l then l.eraseDups else l.eraseDups ++ [x] := by
  rw [eraseDups_append]
  split
  · next hx => simp [removeAll, hx]
  · next hx => simp [removeAll, hx, eraseDups_cons]

theorem nodup_eraseDups (l : List String) : l.eraseDups.Nodup := by
  induction l using reverseRecOn with
  | nil => exact nodup_nil
  | append_singleton l x ih =>
    rw [eraseDups_concat]
    split
    · exact ih
    · next hx =>
      rw [← concat_eq_append]
      exact ih.concat (mt mem_eraseDups.mp hx)

theorem foldl_addOnce_eq (l : List String) : l.foldl addOnce [] = l.eraseDups := by
  induction l using reverseRecOn with
  | nil => rfl
  | append_singleton l x ih =>
    rw [foldl_append, ih, eraseDups_concat]
    simp [addOnce]

theorem insert_map_mk {l : List String} (hl : l.Nodup) (g : String → Option String)
    (e : Option String) : Table.insert (l.map fun k => (k, g k)) key e =
      (if key ∈ l then l else l ++ [key]).map fun k => (k, if k = key then e else g k) := by
  induction l with
  | nil => simp [Table.insert]
  | cons k l ih =>
    obtain ⟨hk, hl⟩ := nodup_cons.mp hl
    rw [map_cons, Table.insert]
    split
    · next heq =>
      subst heq
      have hrest : ∀ x ∈ l, (x, g x) = (x, if x = k then e else g x) := fun x hx => by
        rw [if_neg (ne_of_mem_of_not_mem hx hk)]
      rw [if_pos mem_cons_self, map_cons, if_pos rfl, map_congr_left hrest]
    · next hne =>
      have hkeys : (if key ∈ k :: l then k :: l else k :: l ++ [key]) =
          k :: if key ∈ l then l else l ++ [key] := by
        simp only [mem_cons, Ne.symm hne, false_or, cons_append]
        split <;> rfl
      rw [ih hl, hkeys, map_cons, if_neg hne]

variable (ms : List (String × Option String))

theorem valuesOf_concat (m : String × Option String) : valuesOf (ms ++ [m]) key =
    valuesOf ms key ++ (if m.1 = key then m.2 else none).toList := by
  rw [valuesOf, filterMap_append, ← valuesOf, filterMap_cons]
  split
  · next hnone => rw [hnone]; rfl
  · next v hv => rw [hv]; rfl

theorem names_gathered : (gathered ms).names = (ms.map (·.1)).eraseDups := by
  rw [gathered, names, map_map]
  exact map_id _

theorem contains_gathered : (gathered ms).contains key = true ↔ key ∈ ms.map (·.1) := by
  rw [Table.contains, ← mem_names_iff, names_gathered, mem_eraseDups]

theorem valuesOf_eq_nil (h : key ∉ ms.map (·.1)) : valuesOf ms key = [] := by
  refine filterMap_eq_nil_iff.mpr fun m hm => if_neg ?_
  rintro rfl
  exact h (mem_map_of_mem hm)

theorem gathered_label : gathered (ms ++ [(key, none)]) = addLabel (gathered ms) key := by
  have hvals : ∀ k, valuesOf (ms ++ [(key, none)]) k = valuesOf ms k := fun k => by
    rw [valuesOf_concat, ite_self, Option.toList_none, append_nil]
  rw [gathered, map_append, map_singleton, eraseDups_concat, addLabel]
  simp only [hvals, contains_gathered]
  split
  · rfl
  · next hkey =>
    rw [insert_of_find?_eq_none, gathered, map_append, map_singleton, valuesOf_eq_nil ms hkey]
    · rfl
    · rw [find?_eq_none_iff, names_gathered, mem_eraseDups]
      exact hkey

theorem gathered_entry (v : String) :
    gathered (ms ++ [(key, some v)]) = (gathered ms).insert key (some v) := by
  have hlast : ∀ k, (valuesOf (ms ++ [(key, some v)]) k).getLast? =
      if k = key then some v else (valuesOf ms k).getLast? := fun k => by
    rw [valuesOf_concat]
    split
    · next heq => rw [if_pos heq.symm, Option.toList_some, getLast?_concat]
    · next hne => rw [if_neg (Ne.symm hne), Option.toList_none, append_nil]
  rw [gathered, gathered, map_append, map_singleton, eraseDups_concat,
    insert_map_mk (nodup_eraseDups _)]
  simp only [hlast, mem_eraseDups]

theorem gathered_concat (m : String × Option String) :
    gathered (ms ++ [m]) = add (gathered ms) m := by
  obtain ⟨key, _ | v⟩ := m
  · exact gathered_label ms
  · exact gathered_entry ms v

theorem foldl_add_eq : ms.foldl add [] = gathered ms := by
  induction ms using reverseRecOn with
  | nil => rfl
  | append_singleton ms m ih => rw [foldl_append, ih, gathered_concat]; rfl

/-- The forms of arguments that have labels. -/
inductive Labelled : Expr → Prop
  | label {e : Expr} {s : String} (h : e.string? = some s) : Labelled e
  | labels {items : List Expr} {span : Span} (h : ∀ e ∈ items, ∃ s, e.string? = some s) :
      Labelled (.array items span)
  | entries {fields : List ObjectField} {span : Span}
      (h : ∀ f ∈ fields, ∃ v, f.value.string? = some v) : Labelled (.object fields span)

theorem cases_of_string? {e : Expr} {s : String} (h : e.string? = some s) :
    (∃ span, e = .lit (.str s) span) ∨ ∃ inner span, e = .paren inner span := by
  cases e with
  | lit value span =>
    cases value with
    | str t => exact Or.inl ⟨span, by rw [← Option.some.inj h]⟩
    | _ => cases h
  | paren inner span => exact Or.inr ⟨inner, span, rfl⟩
  | _ => cases h

theorem strings_of_string? {e : Expr} {s : String} (h : e.string? = some s) : strings e = [s] := by
  obtain ⟨span, rfl⟩ | ⟨inner, span, rfl⟩ := cases_of_string? h
  · rfl
  · rw [Expr.string?] at h
    rw [strings, h, Option.toList_some]

theorem mentions_of_string? {e : Expr} {s : String} (h : e.string? = some s) :
    mentions e = [(s, none)] := by
  obtain ⟨span, rfl⟩ | ⟨inner, span, rfl⟩ := cases_of_string? h
  · rfl
  · rw [mentions, h]
    · rfl
    · nofun
    · nofun

theorem stringsOf_eq {items : List Expr} (h : ∀ e ∈ items, ∃ s, e.string? = some s) :
    stringsOf items = items.filterMap Expr.string? := by
  induction items with
  | nil => rfl
  | cons e items ih =>
    obtain ⟨he, hits⟩ := forall_mem_cons.mp h
    obtain ⟨s, hs⟩ := he
    rw [stringsOf, strings_of_string? hs, ih hits, filterMap_cons_some hs]
    rfl

theorem fieldStrings_eq (fields : List ObjectField) :
    fieldStrings fields = fields.flatMap fun f => f.key.text :: strings f.value := by
  induction fields with
  | nil => rfl
  | cons f fields ih =>
    obtain ⟨key, value, span⟩ := f
    rw [fieldStrings, ih, flatMap_cons]
    rfl

theorem foldl_addLabel_eq (labels : List String) (tags : Table (Option String)) :
    (labels.map (·, none)).foldl add tags = labels.foldl addLabel tags := by
  rw [foldl_map]
  rfl

theorem Labelled.addTags_eq (h : Labelled arg) (tags : Table (Option String)) :
    addTags tags arg = (mentions arg).foldl add tags := by
  cases h with
  | label hs =>
    have hlbs : addTags tags arg = (strings arg).foldl addLabel tags := by
      obtain ⟨span, rfl⟩ | ⟨inner, span, rfl⟩ := cases_of_string? hs <;> rfl
    rw [hlbs, strings_of_string? hs, mentions_of_string? hs]
    rfl
  | @labels items span hits =>
    have hlbs : addTags tags (.array items span) = (stringsOf items).foldl addLabel tags := by
      rw [← strings]
      rfl
    rw [hlbs, stringsOf_eq hits, ← foldl_addLabel_eq, map_filterMap]
    rfl
  | @entries fields span hflds =>
    rw [mentions, addTags, foldl_map]
    refine foldl_ext _ _ _ fun t f hf => ?_
    obtain ⟨v, hv⟩ := hflds f hf
    rw [addEntry, hv, add]

theorem Labelled.strings_eq (h : Labelled arg) :
    strings arg = (mentions arg).flatMap fun m => m.1 :: m.2.toList := by
  cases h with
  | label hs =>
    rw [strings_of_string? hs, mentions_of_string? hs]
    rfl
  | labels hits =>
    rw [strings, stringsOf_eq hits, mentions, ← map_filterMap, flatMap_map]
    exact (flatMap_singleton' _).symm
  | entries hflds =>
    rw [strings, fieldStrings_eq, mentions, flatMap_map]
    refine flatMap_congr fun f hf => ?_
    obtain ⟨v, hv⟩ := hflds f hf
    rw [strings_of_string? hv, hv, Option.toList_some]

/-- An argument with labels, none of them blank, in one of the forms. -/
structure Legible (forms : List ArgForm) (arg : Expr) : Prop where
  ne_nil : strings arg ≠ []
  not_blank : ∀ s ∈ strings arg, Text.isBlankText s = false
  labelled : Labelled arg
  form : ∃ form ∈ forms, form.holds arg = true

theorem labelled_of_holds {form : ArgForm}
    (hform : form ∈ [.literal [.string], .literals [.string], .stringMap])
    (h : form.holds arg = true) : Labelled arg := by
  simp only [mem_cons, not_mem_nil, or_false] at hform
  rcases hform with rfl | rfl | rfl
  · obtain ⟨s, hs⟩ := Expr.exists_string_of_isLiteral h
    exact .label hs
  · cases arg with
    | array items span =>
      exact .labels fun e he => Expr.exists_string_of_isLiteral (all_eq_true.mp h e he)
    | _ => cases h
  · cases arg with
    | object fields span =>
      exact .entries fun f hf => Expr.exists_string_of_isLiteral (all_eq_true.mp h f hf)
    | _ => cases h

/-- An array and an object that are not hollow have a first string. -/
theorem Labelled.strings_ne_nil (h : Labelled arg) (hhollow : isHollow arg = false) :
    strings arg ≠ [] := by
  cases h with
  | label hs =>
    rw [strings_of_string? hs]
    exact cons_ne_nil _ _
  | @labels items span hits =>
    cases items with
    | nil => cases hhollow
    | cons e items =>
      obtain ⟨s, hs⟩ := hits e mem_cons_self
      rw [strings, stringsOf, strings_of_string? hs]
      exact cons_ne_nil _ _
  | @entries fields span hflds =>
    cases fields with
    | nil => cases hhollow
    | cons f fields =>
      rw [strings, fieldStrings_eq, flatMap_cons]
      exact cons_ne_nil _ _

theorem legible_of_checkShape {spec : Spec} (hsh : spec.shape = .forms forms)
    (hforms : forms ⊆ [.literal [.string], .literals [.string], .stringMap])
    (h : checkShape spec d = .ok ()) :
    ∃ arg, d.args.positional? = some arg ∧ Legible forms arg := by
  obtain ⟨hspec, hrest⟩ := ok_of_bind h
  obtain ⟨arg, hargs, form, hform, hholds⟩ := Spec.exists_value_of_checkShape hsh hspec
  have hpositional : d.args.positional? = some arg := by rw [hargs, Arguments.positional?]
  rw [hpositional] at hrest
  dsimp only at hrest
  split at hrest
  · cases hrest
  next hhollow =>
  split at hrest
  · cases hrest
  next hblank =>
  have hlabelled := labelled_of_holds (hforms hform) hholds
  refine ⟨arg, hpositional, hlabelled.strings_ne_nil (Bool.eq_false_iff.mpr hhollow),
    fun s hs => Bool.eq_false_iff.mpr fun hs' => ?_, hlabelled, form, hform, hholds⟩
  exact hblank (any_eq_true.mpr ⟨s, hs, hs'⟩)

theorem mem_argumentsOf {name : String} :
    arg ∈ argumentsOf name ds ↔ ∃ e ∈ ds, e.name.text = name ∧ e.args.positional? = some arg := by
  simp [argumentsOf, and_assoc]

theorem flatMap_argumentsOf (name : String) (ds : List Decoration) :
    (argumentsOf name ds).flatMap mentions = mentioned name ds := by
  rw [argumentsOf, filterMap_eq_flatMap_toList, flatMap_assoc, mentioned]
  rfl

theorem legible_of_mem_argumentsOf {spec : Spec} (hsh : spec.shape = .forms forms)
    (hforms : forms ⊆ [.literal [.string], .literals [.string], .stringMap])
    (hds : ∀ e ∈ ds, e.name.text = spec.name → checkShape spec e = .ok ()) :
    ∀ arg ∈ argumentsOf spec.name ds, Legible forms arg := by
  intro arg hmem
  obtain ⟨e, he, hnm, harg⟩ := mem_argumentsOf.mp hmem
  obtain ⟨arg', harg', hlegible⟩ := legible_of_checkShape hsh hforms (hds e he hnm)
  obtain rfl := Option.some.inj (harg.symm.trans harg')
  exact hlegible

theorem mem_mentioned {name : String} {m : String × Option String} :
    m ∈ mentioned name ds ↔ ∃ arg ∈ argumentsOf name ds, m ∈ mentions arg := by
  rw [← flatMap_argumentsOf, mem_flatMap]

theorem tags_eq_gathered (h : ∀ arg ∈ argumentsOf tagsSpec.name ds, Legible forms arg) :
    tags ds = gathered (mentioned tagsSpec.name ds) := by
  have hfold : ∀ t, ∀ arg ∈ argumentsOf tagsSpec.name ds,
      addTags t arg = (mentions arg).foldl add t := fun t arg harg =>
    (h arg harg).labelled.addTags_eq t
  rw [tags, foldl_ext _ _ _ hfold, ← foldl_flatMap, flatMap_argumentsOf, foldl_add_eq]

theorem not_blank_of_mem_mentioned {name : String} {m : String × Option String}
    (h : ∀ arg ∈ argumentsOf name ds, Legible forms arg) (hm : m ∈ mentioned name ds) :
    Text.isBlankText m.1 = false ∧ ∀ v ∈ m.2, Text.isBlankText v = false := by
  obtain ⟨arg, harg, hm⟩ := mem_mentioned.mp hm
  have hmem : ∀ s ∈ m.1 :: m.2.toList, Text.isBlankText s = false := fun s hs =>
    (h arg harg).not_blank s ((h arg harg).labelled.strings_eq ▸ mem_flatMap.mpr ⟨m, hm, hs⟩)
  exact ⟨hmem _ mem_cons_self,
    fun v hv => hmem v (mem_cons_of_mem _ (Option.mem_toList.mpr hv))⟩

theorem tags_of_legible (h : ∀ arg ∈ argumentsOf tagsSpec.name ds, Legible forms arg) :
    (argumentsOf tagsSpec.name ds ≠ [] → tags ds ≠ []) ∧
      ∀ t ∈ tags ds, Text.isBlankText t.1 = false ∧ ∀ v ∈ t.2, Text.isBlankText v = false := by
  rw [tags_eq_gathered h]
  refine ⟨fun hne => ?_, fun t ht => ?_⟩
  · obtain ⟨arg, harg⟩ := exists_mem_of_ne_nil _ hne
    have hmentions : mentions arg ≠ [] := fun hnil =>
      (h arg harg).ne_nil (by rw [(h arg harg).labelled.strings_eq, hnil, flatMap_nil])
    obtain ⟨m, hm⟩ := exists_mem_of_ne_nil _ hmentions
    have hkey : m.1 ∈ (mentioned tagsSpec.name ds).map (·.1) :=
      mem_map_of_mem (mem_mentioned.mpr ⟨arg, harg, hm⟩)
    exact ne_nil_of_mem (mem_map_of_mem (mem_eraseDups.mpr hkey))
  · obtain ⟨key, hkey, rfl⟩ := mem_map.mp ht
    obtain ⟨m, hm, rfl⟩ := mem_map.mp (mem_eraseDups.mp hkey)
    refine ⟨(not_blank_of_mem_mentioned h hm).1, fun v hv => ?_⟩
    obtain ⟨m', hm', hv⟩ := mem_filterMap.mp (mem_of_getLast? hv)
    split at hv
    · exact (not_blank_of_mem_mentioned h hm').2 v hv
    · cases hv

theorem mem_providers {s : String} :
    s ∈ providers ds ↔ ∃ arg ∈ argumentsOf providerSpec.name ds, s ∈ strings arg := by
  show s ∈ foldl addOnce [] _ ↔ _
  rw [mem_foldl_addOnce, mem_flatMap]
  exact or_iff_right not_mem_nil

theorem providers_of_legible (h : ∀ arg ∈ argumentsOf providerSpec.name ds, Legible forms arg) :
    (argumentsOf providerSpec.name ds ≠ [] → providers ds ≠ []) ∧
      ∀ s ∈ providers ds, Text.isBlankText s = false := by
  refine ⟨fun hne => ?_, fun s hs => ?_⟩
  · obtain ⟨arg, harg⟩ := exists_mem_of_ne_nil _ hne
    obtain ⟨s, hs⟩ := exists_mem_of_ne_nil _ (h arg harg).ne_nil
    exact ne_nil_of_mem (mem_providers.mpr ⟨arg, harg, hs⟩)
  · obtain ⟨arg, harg, hs⟩ := mem_providers.mp hs
    exact (h arg harg).not_blank s hs

theorem Legible.strings_eq (h : Legible forms arg) (hforms : .stringMap ∉ forms) :
    strings arg = (mentions arg).map (·.1) := by
  rw [h.labelled.strings_eq, map_eq_flatMap]
  refine flatMap_congr fun m hm => ?_
  cases h.labelled with
  | label hs =>
    rw [mentions_of_string? hs] at hm
    obtain rfl := mem_singleton.mp hm
    rfl
  | labels =>
    obtain ⟨e, -, hm⟩ := mem_filterMap.mp hm
    obtain ⟨s, -, rfl⟩ := Option.map_eq_some_iff.mp hm
    rfl
  | entries =>
    obtain ⟨form, hform, hholds⟩ := h.form
    cases form with
    | stringMap => exact absurd hform hforms
    | _ => cases hholds

theorem providers_eq (h : ∀ arg ∈ argumentsOf providerSpec.name ds, Legible forms arg)
    (hforms : .stringMap ∉ forms) :
    providers ds = ((mentioned providerSpec.name ds).map (·.1)).eraseDups := by
  rw [← flatMap_argumentsOf, map_flatMap,
    ← flatMap_congr fun arg harg => (h arg harg).strings_eq hforms]
  exact foldl_addOnce_eq _

/-- **Labels.** Where the shapes of `@tags` and `@provider` are right, the tags are what the `@tags`
mention: each key once and in the order of first mention, with the last value that an object gives
it, and without one if it is only a label. The providers are the strings of the `@provider`, each
once and in the order of first mention. -/
theorem tags_and_providers_eq
    (htags : ∀ d ∈ ds, d.name.text = tagsSpec.name → Decorator.tags.checkShape d = .ok ())
    (hprvs : ∀ d ∈ ds, d.name.text = providerSpec.name →
      Decorator.provider.checkShape d = .ok ()) :
    tags ds = ((mentioned "tags" ds).map (·.1)).eraseDups.map (fun key =>
      (key, (valuesOf (mentioned "tags" ds) key).getLast?)) ∧
    (tags ds).names.Nodup ∧
    providers ds = ((mentioned "provider" ds).map (·.1)).eraseDups ∧
    (providers ds).Nodup := by
  have htagsEq : tags ds = gathered (mentioned "tags" ds) :=
    tags_eq_gathered (legible_of_mem_argumentsOf rfl (Subset.refl _) htags)
  have hprovidersEq : providers ds = ((mentioned "provider" ds).map (·.1)).eraseDups :=
    providers_eq (legible_of_mem_argumentsOf rfl (by decide) hprvs) (by decide)
  refine ⟨htagsEq, ?_, hprovidersEq, ?_⟩
  · rw [htagsEq, names_gathered]
    exact nodup_eraseDups _
  · rw [hprovidersEq]
    exact nodup_eraseDups _

private def text (s : String) : Expr := .lit (.str s) ⟨0, 0⟩

private def decorated (name : String) (arg : Expr) : Decoration :=
  ⟨⟨name, ⟨0, 0⟩⟩, .value arg, ⟨0, 0⟩⟩

/-- A key with a value before and after it is a label, and one that is a label first. -/
private def interleaved : List Decoration :=
  [decorated "tags" (.object [⟨⟨"a", ⟨0, 0⟩⟩, text "1", ⟨0, 0⟩⟩] ⟨0, 0⟩),
    decorated "tags" (.array [text "a", .paren (text "b") ⟨0, 0⟩, text "c"] ⟨0, 0⟩),
    decorated "provider" (.array [text "y", text "x", text "y"] ⟨0, 0⟩),
    decorated "tags" (.object [⟨⟨"b", ⟨0, 0⟩⟩, text "2", ⟨0, 0⟩⟩, ⟨⟨"a", ⟨0, 0⟩⟩, text "3", ⟨0, 0⟩⟩]
      ⟨0, 0⟩),
    decorated "tags" (text "a"),
    decorated "provider" (text "x")]

theorem tags_and_providers_eq_interleaved :
    tags interleaved = [("a", some "3"), ("b", some "2"), ("c", none)] ∧
    (tags interleaved).names.Nodup ∧ providers interleaved = ["y", "x"] ∧
    (providers interleaved).Nodup := by
  have hoth : "provider" ≠ "tags" := by decide
  obtain ⟨htags, hnd, hprvs, hnd'⟩ := @tags_and_providers_eq interleaved
    (by simp only [interleaved, forall_mem_cons]
        exact ⟨fun _ => rfl, fun _ => rfl, fun h => absurd h hoth, fun _ => rfl, fun _ => rfl,
          fun h => absurd h hoth, nofun⟩)
    (by simp only [interleaved, forall_mem_cons]
        exact ⟨fun h => absurd h.symm hoth, fun h => absurd h.symm hoth, fun _ => rfl,
          fun h => absurd h.symm hoth, fun h => absurd h.symm hoth, fun _ => rfl, nofun⟩)
  exact ⟨htags.trans (by decide), hnd, hprvs.trans (by decide), hnd'⟩

end Labels

end Decorator

/-! ### Decorations -/

open Decorator

/-- What can be read from a decoration that has the shape which a decorator takes, whatever the
engine of patterns. -/
structure Decoration.Readable (engine : Pattern.Engine) (d : Decoration) : Prop where
  value : ∀ decorator ∈ [minValue, maxValue], decorator.checkShape d = .ok () →
    ∃ arg n, d.args = .value arg ∧ arg.Says (.int n) ∧ d.args.int? = some n ∧ 0 ≤ n ∧
      n < Bounds.valueLimit
  length : ∀ decorator ∈ [minLength, maxLength], decorator.checkShape d = .ok () →
    ∃ arg n, d.args = .value arg ∧ arg.Says (.int n) ∧ d.args.int? = some n ∧ 0 ≤ n ∧
      n < Bounds.lengthLimit
  /-- The number is also the one that is noted for an instance, whatever its other decorations. -/
  count : count.checkShape d = .ok () →
    ∃ arg n, d.args = .value arg ∧ arg.Says (.int n) ∧ d.args.int? = some n ∧ 0 ≤ n ∧
      n < Bounds.countLimit ∧ ∀ {ds : List Decoration},
        (ds.filter (·.name.text = Bounds.countSpec.name)).getLast? = some d →
        ∀ {s : Session} {x : String} {i : InstanceInfo}, find? s.instances x = some i →
          ∃ i', find? ((recordDecorations x ds).run s).2.instances x = some i' ∧
            i'.count = some n.toNat
  allowed : allowed.checkShape d = .ok () → ∃ vs, Allowed.candidates? d.args = some vs ∧ vs ≠ []
  /-- Every argument is read, one of them gives the pattern, and the pattern is valid. -/
  validate : (validate engine).checkShape d = .ok () →
    ((d.args.namedString? "regex").isSome ↔ (d.args.namedString? "preset").isNone) ∧
      (∃ args, d.args = .named args ∧ ∀ a ∈ args, (d.args.namedString? a.name.text).isSome) ∧
      (∃ compiled, Validate.compile engine d.args = .ok compiled) ∧
      ∀ v problem, (validate engine).checkValue d.args v ≠ .error (.badPattern problem)
  existing : existing.checkShape d = .ok () →
    ∃ arg reference kind, d.args = .value arg ∧ arg.Says (.str reference) ∧
      d.args.positional?.bind Expr.string? = some reference ∧
      ImportRef.classify? reference = some kind
  /-- The decoration has labels, and so has every list of such decorations that it is in. -/
  tags : tags.checkShape d = .ok () →
    (∃ arg, d.args.positional? = some arg ∧ Labels.strings arg ≠ [] ∧
      ∀ s ∈ Labels.strings arg, Text.isBlankText s = false) ∧
    ∀ {ds : List Decoration}, d ∈ ds → d.name.text = Labels.tagsSpec.name →
      (∀ e ∈ ds, e.name.text = Labels.tagsSpec.name → tags.checkShape e = .ok ()) →
        Labels.tags ds ≠ [] ∧ ∀ t ∈ Labels.tags ds,
          Text.isBlankText t.1 = false ∧ ∀ v ∈ t.2, Text.isBlankText v = false
  provider : provider.checkShape d = .ok () →
    (∃ arg, d.args.positional? = some arg ∧ Labels.strings arg ≠ [] ∧
      ∀ s ∈ Labels.strings arg, Text.isBlankText s = false) ∧
    ∀ {ds : List Decoration}, d ∈ ds → d.name.text = Labels.providerSpec.name →
      (∀ e ∈ ds, e.name.text = Labels.providerSpec.name → provider.checkShape e = .ok ()) →
        Labels.providers ds ≠ [] ∧ ∀ s ∈ Labels.providers ds, Text.isBlankText s = false
  /-- On a resource or an instance of a component there is a reference for each element, with a name
  and perhaps a kind before it. -/
  dependsOn : dependsOn.checkShape d = .ok () →
    ∃ arg, d.args.positional? = some arg ∧ DependsOn.elements arg ≠ [] ∧
      ∀ site : Site, site.target ∈ DependsOn.spec.targets → site.definition = false →
        ∃ refs, dependsOn.checkTarget d site = .ok refs ∧
          Forall₂ (fun e r => e.path? = some r.path ∧ r.span = e.span)
            (DependsOn.elements arg) refs ∧
          ∀ r ∈ refs, (r.path.length = 1 ∨ r.path.length = 2) ∧
            ∃ parts, splitReference r = .ok parts

/-- **Arguments.** Whatever passes the check of shapes can be read later. -/
theorem Decoration.arguments_readable (engine : Pattern.Engine) (d : Decoration) :
    d.Readable engine where
  value decorator hmem h := by
    simp only [List.mem_cons, List.not_mem_nil, or_false] at hmem
    rcases hmem with rfl | rfl <;> exact Bounds.exists_int_of_checkRange rfl h
  length decorator hmem h := by
    simp only [List.mem_cons, List.not_mem_nil, or_false] at hmem
    rcases hmem with rfl | rfl <;> exact Bounds.exists_int_of_checkRange rfl h
  count h := by
    obtain ⟨arg, n, hargs, hsays, hint, hnonneg, hlt⟩ := Bounds.exists_int_of_checkRange rfl h
    exact ⟨arg, n, hargs, hsays, hint, hnonneg, hlt,
      fun hlast => count_recordDecorations hlast hint hnonneg hlt⟩
  allowed h := Allowed.exists_candidates_of_checkShape h
  validate h := by
    obtain ⟨hone, compiled, hcompiled⟩ := Validate.exists_compile_of_checkShape h
    have hsh : Validate.spec.checkShape d = .ok () := (ok_of_bind h).1
    exact ⟨hone, Spec.isSome_namedString? rfl (by decide) hsh, ⟨compiled, hcompiled⟩,
      Validate.checkValue_ne_badPattern hcompiled⟩
  existing h := Existing.exists_reference_of_checkShape h
  tags h := by
    obtain ⟨arg, harg, hlegible⟩ := Labels.legible_of_checkShape rfl (List.Subset.refl _) h
    refine ⟨⟨arg, harg, hlegible.ne_nil, hlegible.not_blank⟩, fun hd hnm hds => ?_⟩
    obtain ⟨hne, hblank⟩ :=
      Labels.tags_of_legible (Labels.legible_of_mem_argumentsOf rfl (List.Subset.refl _) hds)
    have hmem := Labels.mem_argumentsOf.mpr ⟨d, hd, hnm, harg⟩
    exact ⟨hne (List.ne_nil_of_mem hmem), hblank⟩
  provider h := by
    obtain ⟨arg, harg, hlegible⟩ := Labels.legible_of_checkShape rfl (by decide) h
    refine ⟨⟨arg, harg, hlegible.ne_nil, hlegible.not_blank⟩, fun hd hnm hds => ?_⟩
    obtain ⟨hne, hblank⟩ :=
      Labels.providers_of_legible (Labels.legible_of_mem_argumentsOf rfl (by decide) hds)
    have hmem := Labels.mem_argumentsOf.mpr ⟨d, hd, hnm, harg⟩
    exact ⟨hne (List.ne_nil_of_mem hmem), hblank⟩
  dependsOn h := by
    obtain ⟨arg, harg, hne, hpaths⟩ := DependsOn.elements_of_checkShape h
    have hsome : ∀ e ∈ DependsOn.elements arg, e.path?.isSome := fun e he => by
      obtain ⟨path, hpath, -⟩ := hpaths e he
      exact Option.isSome_iff_exists.mpr ⟨path, hpath⟩
    refine ⟨arg, harg, hne, fun site htgt hdefinition =>
      ⟨(DependsOn.elements arg).filterMap DependsOn.reference?, ?_, ?_, fun r hr => ?_⟩⟩
    · exact DependsOn.checkTarget_of_positional? harg htgt hdefinition
    · refine (DependsOn.forall₂_filterMap_reference? hsome).imp fun e r hr => ?_
      obtain ⟨path, hpath, rfl⟩ := Option.map_eq_some_iff.mp hr
      exact ⟨hpath, rfl⟩
    · obtain ⟨e, he, hr⟩ := List.mem_filterMap.mp hr
      obtain ⟨path, hpath, hlen⟩ := hpaths e he
      rw [DependsOn.reference?, hpath, Option.map_some] at hr
      cases hr
      exact DependsOn.splitReference_of_length (Expr.path?_ne_nil hpath) hlen

def Decoration.threeCopies : Decoration where
  name := ⟨"count", ⟨1, 6⟩⟩
  args := .value
    (.unary .neg (.paren (.unary .neg (.lit (.int 3) ⟨10, 11⟩) ⟨9, 11⟩) ⟨8, 12⟩) ⟨7, 12⟩)
  span := ⟨0, 13⟩

theorem Decoration.arguments_readable_threeCopies : count.checkShape threeCopies = .ok () ∧
    ∃ n, threeCopies.args.int? = some n ∧ n = 3 ∧
      ∀ {s : Session} {i : InstanceInfo}, Table.find? s.instances "r" = some i →
        ∃ i', Table.find? ((Session.recordDecorations "r" [threeCopies]).run s).2.instances "r" =
          some i' ∧ i'.count = some n.toNat := by
  have hsh : count.checkShape threeCopies = .ok () := rfl
  obtain ⟨-, n, -, -, hint, -, -, hrec⟩ := (arguments_readable .standard threeCopies).count hsh
  have hthree : threeCopies.args.int? = some 3 := by decide
  obtain rfl := Option.some.inj (hint.symm.trans hthree)
  exact ⟨hsh, 3, hthree, rfl, fun hi => hrec rfl hi⟩

end Provision
