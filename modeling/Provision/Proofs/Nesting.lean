import Provision.Proofs.Literals
import Provision.Proofs.RoundTrip

/-!
# How deep expressions are nested

An expression is read at most `maxNesting` expressions deep. What follows an operand is taken by a
loop: an operator with its right operand, the name of a member, the arguments of a call. So the left
operand that they make is not read inside of what it becomes a part of, and what is bounded is the
nesting of an expression (`Expr.nesting`) and not its height. The height is bounded by the nesting
and the number of such links (`Expr.height_add_le`): with one link behind each operand it is at most
twice `maxNesting`, but sums can be of any height.
-/

namespace Provision

open List

variable {e : Expr}

/-! ### Measures of an expression -/

namespace Expr

mutual

/-- How many expressions are read inside each other. What stands before an operator, a point or the
arguments of a call is read before, and not inside. -/
def nesting : Expr → Nat
  | .lit _ _ | .var _ => 1
  | .member base _ _ => base.nesting
  | .array items _ => nestingAll items + 1
  | .object fields _ => nestingFields fields + 1
  | .unary _ operand _ => operand.nesting + 1
  | .call callee args _ => max callee.nesting (nestingAll args + 1)
  | .binary lhs _ rhs _ => max lhs.nesting (rhs.nesting + 1)
  | .paren inner _ => inner.nesting + 1

def nestingAll : List Expr → Nat
  | [] => 0
  | e :: es => max e.nesting (nestingAll es)

/-- The greatest nesting of the values of an object literal. -/
def nestingFields : List ObjectField → Nat
  | [] => 0
  | .mk _ value _ :: fields => max value.nesting (nestingFields fields)

end

/-- How many operators, members and calls are linked to the first operand. -/
def links : Expr → Nat
  | .member base _ _ => base.links + 1
  | .call callee _ _ => callee.links + 1
  | .binary lhs _ _ _ => lhs.links + 1
  | .lit _ _ | .var _ | .array _ _ | .object _ _ | .unary _ _ _ | .paren _ _ => 0

mutual

/-- The most links to one operand of the expression. -/
def chain : Expr → Nat
  | .lit _ _ | .var _ => 0
  | .member base _ _ => max (base.links + 1) base.chain
  | .array items _ => chainAll items
  | .object fields _ => chainFields fields
  | .unary _ operand _ => operand.chain
  | .call callee args _ => max (callee.links + 1) (max callee.chain (chainAll args))
  | .binary lhs _ rhs _ => max (lhs.links + 1) (max lhs.chain rhs.chain)
  | .paren inner _ => inner.chain

/-- The most links to one operand of some expressions. -/
def chainAll : List Expr → Nat
  | [] => 0
  | e :: es => max e.chain (chainAll es)

/-- The most links to one operand of the values of an object literal. -/
def chainFields : List ObjectField → Nat
  | [] => 0
  | .mk _ value _ :: fields => max value.chain (chainFields fields)

end

theorem links_le_chain (e : Expr) : e.links ≤ e.chain := by
  cases e with
  | member | call | binary => exact le_max_left _ _
  | _ => exact Nat.zero_le _

theorem height_le_of_add_le (e : Expr) {c : Nat} (hc : e.chain ≤ c)
    (h : e.height + c ≤ e.nesting * (c + 1) + e.links) : e.height ≤ e.nesting * (c + 1) := by
  have hlinks := e.links_le_chain
  omega

mutual

/-- Each level of nesting adds itself and a chain to the height at most. -/
theorem height_add_le : ∀ (e : Expr) {c : Nat}, e.chain ≤ c →
    e.height + c ≤ e.nesting * (c + 1) + e.links
  | .lit _ _, c, _ | .var _, c, _ => by
    rw [height, nesting, links]
    omega
  -- A member, a call and an operator lengthen a chain; the other forms start a new one.
  | .member base _ _, c, hc => by
    rw [chain] at hc
    have hbase := height_add_le base (c := c) (by omega)
    rw [height, nesting, links]
    omega
  | .array items _, c, hc => by
    have hits := heightAll_le items (c := c) hc
    rw [height, nesting, links, Nat.succ_mul]
    omega
  | .object fields _, c, hc => by
    have hflds := heightFields_le fields (c := c) hc
    rw [height, nesting, links, Nat.succ_mul]
    omega
  | .unary _ operand _, c, hc => by
    have hoperand := height_le_of_add_le operand hc (height_add_le operand hc)
    rw [height, nesting, links, Nat.succ_mul]
    omega
  | .call callee args _, c, hc => by
    rw [chain] at hc
    have hcallee := height_add_le callee (c := c) (by omega)
    have hargs := heightAll_le args (c := c) (by omega)
    rw [height, nesting, links, ← Nat.mul_max_mul_right, Nat.succ_mul]
    omega
  | .binary lhs _ rhs _, c, hc => by
    rw [chain] at hc
    have hlhs := height_add_le lhs (c := c) (by omega)
    have hrhs := height_le_of_add_le rhs (c := c) (by omega) (height_add_le rhs (by omega))
    rw [height, nesting, links, ← Nat.mul_max_mul_right, Nat.succ_mul]
    omega
  | .paren inner _, c, hc => by
    have hin := height_le_of_add_le inner hc (height_add_le inner hc)
    rw [height, nesting, links, Nat.succ_mul]
    omega

theorem heightAll_le : ∀ (es : List Expr) {c : Nat}, chainAll es ≤ c →
    heightAll es ≤ nestingAll es * (c + 1)
  | [], _, _ => Nat.zero_le _
  | e :: es, c, hc => by
    rw [chainAll] at hc
    have he := height_le_of_add_le e (c := c) (by omega) (height_add_le e (by omega))
    have hes := heightAll_le es (c := c) (by omega)
    rw [heightAll, nestingAll, ← Nat.mul_max_mul_right]
    omega

theorem heightFields_le : ∀ (fs : List ObjectField) {c : Nat}, chainFields fs ≤ c →
    heightFields fs ≤ nestingFields fs * (c + 1)
  | [], _, _ => Nat.zero_le _
  | .mk _ value _ :: fs, c, hc => by
    rw [chainFields] at hc
    have hval := height_le_of_add_le value (c := c) (by omega) (height_add_le value (by omega))
    have hfs := heightFields_le fs (c := c) (by omega)
    rw [heightFields, nestingFields, ← Nat.mul_max_mul_right]
    omega

end

theorem nestingAll_le_iff {es : List Expr} {n : Nat} :
    nestingAll es ≤ n ↔ ∀ e ∈ es, e.nesting ≤ n := by
  induction es with
  | nil => simp [nestingAll]
  | cons e es ih => rw [nestingAll, max_le_iff, ih, forall_mem_cons]

theorem nestingFields_le_iff {fs : List ObjectField} {n : Nat} :
    nestingFields fs ≤ n ↔ ∀ f ∈ fs, f.value.nesting ≤ n := by
  induction fs with
  | nil => simp [nestingFields]
  | cons f fs ih =>
    obtain ⟨key, value, span⟩ := f
    rw [nestingFields, max_le_iff, ih, forall_mem_cons]
    rfl

theorem Fits.of_mem_children {depth power : Nat} {e' : Expr} (h : e.Fits depth power)
    (he : e' ∈ e.children) : ∃ depth power, e'.Fits depth power := by
  cases h with
  | lit | var => cases he
  | paren _ h | unary _ h | member _ h => exact ⟨_, _, mem_singleton.mp he ▸ h⟩
  | array _ hits => exact ⟨_, _, hits e' he⟩
  | object _ hflds =>
    obtain ⟨f, hf, rfl⟩ := mem_map.mp he
    exact ⟨_, _, hflds f hf⟩
  | call _ hcallee hargs =>
    rcases mem_cons.mp he with rfl | he
    · exact ⟨_, _, hcallee⟩
    · exact ⟨_, _, hargs e' he⟩
  | binary _ _ hlhs hrhs =>
    rcases mem_cons.mp he with rfl | he
    · exact ⟨_, _, hlhs⟩
    · exact ⟨_, _, mem_singleton.mp he ▸ hrhs⟩

theorem Fits.nesting_le {depth power : Nat} (h : Fits depth power e) :
    e.nesting ≤ maxNesting - depth := by
  induction h with
  | lit hdp | var hdp =>
    rw [nesting]
    omega
  | paren hdp _ ih | unary hdp _ ih =>
    rw [nesting]
    omega
  | array hdp _ ih =>
    have hits := nestingAll_le_iff.mpr ih
    rw [nesting]
    omega
  | object hdp _ ih =>
    have hflds := nestingFields_le_iff.mpr ih
    rw [nesting]
    omega
  | member _ _ ih => exact ih
  | call _ h _ ih ihargs =>
    have hdp := h.depth_lt
    have hargs := nestingAll_le_iff.mpr ihargs
    rw [nesting]
    omega
  | binary _ _ h _ ihlhs ihrhs =>
    have hdp := h.depth_lt
    rw [nesting]
    omega

end Expr

/-! ### The expressions of a program -/

/-- The values among arguments; several of them are one array. -/
def Arguments.values : Arguments → List Expr
  | .bare | .empty => []
  | .value arg => [arg]
  | .named args => args.map (·.value)

/-- The expression is a value of the declaration, or one of a property, of a decoration or of a
declaration inside it. -/
inductive Decl.Holds (e : Expr) : Decl → Prop
  | value {d : Decl} (he : e ∈ d.exprs) : Holds e d
  | default {d : Decl} {q : SchemaProperty} (hq : q ∈ d.properties) (he : q.default = some e) :
      Holds e d
  | argument {d : Decl} {l : List Decoration} {a : Decoration} (hl : l ∈ d.ownLists) (ha : a ∈ l)
      (he : e ∈ a.args.values) : Holds e d
  | member {d d' : Decl} (hd' : d' ∈ d.members) (h : Holds e d') : Holds e d

/-- The expression stands in the program, by itself or inside another one. -/
inductive Program.HasExpr (p : Program) : Expr → Prop
  | outermost {d : Decl} {e : Expr} (hd : d ∈ p.items) (h : d.Holds e) : HasExpr p e
  | inside {e e' : Expr} (h : HasExpr p e) (he : e' ∈ e.children) : HasExpr p e'

/-- The expression can be read somewhere, or it is the array that several arguments of a decoration
in one of the lists make. -/
def Expr.FitsAmong (lists : List (List Decoration)) (e : Expr) : Prop :=
  (∃ depth power, e.Fits depth power) ∨
    ∃ l ∈ lists, ∃ a ∈ l, ∃ items span, a.args = .value e ∧ e = .array items span ∧
      2 ≤ items.length ∧ ∀ item ∈ items, item.Fits 0 0

theorem Expr.Fits.among {lists : List (List Decoration)} (h : e.Fits 0 0) : e.FitsAmong lists :=
  Or.inl ⟨0, 0, h⟩

theorem Expr.FitsAmong.mono {lists lists' : List (List Decoration)} (h : e.FitsAmong lists)
    (hsub : lists ⊆ lists') : e.FitsAmong lists' :=
  h.imp_right fun ⟨l, hl, ha⟩ => ⟨l, hsub hl, ha⟩

theorem Decoration.WellFormed.fits {a : Decoration} (h : a.WellFormed) {l : List Decoration}
    (ha : a ∈ l) (he : e ∈ a.args.values) : e.FitsAmong [l] := by
  have hargs := h.args
  cases hvals : a.args with
  | bare | empty =>
    rw [hvals] at he
    cases he
  | value arg =>
    rw [hvals] at he hargs
    obtain rfl := mem_singleton.mp he
    rcases hargs.value_cases with ⟨first, second, others, span, rfl, hits⟩ | ⟨-, harg⟩
    · exact Or.inr ⟨l, mem_singleton_self l, a, ha, _, span, hvals, rfl, by simp, hits⟩
    · exact harg.among
  | named args =>
    rw [hvals] at he hargs
    obtain ⟨b, hb, rfl⟩ := mem_map.mp he
    exact (hargs.2 b hb).2.among

namespace Decl

variable {d : Decl}

theorem WellFormedCore.fits_of_mem_exprs (h : d.WellFormedCore) (he : e ∈ d.exprs) :
    e.Fits 0 0 := by
  cases h with
  | schema | component | «alias» => cases he
  | resource _ _ hbody | inst _ _ hbody =>
    obtain ⟨i, hi, rfl⟩ := mem_map.mp he
    exact hbody i hi
  | input _ _ hval | output _ _ hval => exact hval e (Option.mem_toList.mp he)
  | var _ _ hval | function _ _ _ hval => exact mem_singleton.mp he ▸ hval

theorem WellFormedCore.of_mem_properties (h : d.WellFormedCore) {q : SchemaProperty}
    (hq : q ∈ d.properties) : q.WellFormed := by
  cases h with
  | schema _ hprops => exact hprops q hq
  | _ => cases hq

theorem WellFormed.of_mem_members (h : d.WellFormed) {d' : Decl} (hd' : d' ∈ d.members) :
    d'.WellFormed := by
  refine ⟨h.core.of_mem_members hd', ?_⟩
  obtain ⟨hcore, -⟩ := h
  cases hcore with
  | component _ _ hdecs => exact hdecs d' hd'
  | _ => cases hd'

theorem WellFormed.fits (h : d.WellFormed) (he : d.Holds e) : e.FitsAmong d.lists := by
  induction he with
  | value he => exact (h.core.fits_of_mem_exprs he).among
  | default hq he => exact ((h.core.of_mem_properties hq).default e he).among
  | @argument d l a hl ha he =>
    have hfits : e.FitsAmong [l] := by
      rcases mem_cons.mp hl with rfl | hl
      · exact (h.decorations _ ha).fits ha he
      · obtain ⟨q, hq, rfl⟩ := mem_map.mp hl
        exact ((h.core.of_mem_properties hq).decorations _ ha).fits ha he
    exact hfits.mono fun m hm => mem_lists.mpr (Or.inl (mem_singleton.mp hm ▸ hl))
  | @member d d' hd' _ ih =>
    exact (ih (h.of_mem_members hd')).mono fun l hl =>
      mem_lists.mpr (Or.inr (mem_listsAll.mpr ⟨d', hd', hl⟩))

end Decl

theorem Program.WellFormed.fits {p : Program} (h : p.WellFormed) (he : p.HasExpr e) :
    e.FitsAmong (Decl.listsAll p.items) := by
  induction he with
  | @outermost d e hd he =>
    exact ((h _ hd).fits he).mono fun l hl => Decl.mem_listsAll.mpr ⟨d, hd, hl⟩
  | inside _ he ih =>
    rcases ih with ⟨depth, power, hfits⟩ | ⟨l, -, a, -, items, span, -, rfl, -, hits⟩
    · exact Or.inl (hfits.of_mem_children he)
    · exact (hits _ he).among

theorem Expr.FitsAmong.shallow {lists : List (List Decoration)} (h : e.FitsAmong lists) :
    e.nesting ≤ maxNesting ∨ ∃ l ∈ lists, ∃ a ∈ l, ∃ items span, a.args = .value e ∧
      e = .array items span ∧ 2 ≤ items.length ∧ ∀ item ∈ items, item.nesting ≤ maxNesting := by
  rcases h with ⟨depth, power, hfits⟩ | ⟨l, hl, a, ha, items, span, hargs, rfl, hlen, hits⟩
  · exact Or.inl (hfits.nesting_le.trans (Nat.sub_le _ _))
  · exact Or.inr ⟨l, hl, a, ha, items, span, hargs, rfl, hlen,
      fun item hit => (hits item hit).nesting_le⟩

/-! ### Sums -/

def Expr.ones : Nat → Expr
  | 0 => .lit (.int 1) .empty
  | n + 1 => .binary (ones n) .add (.lit (.int 1) .empty) .empty

theorem Expr.fits_ones (n : Nat) : (ones n).Fits 0 0 := by
  have hone : ∀ {depth power}, depth < maxNesting → (Expr.lit (.int 1) .empty).Fits depth power :=
    fun hdp => .lit hdp ⟨by decide, by decide⟩
  induction n with
  | zero => exact hone (by decide)
  | succ n ih =>
    refine .binary (Nat.zero_le _) ?_ ih (hone (by decide))
    cases n with
    | zero => exact trivial
    | succ n => exact le_refl BinaryOp.add.power

theorem Expr.withoutSpans_ones (n : Nat) : (ones n).withoutSpans = ones n := by
  induction n with
  | zero => rfl
  | succ n ih =>
    rw [ones, withoutSpans, ih]
    rfl

theorem Expr.exists_of_ones_succ {n : Nat} (h : e.withoutSpans = ones (n + 1)) :
    ∃ lhs op rhs span, e = .binary lhs op rhs span ∧ lhs.withoutSpans = ones n := by
  cases e with
  | binary lhs op rhs span =>
    injection h with hlhs
    exact ⟨lhs, op, rhs, span, rfl, hlhs⟩
  | _ => cases h

theorem Expr.lt_height_of_ones {n : Nat} (h : e.withoutSpans = ones n) : n < e.height := by
  induction n generalizing e with
  | zero => cases e <;> exact Nat.succ_pos _
  | succ n ih =>
    obtain ⟨lhs, op, rhs, span, rfl, hlhs⟩ := exists_of_ones_succ h
    have hlt := ih hlhs
    rw [height]
    omega

namespace Session

variable {k : Checker} {s : Session}

theorem infer_ones {n : Nat} {expected : Option Ty} (h : e.withoutSpans = Expr.ones n)
    (hdp : k.maxDepth ≤ s.depth + n) : ∃ span,
      ((infer k e expected).run.run s).1 = .error (.typeError (.tooDeep k.maxDepth) span) := by
  induction n generalizing e s expected with
  | zero =>
    cases e with
    | lit value span =>
      rw [infer, run_nested, if_neg (by omega)]
      exact ⟨span, rfl⟩
    | _ => cases h
  | succ n ih =>
    obtain ⟨lhs, op, rhs, span, rfl, hlhs⟩ := Expr.exists_of_ones_succ h
    rw [infer, run_nested]
    split
    · obtain ⟨span', hlhs⟩ := @ih lhs { s with depth := s.depth + 1 } none hlhs
        (by dsimp only; omega)
      refine ⟨span', ?_⟩
      show ((((infer k lhs none).run >>= ExceptT.bindCont _ : Checking _)).run _).1 = _
      rw [run_bind, hlhs]
      rfl
    · exact ⟨span, rfl⟩

theorem findings_checkVariable_ones {d : VarDecl} {n : Nat} (hty : d.type = none)
    (hval : d.value.withoutSpans = Expr.ones n) (hdp : k.maxDepth ≤ s.depth + n) :
    ∃ span, .typeError (.tooDeep k.maxDepth) span ∈ ((checkVariable k d).run s).2.findings := by
  obtain ⟨span, hinfer⟩ := @infer_ones _ k s n none hval hdp
  have hfst : .typeError (.tooDeep k.maxDepth) span ∈
      ((inferred? k d.value).run s).2.findings := by
    unfold inferred?
    rw [run_bind, hinfer]
    exact mem_append_right _ mem_cons_self
  have hdecl : Notes ((inferred? k d.value).run s).2 ((variableType? k d).run s).2 := by
    rw [run_variableType?_none hty]
    exact notes_declare _ _ _
  have hlast : Notes ((variableType? k d).run s).2 ((checkVariable k d).run s).2 := by
    unfold checkVariable
    rw [run_bind]
    split
    · exact traversed_notes.runDecorators _ _ _ _ _
    · exact Std.Refl.refl (r := Notes) _
  exact ⟨span, (hdecl.trans hlast).subset hfst⟩

end Session

def Program.ones (n : Nat) : Program :=
  ⟨[.var ⟨[], none, ⟨"x", .empty⟩, Expr.ones n, .empty⟩], .empty⟩

theorem Program.wellFormed_ones (n : Nat) : (Program.ones n).WellFormed := by
  have hnm : Token.isIdentifier "x" = true := by decide +kernel
  refine forall_mem_singleton.mpr ⟨.var nofun hnm (Expr.fits_ones n), ?_⟩
  exact forall_mem_nil _

theorem Program.exists_of_withoutSpans_ones {p : Program} {n : Nat}
    (h : p.withoutSpans = (Program.ones n).withoutSpans) :
    ∃ d : VarDecl, p.items = [.var d] ∧ d.type = none ∧ d.value.withoutSpans = Expr.ones n := by
  have hits := congrArg Program.items h
  simp only [Program.withoutSpans, Decl.allWithoutSpans_eq] at hits
  obtain ⟨d, hd, hsame⟩ := map_eq_singleton_iff.mp hits
  cases d with
  | var d =>
    injection hsame with hsame
    injection hsame with _ hty _ hval
    exact ⟨d, hd, Option.map_eq_none_iff.mp hty, hval.trans (Expr.withoutSpans_ones n)⟩
  | _ => cases hsame

theorem Checker.check_ones {k : Checker} {p : Program} {d : VarDecl} {n : Nat}
    (hits : p.items = [.var d]) (hty : d.type = none)
    (hval : d.value.withoutSpans = Expr.ones n) (hdp : k.maxDepth ≤ n) :
    ∃ findings span, k.check p = .error findings ∧
      .typeError (.tooDeep k.maxDepth) span ∈ findings := by
  obtain ⟨span, hspan⟩ := Session.findings_checkVariable_ones (k := k) (s := k.registered p) hty
    hval (by omega)
  have hchecked : k.checked p = ((Session.checkVariable k d).run (k.registered p)).2 := by
    unfold Checker.checked
    rw [hits]
    rfl
  rw [← hchecked] at hspan
  have hvis : .typeError (.tooDeep k.maxDepth) span ∈ ((k.visit p).run {}).2.findings := by
    rw [Checker.run_visit]
    exact (Session.notes_orderBodies {} (k.linked p).bodies _).subset
      ((Session.notes_linkComponents (k.checked p)).subset hspan)
  refine ⟨((k.visit p).run {}).2.findings, span, ?_, hvis⟩
  unfold Checker.check
  generalize (k.visit p).run {} = r at hvis ⊢
  exact if_neg fun hnil => ne_nil_of_mem hvis (isEmpty_iff.mp hnil)

/-- The height of what is read has no bound: long sums are read, and a checker whose limit they
exceed rejects them. -/
theorem Program.exists_parse_of_height (n : Nat) : ∃ source p e, Program.parse source = .ok p ∧
    p.HasExpr e ∧ n < e.height ∧ ∀ k : Checker, k.maxDepth ≤ n →
      ∃ findings span, k.check p = .error findings ∧
        .typeError (.tooDeep k.maxDepth) span ∈ findings := by
  obtain ⟨p, hprs, hsame⟩ := (wellFormed_ones n).exists_parse_render Numerals.exact
  obtain ⟨d, hits, hty, hval⟩ := exists_of_withoutSpans_ones hsame
  refine ⟨_, p, d.value, hprs, .outermost (hits ▸ mem_singleton_self _)
    (.value mem_cons_self), Expr.lt_height_of_ones hval, fun k hdp => ?_⟩
  exact Checker.check_ones hits hty hval hdp

/-- **Nesting.** Every expression of a program that was read is nested at most `maxNesting` deep,
or it is the whole argument of a decoration of the program and an array of two or more that are
nested so, since several arguments make one array; and it is at most as high as its nesting times
one more than its longest chain. But the height has no bound: there are sources that are read and
that a checker with a given limit rejects, since they go beyond it. -/
theorem Program.nesting_le_of_parse :
    (∀ {source : String} {p : Program}, Program.parse source = .ok p → ∀ {e : Expr}, p.HasExpr e →
      (e.nesting ≤ maxNesting ∨
        ∃ l ∈ Decl.listsAll p.items, ∃ a ∈ l, ∃ items span, a.args = .value e ∧
          e = .array items span ∧ 2 ≤ items.length ∧ ∀ item ∈ items, item.nesting ≤ maxNesting) ∧
      e.height ≤ e.nesting * (e.chain + 1)) ∧
    ∀ n, ∃ source p e, Program.parse source = .ok p ∧ p.HasExpr e ∧ n < e.height ∧
      ∀ k : Checker, k.maxDepth ≤ n → ∃ findings span, k.check p = .error findings ∧
        .typeError (.tooDeep k.maxDepth) span ∈ findings :=
  ⟨fun hprs e he => ⟨((wellFormed_of_parse hprs).fits he).shallow,
    e.height_le_of_add_le le_rfl (e.height_add_le le_rfl)⟩,
    exists_parse_of_height⟩

/-- What is read can be higher than `maxNesting`, and so high that the checker rejects it. -/
theorem Program.exists_parse_tooDeep : ∃ source p e, Program.parse source = .ok p ∧ p.HasExpr e ∧
    maxNesting < e.height ∧ ∃ findings span, Checker.builtin.check p = .error findings ∧
      .typeError (.tooDeep 512) span ∈ findings := by
  obtain ⟨source, p, e, hprs, he, hheight, hchk⟩ := exists_parse_of_height 512
  have hmax : maxNesting < e.height := lt_trans (by decide) hheight
  exact ⟨source, p, e, hprs, he, hmax, hchk .builtin (le_refl _)⟩

end Provision
