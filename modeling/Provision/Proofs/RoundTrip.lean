import Provision.Proofs.Reading
import Provision.Proofs.Spans.Program

/-!
# Programs written down and read again

A program that was read is the same, up to its spans, when it is written down and read again
(`Program.parse_render`). Its tokens can all be read (`Decl.WellFormed.readable`), so the text gives
them back; and the readers take the tokens of every declaration (`Decl.WellFormed.item`). What is
written for arguments, decorations and types depends on what follows: an argument list must not
start with a name and `=` unless its arguments have names, and a decoration without arguments must
not stand before a parenthesis.
-/

namespace Provision

open Token Parse List Decl

variable {ts rest : List Token} {value : Option Expr} {t : TypeExpr} {steps : Nat} {d : Decl}

/-! ### Tokens that can be read -/

section Tokens

variable {P : Token → Prop} {mark : Punct} {text : String} {parts : List (List Token)}

namespace Token

@[simp] theorem forall_mem_separated (hmark : P (.punct mark)) :
    (∀ t ∈ separated mark parts, P t) ↔ ∀ part ∈ parts, ∀ t ∈ part, P t := by
  cases parts with
  | nil => simp [separated]
  | cons part parts =>
    simp only [separated, List.forall_mem_append, forall_mem_flatMap, List.forall_mem_cons, hmark,
      true_and]

theorem separated_singleton (mark : Punct) (ts : List Token) : separated mark [ts] = ts :=
  append_nil ts

@[simp] theorem readable_punct (mark : Punct) : (Token.punct mark).Readable := trivial

@[simp] theorem readable_keyword (word : Keyword) : (Token.keyword word).Readable := trivial

@[simp] theorem readable_ident : (Token.ident text).Readable ↔ isIdentifier text := Iff.rfl

/-- A token of an expression or a type. -/
structure Inner (t : Token) : Prop where
  readable : t.Readable
  ne_assign : t ≠ .punct .assign

@[simp] theorem inner_punct : (Token.punct mark).Inner ↔ mark ≠ .assign :=
  ⟨fun h heq => h.ne_assign (heq ▸ rfl), fun h => ⟨trivial, fun heq => h (Token.punct.inj heq)⟩⟩

@[simp] theorem inner_ident : (Token.ident text).Inner ↔ isIdentifier text :=
  ⟨Inner.readable, fun h => ⟨h, by simp⟩⟩

@[simp] theorem inner_ofName (text : String) : (Token.ofName text).Inner := by
  unfold Token.ofName
  split
  · split <;> exact ⟨trivial, by simp⟩
  · next hnone =>
    split
    · next hword => exact inner_ident.mpr (by rw [isIdentifier, hword, hnone]; rfl)
    · exact ⟨trivial, by simp⟩

@[simp] theorem readable_ofName (text : String) : (Token.ofName text).Readable :=
  (inner_ofName text).readable

end Token

@[simp] theorem UnaryOp.mark_ne_assign (op : UnaryOp) : op.mark ≠ .assign := by cases op <;> decide

@[simp] theorem BinaryOp.mark_ne_assign (op : BinaryOp) : op.mark ≠ .assign := by
  cases op <;> decide

end Tokens

theorem Lit.Readable.inner {value : Lit} (h : value.Readable) : value.token.Inner := by
  cases value with
  | int n => exact ⟨h.2, by simp [Lit.token]⟩
  | float x => exact ⟨h, by simp [Lit.token]⟩
  | bool b => cases b <;> exact ⟨trivial, by simp [Lit.token]⟩
  | _ => exact ⟨trivial, by simp [Lit.token]⟩

theorem Expr.Fits.inner {depth power : Nat} {e : Expr} (h : e.Fits depth power) :
    ∀ t ∈ e.tokens, t.Inner := by
  induction h with
  | lit _ hval => simpa [Expr.tokens] using hval.inner
  | object _ _ ih => 
    simpa [Expr.tokens, Expr.tokensOfFields_eq, ObjectField.tokens, or_imp, forall_and] using ih
  | array _ _ ih => simpa [Expr.tokens, Expr.tokensOfAll_eq, or_imp, forall_and] using ih
  | call _ _ _ ih ihargs =>
    simpa [Expr.tokens, Expr.tokensOfAll_eq, inParens, or_imp, forall_and] using ⟨ih, ihargs⟩
  | _ => simp_all [Expr.tokens, inParens, or_imp]

theorem TypeExpr.WellFormed.inner (h : t.WellFormed) (inside : Bool) :
    ∀ u ∈ t.tokens inside, u.Inner := by
  induction h generalizing inside with
  | union _ _ ih =>
    have ih := fun t ht => ih t ht true
    cases inside <;>
      simpa [TypeExpr.tokens, TypeExpr.tokensOfParts_eq, inParens, or_imp, forall_and]
  | _ => simp_all [TypeExpr.tokens, or_imp]

theorem Expr.Fits.readable {e : Expr} (h : e.Fits 0 0) : ∀ t ∈ e.tokens, t.Readable :=
  fun t ht => (h.inner t ht).readable

theorem TypeExpr.WellFormed.readable (h : t.WellFormed) : ∀ u ∈ t.tokens false, u.Readable :=
  fun u hu => (h.inner false u hu).readable

theorem Expr.readable_initializer (h : ∀ e, value = some e → e.Fits 0 0) :
    ∀ t ∈ Expr.initializerTokens value, t.Readable := by
  cases value with
  | none => exact forall_mem_nil _
  | some e => exact List.forall_mem_cons.mpr ⟨trivial, (h e rfl).readable⟩

theorem TypeExpr.readable_optional {type : Option TypeExpr}
    (h : ∀ t, type = some t → t.WellFormed) :
    ∀ u ∈ TypeExpr.optionalTokens type, u.Readable := by
  cases type with
  | none => exact forall_mem_nil _
  | some t => exact (h t rfl).readable

theorem Arguments.WellFormed.value_cases {arg : Expr} (h : (Arguments.value arg).WellFormed) :
    (∃ first second others span, arg = .array (first :: second :: others) span ∧
      ∀ e ∈ first :: second :: others, e.Fits 0 0) ∨
    (Arguments.value arg).tokens = inParens arg.tokens ∧ arg.Fits 0 0 := by
  cases arg with
  | array items span =>
    obtain _ | ⟨first, _ | ⟨second, others⟩⟩ := items
    · exact Or.inr ⟨rfl, h⟩
    · exact Or.inr ⟨rfl, h⟩
    · exact Or.inl ⟨first, second, others, span, rfl, h⟩
  | _ => exact Or.inr ⟨rfl, h⟩

theorem Arguments.WellFormed.readable {args : Arguments} (h : args.WellFormed) :
    ∀ t ∈ args.tokens, t.Readable := by
  cases args with
  | bare => exact forall_mem_nil _
  | empty => simp [Arguments.tokens, inParens]
  | value arg =>
    rcases h.value_cases with ⟨first, second, others, span, rfl, hvals⟩ | ⟨htoks, harg⟩
    · have hrd := fun e he => (hvals e he).readable
      simpa [Arguments.tokens, inParens, Expr.tokensOfAll_eq, or_imp, forall_and] using hrd
    · simpa [htoks, inParens, or_imp, forall_and] using harg.readable
  | named args =>
    have hargs := fun a ha => And.intro (h.2 a ha).1 (h.2 a ha).2.readable
    simpa [Arguments.tokens, inParens, NamedArg.tokens, or_imp, forall_and] using hargs

theorem Decoration.readable_all {ds : List Decoration} (h : ∀ d ∈ ds, d.WellFormed) :
    ∀ t ∈ ds.flatMap Decoration.tokens, t.Readable := by
  rw [forall_mem_flatMap]
  intro d hd
  simpa [Decoration.tokens] using ⟨(h d hd).name, (h d hd).args.readable⟩

theorem SchemaProperty.WellFormed.readable {q : SchemaProperty} (h : q.WellFormed) :
    ∀ t ∈ q.tokens, t.Readable := by
  rw [SchemaProperty.tokens, List.forall_mem_append, List.forall_mem_append, List.forall_mem_cons]
  exact ⟨⟨Decoration.readable_all h.decorations, h.type.readable⟩, readable_ofName _,
    Expr.readable_initializer h.default⟩

theorem Init.readable_body {body : List Init} (h : ∀ i ∈ body, i.value.Fits 0 0) :
    ∀ t ∈ inBraces (body.map Init.tokens), t.Readable := by
  have hvals := fun i hi => (h i hi).readable
  simpa [inBraces, Init.tokens, or_imp, forall_and] using hvals

theorem Param.WellFormed.readable {q : Param} (h : q.WellFormed) : ∀ t ∈ q.tokens, t.Readable := by
  rw [Param.tokens, List.forall_mem_append, List.forall_mem_singleton]
  exact ⟨h.type.readable, h.name⟩

namespace Decl

def tokens (d : Decl) : List Token := d.decorations.flatMap Decoration.tokens ++ d.coreTokens

theorem tokensOfAll_eq (ds : List Decl) : tokensOfAll ds = ds.map tokens := by
  induction ds with
  | nil => rfl
  | cons d ds ih =>
    rw [tokensOfAll, ih]
    rfl

theorem allWithoutSpans_eq (ds : List Decl) : allWithoutSpans ds = ds.map withoutSpans := by
  induction ds with
  | nil => rfl
  | cons d ds ih => rw [allWithoutSpans, ih, map_cons]

/-- Every token of a declaration can be read back. -/
theorem WellFormedCore.readable (h : d.WellFormedCore) : ∀ t ∈ d.coreTokens, t.Readable := by
  induction h with
  | schema hnm hprops =>
    have hrd := fun q hq => (hprops q hq).readable
    simpa [coreTokens, inBraces, or_imp, forall_and] using ⟨hnm, hrd⟩
  | resource hsch hnm hbody | inst hsch hnm hbody =>
    simpa [coreTokens] using ⟨hsch, hnm, Init.readable_body hbody⟩
  | @component _ _ body _ hnm _ hdecs ih =>
    have hrd : ∀ d ∈ body, ∀ t ∈ d.tokens, t.Readable := fun d hd =>
      List.forall_mem_append.mpr ⟨Decoration.readable_all (hdecs d hd), ih d hd⟩
    simpa [coreTokens, tokensOfAll_eq, inBraces, or_imp, forall_and] using ⟨hnm, hrd⟩
  | input hty hnm hval | output hty hnm hval =>
    rw [coreTokens, List.forall_mem_append, List.forall_mem_cons, List.forall_mem_cons]
    exact ⟨⟨trivial, hty.readable⟩, hnm, Expr.readable_initializer hval⟩
  | var hty hnm hval =>
    rw [coreTokens, List.forall_mem_append, List.forall_mem_cons, List.forall_mem_cons,
      List.forall_mem_cons]
    exact ⟨⟨trivial, TypeExpr.readable_optional hty⟩, hnm, trivial, hval.readable⟩
  | function hnm hps hrt hbody =>
    have hrd := fun q hq => (hps q hq).readable
    have hrt := TypeExpr.readable_optional hrt
    simpa [coreTokens, inParens, inBraces, or_imp, forall_and, and_assoc] using
      ⟨hnm, hrd, hrt, hbody.readable⟩
  | «alias» hnm hty =>
    simpa [coreTokens] using ⟨hnm, hty.readable⟩

theorem WellFormed.readable (h : d.WellFormed) : ∀ t ∈ d.tokens, t.Readable :=
  List.forall_mem_append.mpr ⟨Decoration.readable_all h.decorations, h.core.readable⟩

end Decl

/-! ### Decorations -/

theorem Parse.Takes.ite_bind {α β : Type} {test : Parse Bool} {m m' : Parse α} {f : α → Parse β}
    {us vs : List Token} {Q : α → Prop} {R : β → Prop}
    (h : Takes (test >>= fun b => if b then m else m') ts us Q)
    (hf : ∀ a, Q a → Takes (f a) us vs R) :
    Takes (test >>= fun b => if b then m >>= f else m' >>= f) ts vs R := by
  have hbind : (test >>= fun b => if b then m >>= f else m' >>= f) =
      (test >>= fun b => if b then m else m') >>= f := by
    rw [bind_assoc]
    exact bind_congr fun b => by cases b <;> rfl
  rw [hbind]
  exact h.bind hf

theorem Parse.takes_isAtAssignment {β : Type} {f : Bool → Parse β} {text : String} {us : List Token}
    {R : β → Prop} (h : Takes (f true) (.ident text :: .punct .assign :: ts) us R) :
    Takes (isAtAssignment >>= f) (.ident text :: .punct .assign :: ts) us R := by
  rw [isAtAssignment, bind_assoc]
  refine takes_token ?_
  rw [bind_assoc]
  exact takes_following h

theorem Parse.takes_not_isAtAssignment {β : Type} {f : Bool → Parse β} {us : List Token}
    {R : β → Prop} (hne : ts.tail.headD .eof ≠ .punct .assign) (h : Takes (f false) ts us R) :
    Takes (isAtAssignment >>= f) ts us R := by
  rw [isAtAssignment, bind_assoc]
  refine takes_headD ?_
  split
  · rw [bind_assoc]
    refine takes_following ?_
    rw [pure_bind, beq_eq_false_iff_ne.mpr hne]
    exact h
  · exact h

theorem Token.tail_append_ne_assign (h : ∀ t ∈ ts, t.Inner) (hne : ts ≠ [])
    (hrest : rest.headD .eof ≠ .punct .assign) : (ts ++ rest).tail.headD .eof ≠ .punct .assign := by
  obtain _ | ⟨t, _ | ⟨u, us⟩⟩ := ts
  · exact absurd rfl hne
  · exact hrest
  · exact (h u (mem_cons_of_mem t mem_cons_self)).ne_assign

theorem NamedArg.item {a : NamedArg} (h : a.value.Fits 0 0) :
    TakesItem NamedArg.parse NamedArg.tokens NamedArg.withoutSpans a := by
  refine ⟨⟨_, _, rfl, rfl⟩, fun {steps more} hmore => ?_⟩
  refine takes_start fun _ => takes_ident fun name hnm => takes_expectMark ?_
  refine (h.readBack _ (stops_of_isEnd hmore 0)).bind fun value hval => ?_
  refine takes_spanFrom fun _ => takes_pure ?_
  rw [withoutSpans, withoutSpans, hnm, hval]

/-- One argument is read as itself, and several as an array. -/
theorem Arguments.takes_values {values : List Expr} (hne : values ≠ [])
    (h : ∀ e ∈ values, e.Fits 0 0) {Q : Arguments → Prop}
    (hsingle : ∀ e, values.map Expr.withoutSpans = [e.withoutSpans] → Q (.value e))
    (hseveral : ∀ es span, 2 ≤ values.length →
      Expr.allWithoutSpans es = Expr.allWithoutSpans values → Q (.value (.array es span))) :
    Takes (Arguments.parse steps)
      (separated .comma (Expr.tokensOfAll values) ++ .punct .closeParen :: rest)
      (.punct .closeParen :: rest) Q := by
  obtain ⟨first, others, rfl⟩ := exists_cons_of_ne_nil hne
  obtain ⟨t, ts, ht, hend⟩ := first.exists_tokens_cons
  have hin : ∀ u ∈ separated .comma (Expr.tokensOfAll (first :: others)), u.Inner := by
    rw [Expr.tokensOfAll_eq]
    refine (forall_mem_separated (by simp)).mpr ?_
    exact forall_mem_map.mpr fun e he => (h e he).inner
  have hcons : separated .comma (Expr.tokensOfAll (first :: others)) =
      t :: (ts ++ (Expr.tokensOfAll others).flatMap (.punct .comma :: ·)) := by
    rw [Expr.tokensOfAll, separated, ht, cons_append]
  refine takes_else ?_ (takes_not_isAtAssignment ?_ (takes_start fun _ => ?_))
  · rw [hcons]
    rintro rfl
    cases hend
  · refine tail_append_ne_assign hin ?_ (by simp)
    rw [hcons]
    exact cons_ne_nil _ _
  refine (Expr.takes_parseList hne fun e he => (h e he).readBack).bind fun es hes => ?_
  have hmap : es.map Expr.withoutSpans = (first :: others).map Expr.withoutSpans := by
    rw [← Expr.allWithoutSpans_eq, ← Expr.allWithoutSpans_eq, hes]
  split
  · next e => exact takes_pure (hsingle e hmap.symm)
  · next hnot =>
    refine takes_spanFrom fun span => takes_pure (hseveral es span ?_ hes)
    have hlen : es.length = (first :: others).length := by
      simpa using congrArg length hmap
    rw [← hlen]
    obtain _ | ⟨e, _ | ⟨e', es⟩⟩ := es
    · cases hlen
    · exact absurd rfl (hnot e)
    · exact Nat.le_add_left 2 es.length

/-- Arguments are read back up to the parenthesis that closes them. -/
theorem Arguments.WellFormed.takes {args : Arguments} (h : args.WellFormed) (hargs : args ≠ .bare) :
    ∃ inner, args.tokens = inParens inner ∧ ∀ {steps : Nat} {rest : List Token},
      Takes (Arguments.parse steps) (inner ++ .punct .closeParen :: rest)
        (.punct .closeParen :: rest) (·.withoutSpans = args.withoutSpans) := by
  cases args with
  | bare => exact absurd rfl hargs
  | empty => exact ⟨[], rfl, takes_if rfl (takes_pure rfl)⟩
  | value arg =>
    rcases h.value_cases with ⟨first, second, others, span, rfl, hvals⟩ | ⟨htoks, harg⟩
    · refine ⟨_, rfl, takes_values (cons_ne_nil _ _) hvals (fun e he => ?_)
        fun es span' _ hes => ?_⟩
      · exact absurd (congrArg length he) (by simp)
      · rw [withoutSpans, withoutSpans, Expr.withoutSpans, Expr.withoutSpans, hes]
    · have hone : separated .comma (Expr.tokensOfAll [arg]) = arg.tokens :=
        separated_singleton _ _
      rw [htoks, ← hone]
      refine ⟨_, rfl, takes_values (cons_ne_nil _ _) (List.forall_mem_singleton.mpr harg)
        (fun e he => ?_) fun es span' hlen _ => ?_⟩
      · rw [withoutSpans, withoutSpans, singleton_inj.mp he]
      · exact absurd hlen (Nat.not_succ_le_self 1)
  | named args =>
    refine ⟨_, rfl, fun {steps rest} => ?_⟩
    have hlist : Takes (NamedArg.parseList steps)
        (separated .comma (args.map NamedArg.tokens) ++ .punct .closeParen :: rest)
        (.punct .closeParen :: rest)
        fun args' => args'.map NamedArg.withoutSpans = args.map NamedArg.withoutSpans :=
      NamedArg.commas.takes_separated h.1 (fun a ha => NamedArg.item (h.2 a ha).2) rfl (by simp)
    obtain ⟨first, others, rfl⟩ := exists_cons_of_ne_nil h.1
    refine takes_else (fun heq => by cases heq) (takes_isAtAssignment ?_)
    refine hlist.bind fun args' hargs' => takes_pure ?_
    rw [withoutSpans, withoutSpans, hargs']

theorem Decoration.WellFormed.takes {d : Decoration} (h : d.WellFormed)
    (hparen : d.args = .bare → rest.headD .eof ≠ .punct .openParen) :
    Takes (Decoration.parse steps) (d.tokens ++ rest) rest (·.withoutSpans = d.withoutSpans) := by
  rw [tokens, cons_append, cons_append]
  refine takes_start fun start => takes_advance (takes_ident fun name hnm => ?_)
  have hspan : ∀ args, args.withoutSpans = d.args.withoutSpans →
      Takes (do return (⟨name, args, ← spanFrom start⟩ : Decoration)) rest rest
        (·.withoutSpans = d.withoutSpans) := by
    refine fun args hargs => takes_spanFrom fun _ => takes_pure ?_
    rw [withoutSpans, withoutSpans, hnm, hargs]
  by_cases hbare : d.args = .bare
  · rw [hbare] at hspan ⊢
    exact takes_else (hparen hbare) (hspan .bare rfl)
  · obtain ⟨inner, hin, htakes⟩ := h.args.takes hbare
    rw [hin, inParens, append_assoc, cons_append]
    refine takes_if rfl (takes_advance (htakes.bind fun args hargs => ?_))
    exact takes_expectMark (hspan args hargs)

/-- Decorations are read back up to something that goes on with none of them. -/
theorem Decoration.takes_parseList {ds : List Decoration} (h : ∀ d ∈ ds, d.WellFormed)
    (hsign : rest.headD .eof ≠ .punct .atSign)
    (hparen : EndsBare ds → rest.headD .eof ≠ .punct .openParen) :
    Takes (parseList steps) (ds.flatMap tokens ++ rest) rest
      fun ds' => ds'.map withoutSpans = ds.map withoutSpans := by
  induction ds generalizing steps with
  | nil =>
    obtain _ | steps := steps
    · exact takes_stalled rfl
    exact takes_else hsign (takes_pure rfl)
  | cons d ds ih =>
    obtain _ | steps := steps
    · exact takes_stalled rfl
    have hfollow : d.args = .bare → (ds.flatMap tokens ++ rest).headD .eof ≠ .punct .openParen := by
      intro hbare
      cases ds with
      | nil => exact hparen hbare
      | cons e ds => exact fun heq => by cases heq
    have hoth : EndsBare ds → rest.headD .eof ≠ .punct .openParen := by
      cases ds with
      | nil => exact False.elim
      | cons e ds => exact hparen
    rw [parseList_succ, flatMap_cons, append_assoc]
    refine takes_if rfl (((h d mem_cons_self).takes hfollow).bind fun d' hd' => ?_)
    refine (ih (fun e he => h e (mem_cons_of_mem d he)) hoth).bind fun ds' hds' => ?_
    refine takes_pure ?_
    rw [map_cons, map_cons, hd', hds']

/-! ### Members -/

theorem Expr.takes_parseInitializer (h : ∀ e, value = some e → e.Fits 0 0)
    (hrest : (rest.headD .eof).isEnd) :
    Takes (parseInitializer steps) (initializerTokens value ++ rest) rest
      fun value' => value'.map withoutSpans = value.map withoutSpans := by
  cases value with
  | none =>
    refine takes_else (fun heq => ?_) (takes_pure rfl)
    have heq : rest.headD .eof = .punct .assign := heq
    rw [heq] at hrest
    cases hrest
  | some e =>
    refine takes_if rfl (takes_advance ?_)
    refine ((h e rfl).readBack _ (stops_of_isEnd hrest 0)).bind fun e' he' => ?_
    exact takes_pure (congrArg some he')

theorem TypeExpr.WellFormed.exists_tokens_cons (h : t.WellFormed) (inside : Bool) :
    ∃ u us, t.tokens inside = u :: us ∧ (u = .punct .openParen ∨ ∃ text, u = .ident text) := by
  induction h generalizing inside with
  | named => exact ⟨_, _, rfl, Or.inr ⟨_, rfl⟩⟩
  | array _ ih =>
    obtain ⟨u, us, hu, hfst⟩ := ih true
    exact ⟨u, us ++ [.punct .openBracket, .punct .closeBracket],
      by rw [tokens, hu, cons_append], hfst⟩
  | @union variants span hlen hvs ih =>
    cases inside with
    | true => exact ⟨.punct .openParen, _, by rw [tokens, if_pos rfl]; rfl, Or.inl rfl⟩
    | false =>
      obtain _ | ⟨first, others⟩ := variants
      · cases hlen
      · obtain ⟨u, us, hu, hfst⟩ := ih first mem_cons_self true
        refine ⟨u, us ++ (tokensOfParts others).flatMap (.punct .bar :: ·), ?_, hfst⟩
        rw [tokens, if_neg Bool.false_ne_true, tokensOfParts, separated, hu, cons_append]

theorem Decoration.exists_tokens_cons (ds : List Decoration) {t : Token} (h : t.isEnd = false) :
    ∃ u us, ds.flatMap tokens ++ (t :: ts) = u :: us ∧ u.isEnd = false := by
  cases ds with
  | nil => exact ⟨t, ts, rfl, h⟩
  | cons d ds => exact ⟨_, _, rfl, rfl⟩

theorem SchemaProperty.WellFormed.item {q : SchemaProperty} (h : q.WellFormed) :
    TakesItem SchemaProperty.parse SchemaProperty.tokens SchemaProperty.withoutSpans q := by
  obtain ⟨t, ts, ht, hfst⟩ := h.type.exists_tokens_cons false
  refine ⟨?_, fun {steps more} hmore => ?_⟩
  · rw [tokens, append_assoc, ht, cons_append]
    refine Decoration.exists_tokens_cons q.decorations ?_
    rcases hfst with rfl | ⟨text, rfl⟩ <;> rfl
  rw [tokens, append_assoc, append_assoc, cons_append]
  refine takes_start fun _ => ?_
  refine (Decoration.takes_parseList h.decorations ?_ ?_).bind fun ds hds => ?_
  · rw [ht]
    rintro rfl
    rcases hfst with hfst | ⟨text, hfst⟩ <;> cases hfst
  · intro hbare
    obtain ⟨name, hnm⟩ := h.startsWithName hbare
    rw [ht] at hnm ⊢
    cases hnm
    exact fun heq => by cases heq
  refine (h.type.takes_parse_cons (TypeExpr.endsAt_ofName _)).bind fun type hty => ?_
  refine takes_name fun name hnm => ?_
  refine (Expr.takes_parseInitializer h.default hmore).bind fun value hval => ?_
  refine takes_spanFrom fun _ => takes_pure ?_
  rw [withoutSpans, withoutSpans, hds, hty, hnm, hval]

theorem Init.item {i : Init} (h : i.value.Fits 0 0) :
    TakesItem Init.parse Init.tokens Init.withoutSpans i := by
  refine ⟨⟨_, _, rfl, isEnd_ofName _⟩, fun {steps more} hmore => ?_⟩
  refine takes_start fun _ => takes_name fun name hnm => takes_expectMark ?_
  refine (h.readBack _ (stops_of_isEnd hmore 0)).bind fun value hval => ?_
  refine takes_spanFrom fun _ => takes_pure ?_
  rw [withoutSpans, withoutSpans, hnm, hval]

theorem Init.takes_parseBody {body : List Init} (h : ∀ i ∈ body, i.value.Fits 0 0) :
    Takes (parseBody steps) (inBraces (body.map tokens) ++ rest) rest
      fun body' => body'.map withoutSpans = body.map withoutSpans :=
  bracketed.takes_inBraces (fun i hi => item (h i hi)) fun _ hbody => takes_pure hbody

theorem Param.WellFormed.item {q : Param} (h : q.WellFormed) :
    TakesItem Param.parse Param.tokens Param.withoutSpans q := by
  obtain ⟨t, ts, ht, hfst⟩ := h.type.exists_tokens_cons false
  refine ⟨⟨t, ts ++ [.ident q.name.text], ?_, ?_⟩, fun {steps more} hmore => ?_⟩
  · rw [tokens, ht, cons_append]
  · rcases hfst with rfl | ⟨text, rfl⟩ <;> rfl
  rw [tokens, append_assoc]
  refine takes_start fun _ => ?_
  refine (h.type.takes_parse_cons (TypeExpr.endsAt_ident _)).bind fun type hty => ?_
  refine takes_ident fun name hnm => takes_spanFrom fun _ => takes_pure ?_
  rw [withoutSpans, withoutSpans, hnm, hty]

/-! ### Declarations -/

namespace Decl

section Readers

variable {steps start : Nat} {ds : List Decoration} {rest : List Token}

theorem takes_parseSchema {d : SchemaDecl} (h : ∀ q ∈ d.properties, q.WellFormed)
    (hds : ds.map Decoration.withoutSpans = d.decorations.map Decoration.withoutSpans) :
    Takes (parseSchema steps ds start)
      (.ident d.name.text :: (inBraces (d.properties.map SchemaProperty.tokens) ++ rest)) rest
      (·.withoutSpans = (schema d).withoutSpans) := by
  refine takes_ident fun name hnm => ?_
  refine SchemaProperty.bracketed.takes_inBraces (fun q hq => (h q hq).item)
    fun qs hqs => takes_spanFrom fun _ => takes_pure ?_
  rw [withoutSpans, withoutSpans, hds, hnm, hqs]

theorem takes_parseResource {d : ResourceDecl} (h : ∀ i ∈ d.body, i.value.Fits 0 0)
    (hds : ds.map Decoration.withoutSpans = d.decorations.map Decoration.withoutSpans) :
    Takes (parseResource steps ds start)
      (.ident d.schema.text :: .ident d.name.text :: (inBraces (d.body.map Init.tokens) ++ rest))
      rest (·.withoutSpans = (resource d).withoutSpans) := by
  refine takes_ident fun schema hsch => takes_ident fun name hnm => ?_
  refine (Init.takes_parseBody h).bind fun body hbody => takes_spanFrom fun _ => takes_pure ?_
  rw [withoutSpans, withoutSpans, hds, hsch, hnm, hbody]

theorem takes_typed {type : TypeExpr} {name : Ident} (hty : type.WellFormed)
    (hval : ∀ e, value = some e → e.Fits 0 0) (hrest : (rest.headD .eof).isEnd)
    {k : TypeExpr → Ident → Option Expr → Span → Decl} {Q : Decl → Prop}
    (hk : ∀ type' name' value' span, type'.withoutSpans = type.withoutSpans →
      name'.withoutSpan = name.withoutSpan →
      value'.map Expr.withoutSpans = value.map Expr.withoutSpans → Q (k type' name' value' span)) :
    Takes (do
        let type ← TypeExpr.parse steps
        let name ← ident
        let value ← Expr.parseInitializer steps
        return k type name value (← spanFrom start))
      (type.tokens false ++ .ident name.text :: (Expr.initializerTokens value ++ rest)) rest Q := by
  refine (hty.takes_parse_cons (TypeExpr.endsAt_ident _)).bind fun type' hty' => ?_
  refine takes_ident fun name' hnm' => ?_
  refine (Expr.takes_parseInitializer hval hrest).bind fun value' hval' => ?_
  exact takes_spanFrom fun span => takes_pure (hk type' name' value' span hty' hnm' hval')

/-- Whether a variable has a type shows in the token behind the first. -/
theorem takes_parseVar {d : VarDecl} (hty : ∀ t, d.type = some t → t.WellFormed)
    (hval : d.value.Fits 0 0)
    (hds : ds.map Decoration.withoutSpans = d.decorations.map Decoration.withoutSpans)
    (hrest : (rest.headD .eof).isEnd) :
    Takes (parseVar steps ds start)
      (TypeExpr.optionalTokens d.type ++
        .ident d.name.text :: .punct .assign :: (d.value.tokens ++ rest)) rest
      (·.withoutSpans = (var d).withoutSpans) := by
  have htyd : Takes (do if ← isAtAssignment then pure none else some <$> TypeExpr.parse steps)
      (TypeExpr.optionalTokens d.type ++
        .ident d.name.text :: .punct .assign :: (d.value.tokens ++ rest))
      (.ident d.name.text :: .punct .assign :: (d.value.tokens ++ rest))
      fun type => type.map TypeExpr.withoutSpans = d.type.map TypeExpr.withoutSpans := by
    cases hcase : d.type with
    | none => exact takes_isAtAssignment (takes_pure rfl)
    | some type =>
      have hwell := hty type hcase
      obtain ⟨t, ts, ht, -⟩ := hwell.exists_tokens_cons false
      refine takes_not_isAtAssignment ?_ ((hwell.takes_parse_cons (TypeExpr.endsAt_ident _)).map
        fun type' hty' => congrArg some hty')
      refine tail_append_ne_assign (hwell.inner false) ?_ (fun heq => by cases heq)
      rw [TypeExpr.optionalTokens, ht]
      exact cons_ne_nil t ts
  refine htyd.ite_bind fun type hty => takes_ident fun name hnm => takes_expectMark ?_
  refine (hval.readBack _ (stops_of_isEnd hrest 0)).bind fun value hval => ?_
  refine takes_spanFrom fun _ => takes_pure ?_
  rw [withoutSpans, withoutSpans, hds, hty, hnm, hval]

/-- A function is read back from its parameters on. -/
theorem takes_parseFunction {d : FunDecl} (hps : ∀ q ∈ d.params, q.WellFormed)
    (hrt : ∀ t, d.result = some t → t.WellFormed) (hbody : d.body.Fits 0 0)
    (hds : ds.map Decoration.withoutSpans = d.decorations.map Decoration.withoutSpans) :
    Takes (parseFunction steps ds start)
      (.ident d.name.text :: (inParens (separated .comma (d.params.map Param.tokens)) ++
        (TypeExpr.optionalTokens d.result ++ (inBraces [d.body.tokens] ++ rest)))) rest
      (·.withoutSpans = (function d).withoutSpans) := by
  -- Parameters and the result may be absent, which the next mark shows.
  have hlist : ∀ more, Takes (do if ← isAt .closeParen then pure [] else Param.parseList steps)
      (separated .comma (d.params.map Param.tokens) ++ .punct .closeParen :: more)
      (.punct .closeParen :: more)
      fun params => params.map Param.withoutSpans = d.params.map Param.withoutSpans := by
    intro more
    cases hcase : d.params with
    | nil => exact takes_if rfl (takes_pure rfl)
    | cons q qs =>
      rw [hcase] at hps
      obtain ⟨t, ts, ht, hend⟩ := (hps q mem_cons_self).item.head
      refine takes_else ?_ (Param.commas.takes_separated (cons_ne_nil q qs)
        (fun q hq => (hps q hq).item) rfl (by simp))
      rw [map_cons, separated, ht]
      rintro rfl
      cases hend
  have htyd : ∀ more, Takes
      (do if ← isAt .openBrace then pure none else some <$> TypeExpr.parse steps)
      (TypeExpr.optionalTokens d.result ++ .punct .openBrace :: more) (.punct .openBrace :: more)
      fun result => result.map TypeExpr.withoutSpans = d.result.map TypeExpr.withoutSpans := by
    intro more
    cases hcase : d.result with
    | none => exact takes_if rfl (takes_pure rfl)
    | some type =>
      have hwell := hrt type hcase
      obtain ⟨t, ts, ht, hfst⟩ := hwell.exists_tokens_cons false
      refine takes_else ?_ ((hwell.takes_parse_cons ⟨by decide, by decide⟩).map
        fun type' hty' => congrArg some hty')
      rw [TypeExpr.optionalTokens, ht]
      rintro rfl
      rcases hfst with hfst | ⟨text, hfst⟩ <;> cases hfst
  rw [inParens, append_assoc, cons_append, inBraces, separated_singleton, append_assoc, cons_append]
  refine takes_ident fun name hnm => takes_expectMark ?_
  refine (hlist _).ite_bind fun params hps => takes_expectMark ?_
  refine (htyd _).ite_bind fun result hrt => takes_expectMark ?_
  refine (hbody.readBack _ (stops_of_isEnd rfl 0)).bind fun body hbody => ?_
  refine takes_skipSeparators (takes_expectMark (takes_spanFrom fun _ => takes_pure ?_))
  rw [withoutSpans, withoutSpans, hds, hnm, hps, hrt, hbody]

theorem takes_parseAlias {d : AliasDecl} (hty : d.type.WellFormed)
    (hds : ds.map Decoration.withoutSpans = d.decorations.map Decoration.withoutSpans)
    (hrest : (rest.headD .eof).isEnd) :
    Takes (parseAlias steps ds start)
      (.ident d.name.text :: .punct .assign :: (d.type.tokens false ++ rest)) rest
      (·.withoutSpans = (Decl.alias d).withoutSpans) := by
  refine takes_ident fun name hnm => takes_expectMark ?_
  refine (hty.takes_parse (TypeExpr.endsAt_of_isEnd hrest)).bind fun type hty => ?_
  refine takes_spanFrom fun _ => takes_pure ?_
  rw [withoutSpans, withoutSpans, hds, hnm, hty]

def parseCore (steps : Nat) (decs : List Decoration) (start : Nat) : Parse Decl := do
  match ← token with
  | .keyword .schema => advance; parseSchema steps decs start
  | .keyword .resource => advance; parseResource steps decs start
  | .keyword .component => advance; parseComponent steps decs start
  | .keyword .input => advance; parseInput steps decs start
  | .keyword .output => advance; parseOutput steps decs start
  | .keyword .variable => advance; parseVar steps decs start
  | .keyword .function => advance; parseFunction steps decs start
  | .keyword .alias => advance; parseAlias steps decs start
  | other => throw (.expectedDeclaration other)

theorem parse_succ (steps : Nat) : parse (steps + 1) = (do
    let start ← Parse.start
    let decs ← Decoration.parseList steps
    parseCore steps decs start) := by
  rw [parse]
  rfl

/-- A declaration is read back behind its decorations. -/
structure TakenCore (d : Decl) : Prop where
  head : ∃ word ts, d.coreTokens = .keyword word :: ts
  takes : ∀ {steps start : Nat} {ds : List Decoration} {rest : List Token},
    (rest.headD .eof).isEnd →
    ds.map Decoration.withoutSpans = d.decorations.map Decoration.withoutSpans →
    Takes (parseCore steps ds start) (d.coreTokens ++ rest) rest
      (·.withoutSpans = d.withoutSpans)

theorem TakenCore.item (h : TakenCore d) (hdecs : ∀ a ∈ d.decorations, a.WellFormed) :
    TakesItem parse tokens withoutSpans d := by
  obtain ⟨word, ts, hword⟩ := h.head
  refine ⟨?_, fun {steps more} hmore => ?_⟩
  · rw [tokens, hword]
    exact Decoration.exists_tokens_cons d.decorations rfl
  obtain _ | steps := steps
  · exact takes_stalled (by rw [parse])
  rw [parse_succ, tokens, append_assoc]
  refine takes_start fun start => ?_
  refine (Decoration.takes_parseList hdecs ?_ fun _ => ?_).bind
    fun ds hds => h.takes hmore hds
  · rw [hword]
    exact fun heq => by cases heq
  · rw [hword]
    exact fun heq => by cases heq

theorem takes_parseComponent_inst {d : InstanceDecl} (h : ∀ i ∈ d.body, i.value.Fits 0 0)
    (hds : ds.map Decoration.withoutSpans = d.decorations.map Decoration.withoutSpans) :
    Takes (parseComponent steps ds start)
      (.ident d.component.text :: .ident d.name.text ::
        (inBraces (d.body.map Init.tokens) ++ rest)) rest
      (·.withoutSpans = (inst d).withoutSpans) := by
  obtain _ | steps := steps
  · exact takes_stalled (by rw [parseComponent])
  rw [parseComponent]
  refine takes_ident fun comp hcomp => takes_token (takes_ident fun name hnm => ?_)
  refine (Init.takes_parseBody h).bind fun body hbody => takes_spanFrom fun _ => takes_pure ?_
  rw [withoutSpans, withoutSpans, hds, hcomp, hnm, hbody]

theorem takes_parseComponent {decs : List Decoration} {name : Ident} {body : List Decl}
    {span : Span} (h : ∀ d ∈ body, TakesItem parse tokens withoutSpans d)
    (hds : ds.map Decoration.withoutSpans = decs.map Decoration.withoutSpans) :
    Takes (parseComponent steps ds start)
      (.ident name.text :: (inBraces (body.map tokens) ++ rest)) rest
      (·.withoutSpans = (component decs name body span).withoutSpans) := by
  obtain _ | steps := steps
  · exact takes_stalled (by rw [parseComponent])
  rw [parseComponent]
  refine takes_ident fun name' hnm' => takes_token ?_
  refine bracketed_body.takes_inBraces h fun ds' hds' => takes_spanFrom fun _ => takes_pure ?_
  rw [withoutSpans, withoutSpans, hds, hnm', allWithoutSpans_eq, allWithoutSpans_eq, hds']

/-- Every declaration is read back, members of components included. -/
theorem WellFormedCore.taken (h : d.WellFormedCore) : TakenCore d := by
  induction h with
  | schema _ hprops =>
    refine ⟨⟨_, _, rfl⟩, fun _ hds => ?_⟩
    exact takes_token (takes_advance (takes_parseSchema hprops hds))
  | resource _ _ hbody =>
    refine ⟨⟨_, _, rfl⟩, fun _ hds => ?_⟩
    exact takes_token (takes_advance (takes_parseResource hbody hds))
  | component _ _ hdecs ih =>
    refine ⟨⟨_, _, rfl⟩, fun _ hds => ?_⟩
    rw [coreTokens, tokensOfAll_eq]
    refine takes_token (takes_advance (takes_parseComponent (fun d hd => ?_) hds))
    exact (ih d hd).item (hdecs d hd)
  | inst _ _ hbody =>
    refine ⟨⟨_, _, rfl⟩, fun _ hds => ?_⟩
    exact takes_token (takes_advance (takes_parseComponent_inst hbody hds))
  | input hty _ hdefault =>
    refine ⟨⟨_, _, rfl⟩, fun hrest hds => ?_⟩
    rw [coreTokens, append_assoc, cons_append, cons_append]
    refine takes_token (takes_advance (takes_typed hty hdefault hrest ?_))
    intro type name value span hty hnm hval
    rw [withoutSpans, withoutSpans, hds, hty, hnm, hval]
    rfl
  | output hty _ hval =>
    refine ⟨⟨_, _, rfl⟩, fun hrest hds => ?_⟩
    rw [coreTokens, append_assoc, cons_append, cons_append]
    refine takes_token (takes_advance (takes_typed hty hval hrest ?_))
    intro type name value span hty hnm hval
    rw [withoutSpans, withoutSpans, hds, hty, hnm, hval]
    rfl
  | var hty _ hval =>
    refine ⟨⟨_, _, rfl⟩, fun hrest hds => ?_⟩
    rw [coreTokens, append_assoc, cons_append, cons_append, cons_append]
    exact takes_token (takes_advance (takes_parseVar hty hval hds hrest))
  | function _ hps hrt hbody =>
    refine ⟨⟨_, _, rfl⟩, fun _ hds => ?_⟩
    rw [coreTokens, append_assoc, cons_append, cons_append, append_assoc]
    exact takes_token (takes_advance (takes_parseFunction hps hrt hbody hds))
  | «alias» _ hty =>
    refine ⟨⟨_, _, rfl⟩, fun hrest hds => ?_⟩
    exact takes_token (takes_advance (takes_parseAlias hty hds hrest))

theorem WellFormed.item (h : d.WellFormed) : TakesItem parse tokens withoutSpans d :=
  h.core.taken.item h.decorations

theorem members_parseAll : Members parseAll parse (do return decide ((← token) = .eof)) [] where
  zero := rfl
  succ steps := by
    rw [parseAll]
    simp only [bind_assoc, pure_bind, decide_eq_true_eq]
  isEnd := rfl
  not_separator := rfl
  done := takes_headD (takes_pure rfl)
  not_done {ts} hts := by
    refine takes_headD (takes_pure (decide_eq_false fun heq => ?_))
    rw [heq] at hts
    cases hts

theorem takes_parseAll {decls : List Decl} (h : ∀ d ∈ decls, d.WellFormed) (steps : Nat) :
    Takes (parseAll steps) (separated .semicolon (tokensOfAll decls)) []
      fun ds => allWithoutSpans ds = allWithoutSpans decls := by
  rw [tokensOfAll_eq]
  simp only [allWithoutSpans_eq]
  have hmark : Cursor.isSeparator (.punct .semicolon) := rfl
  have hread := members_parseAll.takes_separated hmark (fun d hd => (h d hd).item)
    (forall_mem_nil _) steps
  rwa [nil_append, append_nil] at hread

end Readers

end Decl

/-! ### Programs -/

theorem Program.WellFormed.readable {p : Program} (h : p.WellFormed) :
    ∀ t ∈ p.tokens, t.Readable := by
  rw [Program.tokens, tokensOfAll_eq]
  exact (forall_mem_separated trivial).mpr (forall_mem_map.mpr fun d hd => (h d hd).readable)

theorem Program.WellFormed.exists_parse_render {p : Program} (h : p.WellFormed)
    (numerals : Numerals) :
    ∃ p', Program.parse (p.render numerals) = .ok p' ∧ p'.withoutSpans = p.withoutSpans := by
  have htoks := map_token_scanBytes numerals h.readable
  have hstl := (Program.parse_cases (p.render numerals)).1
  rw [Program.parse, Program.render, String.toList_ofList] at hstl ⊢
  generalize scanBytes (Text.encode (textOf numerals p.tokens)) = lexemes at htoks hstl ⊢
  let cursor : Cursor := ⟨lexemes, (Text.encode (textOf numerals p.tokens)).length, 0⟩
  rw [parseTokens] at hstl ⊢
  rcases takes_parseAll h (stepsFor lexemes.length) cursor htoks with
    hrun | ⟨items, c, hrun, -, hits⟩
  · rw [hrun] at hstl
    exact absurd rfl hstl
  · refine ⟨⟨items, ⟨cursor.current.span.start, cursor.size⟩⟩, ?_, ?_⟩
    · rw [hrun]
      rfl
    · rw [withoutSpans, withoutSpans, hits]

/-- **Reading back**: a program that was read is the same, up to its spans, when it is written down
and read again. -/
theorem Program.parse_render {source : String} {p : Program} (h : Program.parse source = .ok p)
    (numerals : Numerals) :
    ∃ p', Program.parse (p.render numerals) = .ok p' ∧ p'.withoutSpans = p.withoutSpans :=
  (Program.wellFormed_of_parse h).exists_parse_render numerals

namespace Program

/-- Names and values that need care: a union in an array, a word that starts declarations and a
string as names, several arguments, operators that group both ways, marks that could continue a
value. -/
def intricate : String :=
  "@a @b() schema S \x7b @c(1, 'x') (T | any)[] 'odd \\' name' = -1.5, T type \x7d " ++
  "component C \x7b var z = !a.b(1) - -(3 + 4) * 5 @d(p = 1) input T x \x7d"

instance : Spelled intricate := ⟨_, (String.ofList_append ..).trans (congrArg₂ _ rfl rfl)⟩

theorem parse_render_intricate : ∃ p p', Program.parse intricate = .ok p ∧ p.items.length = 2 ∧
    Program.parse (p.render Numerals.exact) = .ok p' ∧ p'.withoutSpans = p.withoutSpans := by
  have hrun : ((Program.parse intricate).toOption.any fun p => p.items.length == 2) = true := by
    decide +kernel
  obtain ⟨p, hprs, hlen⟩ := Checker.exists_of_parse hrun
  obtain ⟨p', hread, hsame⟩ := parse_render hprs Numerals.exact
  exact ⟨p, p', hprs, beq_iff_eq.mp hlen, hread, hsame⟩

end Program

end Provision
