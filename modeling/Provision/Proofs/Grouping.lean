import Provision.Proofs.Reading

/-!
# How operators group

The tree of an expression that was read has its operators grouped by their levels
(`Expr.Grouped`), and read in order it is the tokens that were taken (`Expr.ReadsAs`): only the
separators in arrays and objects leave no trace in it.

`Parse.Spends ts m Q` says of a reader `m` that is started before the tokens `ts` which of them it
spends. The loop that reads what follows an operand carries two facts: the operand in hand was read
with at least the power of the loop (`Expr.Binds`), and it ends before the current token
(`Expr.Ends`), so whatever it is taken into binds no tighter.
-/

namespace Provision

open Token List

variable {power : Nat} {e : Expr} {span : Span} {ts : List Token}

/-- The level of an operator: `||`, `&&`, equality, order, sums, products. -/
def BinaryOp.level : BinaryOp → Nat
  | .or => 0
  | .and => 1
  | .eq | .ne => 2
  | .lt | .le | .gt | .ge => 3
  | .add | .sub => 4
  | .mul | .div => 5

theorem BinaryOp.level_le_iff (a b : BinaryOp) : a.level ≤ b.level ↔ a.power ≤ b.power := by
  cases a <;> cases b <;> decide

theorem BinaryOp.mark_of_ofMark? {mark : Punct} {op : BinaryOp} (h : ofMark? mark = some op) :
    op.mark = mark := by
  cases mark with
  | either | both | equal | notEqual | less | lessEqual | greater | greaterEqual | plus | minus
  | star | slash =>
    cases h
    rfl
  | _ => cases h

namespace Expr

def operator? : Expr → Option BinaryOp
  | .binary _ op _ _ => some op
  | _ => none

/-- Operators group by their levels, those of one level to the left; an operator before an operand
binds tighter than those between operands, and access to a member and a call tighter still. -/
inductive Grouped : Expr → Prop
  | lit {value : Lit} {span : Span} : Grouped (.lit value span)
  | var {name : Ident} : Grouped (.var name)
  | paren {inner : Expr} {span : Span} (hin : Grouped inner) : Grouped (.paren inner span)
  | array {items : List Expr} {span : Span} (hits : ∀ e ∈ items, Grouped e) :
      Grouped (.array items span)
  | object {fields : List ObjectField} {span : Span} (hflds : ∀ f ∈ fields, Grouped f.value) :
      Grouped (.object fields span)
  | unary {op : UnaryOp} {operand : Expr} {span : Span} (hoperand : Grouped operand)
      (hplain : operand.operator? = none) : Grouped (.unary op operand span)
  | member {base : Expr} {field : Ident} {span : Span} (hbase : Grouped base)
      (hplain : base.isOperation = false) : Grouped (.member base field span)
  | call {callee : Expr} {args : List Expr} {span : Span} (hcallee : Grouped callee)
      (hplain : callee.isOperation = false) (hargs : ∀ a ∈ args, Grouped a) :
      Grouped (.call callee args span)
  | binary {lhs : Expr} {op : BinaryOp} {rhs : Expr} {span : Span} (hlhs : Grouped lhs)
      (hleft : ∀ inner ∈ lhs.operator?, op.level ≤ inner.level) (hrhs : Grouped rhs)
      (hright : ∀ inner ∈ rhs.operator?, op.level < inner.level) :
      Grouped (.binary lhs op rhs span)

mutual

/-- Read in order, the expression is made of the tokens. The name of a member or of a key is any
token that stands for it. -/
inductive ReadsAs : Expr → List Token → Prop
  | lit {value : Lit} {span : Span} : ReadsAs (.lit value span) [value.token]
  | var {name : Ident} : ReadsAs (.var name) [.ident name.text]
  | member {base : Expr} {field : Ident} {span : Span} {ts : List Token} {t : Token}
      (hbase : ReadsAs base ts) (hfield : Parse.nameOf? t = some field.text) :
      ReadsAs (.member base field span) (ts ++ [.punct .dot, t])
  | array {items : List Expr} {span : Span} {ts : List Token} (hits : ItemsReadAs items ts) :
      ReadsAs (.array items span) (.punct .openBracket :: ts ++ [.punct .closeBracket])
  | object {fields : List ObjectField} {span : Span} {ts : List Token}
      (hflds : FieldsReadAs fields ts) :
      ReadsAs (.object fields span) (.punct .openBrace :: ts ++ [.punct .closeBrace])
  | unary {op : UnaryOp} {operand : Expr} {span : Span} {ts : List Token}
      (hoperand : ReadsAs operand ts) : ReadsAs (.unary op operand span) (.punct op.mark :: ts)
  | call {callee : Expr} {args : List Expr} {span : Span} {ts us : List Token}
      (hcallee : ReadsAs callee ts) (hargs : ArgsReadAs args us) :
      ReadsAs (.call callee args span) (ts ++ inParens us)
  | binary {lhs : Expr} {op : BinaryOp} {rhs : Expr} {span : Span} {ts us : List Token}
      (hlhs : ReadsAs lhs ts) (hrhs : ReadsAs rhs us) :
      ReadsAs (.binary lhs op rhs span) (ts ++ .punct op.mark :: us)
  | paren {inner : Expr} {span : Span} {ts : List Token} (hin : ReadsAs inner ts) :
      ReadsAs (.paren inner span) (inParens ts)

/-- Elements of an array with any separators around them. -/
inductive ItemsReadAs : List Expr → List Token → Prop
  | nil {seps : List Token} (hseps : ∀ t ∈ seps, Cursor.isSeparator t) : ItemsReadAs [] seps
  | cons {seps ts us : List Token} {e : Expr} {es : List Expr}
      (hseps : ∀ t ∈ seps, Cursor.isSeparator t) (he : ReadsAs e ts) (hes : ItemsReadAs es us) :
      ItemsReadAs (e :: es) (seps ++ ts ++ us)

/-- Fields of an object with any separators around them. -/
inductive FieldsReadAs : List ObjectField → List Token → Prop
  | nil {seps : List Token} (hseps : ∀ t ∈ seps, Cursor.isSeparator t) : FieldsReadAs [] seps
  | cons {seps ts us : List Token} {t : Token} {key : Ident} {value : Expr} {span : Span}
      {fs : List ObjectField} (hseps : ∀ t ∈ seps, Cursor.isSeparator t)
      (hkey : Parse.nameOf? t = some key.text) (hval : ReadsAs value ts)
      (hfs : FieldsReadAs fs us) :
      FieldsReadAs (.mk key value span :: fs) (seps ++ t :: .punct .colon :: ts ++ us)

/-- Arguments of a call with a comma between one and the next. -/
inductive ArgsReadAs : List Expr → List Token → Prop
  | nil : ArgsReadAs [] []
  | singleton {e : Expr} {ts : List Token} (he : ReadsAs e ts) : ArgsReadAs [e] ts
  | cons {e next : Expr} {es : List Expr} {ts us : List Token} (he : ReadsAs e ts)
      (hes : ArgsReadAs (next :: es) us) :
      ArgsReadAs (e :: next :: es) (ts ++ .punct .comma :: us)

end

end Expr

/-! ### Tokens that a reader spends -/

namespace Parse

variable {α β : Type} {ts : List Token} {m : Parse α} {f : α → Parse β}
  {Q : α → List Token → List Token → Prop} {R : β → List Token → List Token → Prop}

/-- Of the tokens that come next a reader spends those at the front: its result, the tokens spent
and the tokens left have the property `Q`. -/
def Spends (ts : List Token) (m : Parse α) (Q : α → List Token → List Token → Prop) : Prop :=
  ∀ c a c', c.tokens = ts → m.run c = .ok (a, c') →
    ∃ spent, ts = spent ++ c'.tokens ∧ Q a spent c'.tokens

theorem spends_pure {a : α} (h : Q a [] ts) : Spends ts (pure a) Q := by
  rintro c _ _ rfl ⟨⟩
  exact ⟨[], rfl, h⟩

theorem spends_throw (e : ParseError) : Spends ts (throw e : Parse α) Q := by
  rintro c a c' - ⟨⟩

theorem Spends.bind (hm : Spends ts m Q)
    (hf : ∀ a spent left, Q a spent left →
      Spends left (f a) fun b more left' => R b (spent ++ more) left') :
    Spends ts (m >>= f) R := by
  intro c b c'' hc hrun
  obtain ⟨a, c', hrun, hrun'⟩ := exists_of_run_bind hrun
  obtain ⟨spent, hspent, ha⟩ := hm c a c' hc hrun
  obtain ⟨more, hmore, hb⟩ := hf a spent _ ha c' b c'' rfl hrun'
  refine ⟨spent ++ more, ?_, hb⟩
  rw [hspent, hmore, append_assoc]

theorem Spends.imp {Q' : α → List Token → List Token → Prop} (h : Spends ts m Q)
    (hQ : ∀ a spent left, Q a spent left → Q' a spent left) : Spends ts m Q' := by
  intro c a c' hc hrun
  obtain ⟨spent, hspent, ha⟩ := h c a c' hc hrun
  exact ⟨spent, hspent, hQ a spent _ ha⟩

/-! ### Single tokens -/

theorem exists_cons_of_headD {t : Token} (h : ts.headD .eof = t) (ht : t ≠ .eof) :
    ∃ rest, ts = t :: rest := by
  cases ts with
  | nil => exact absurd h.symm ht
  | cons u rest => exact ⟨rest, by rw [show u = t from h]⟩

theorem spends_look (g : Cursor → α) (h : ∀ c : Cursor, c.tokens = ts → Spends ts (f (g c)) R) :
    Spends ts ((do return g (← get)) >>= f) R :=
  fun c b c' hc hrun => h c hc c b c' hc hrun

theorem spends_token {f : Token → Parse β} (h : Spends ts (f (ts.headD .eof)) R) :
    Spends ts (token >>= f) R := by
  refine spends_look _ fun c hc => ?_
  rw [c.token_current, hc]
  exact h

theorem spends_current {f : Lexeme → Parse β} (h : ∀ span, Spends ts (f ⟨ts.headD .eof, span⟩) R) :
    Spends ts (current >>= f) R := by
  refine spends_look _ fun c hc => ?_
  have hspan := h c.current.span
  rw [← hc, ← c.token_current, hc] at hspan
  exact hspan

theorem spends_spanFrom {n : Nat} {f : Span → Parse β} (h : ∀ span, Spends ts (f span) R) :
    Spends ts (spanFrom n >>= f) R :=
  spends_look _ fun _ _ => h _

theorem spends_if {mark : Punct} {m m' : Parse β}
    (hthen : ∀ rest, ts = .punct mark :: rest → Spends ts m R) (helse : Spends ts m' R) :
    Spends ts (isAt mark >>= fun b => if b then m else m') R := by
  refine spends_token (f := fun t => pure (t == .punct mark) >>= fun b => if b then m else m') ?_
  show Spends ts (if (ts.headD .eof == .punct mark) = true then m else m') R
  split
  · next hmark =>
    obtain ⟨rest, hrest⟩ := exists_cons_of_headD (beq_iff_eq.mp hmark) Token.noConfusion
    exact hthen rest hrest
  · exact helse

theorem spends_advance {t : Token} {f : Unit → Parse β}
    (h : Spends ts (f ()) fun b spent left => R b (t :: spent) left) :
    Spends (t :: ts) (advance >>= f) R := by
  intro c b c' hc hrun
  have htoks : c.advance.tokens = ts := by
    rw [c.tokens_advance, hc]
    rfl
  obtain ⟨spent, hspent, hb⟩ := h c.advance b c' htoks hrun
  exact ⟨t :: spent, by rw [hspent, cons_append], hb⟩

theorem spends_skipSeparators :
    Spends ts skipSeparators fun _ spent _ => ∀ t ∈ spent, Cursor.isSeparator t := by
  rintro c _ _ rfl ⟨⟩
  refine ⟨c.tokens.takeWhile Cursor.isSeparator, ?_, fun t ht => mem_takeWhile_imp ht⟩
  rw [c.tokens_skipSeparators]
  exact takeWhile_append_dropWhile.symm

theorem spends_expect {wanted : Token} (h : wanted ≠ .eof) :
    Spends ts (expect wanted) fun _ spent _ => spent = [wanted] := by
  refine spends_current fun span => ?_
  split
  · next hfound =>
    obtain ⟨rest, rfl⟩ := exists_cons_of_headD hfound h
    exact spends_advance (spends_pure rfl)
  · exact spends_throw _

theorem spends_expectMark (mark : Punct) :
    Spends ts (expectMark mark) fun _ spent _ => spent = [.punct mark] := by
  refine (spends_expect Token.noConfusion).bind fun _ spent left hspent => spends_pure ?_
  rw [hspent, append_nil]

theorem spends_name :
    Spends ts name fun n spent _ => ∃ t, nameOf? t = some n.text ∧ spent = [t] := by
  refine spends_current fun span => ?_
  cases ts with
  | nil => exact spends_throw _
  | cons t ts =>
    dsimp only [headD_cons]
    split
    · next text htext => exact spends_advance (spends_pure ⟨t, htext, rfl⟩)
    · exact spends_throw _

end Parse

open Parse

/-! ### The readers of expressions -/

namespace Expr

/-- Every operator that is outermost binds at least as tightly as `power`. -/
def Binds (power : Nat) (e : Expr) : Prop := ∀ op ∈ e.operator?, power ≤ op.power

/-- The expression was read from the tokens with the given power. -/
structure Found (power : Nat) (e : Expr) (ts : List Token) : Prop where
  grouped : e.Grouped
  binds : e.Binds power
  readsAs : e.ReadsAs ts

theorem binds_of_operator?_eq_none (h : e.operator? = none) : e.Binds power := by
  intro op hop
  rw [h] at hop
  cases hop

theorem Binds.operator?_eq_none (h : e.Binds UnaryOp.power) : e.operator? = none := by
  cases hop : e.operator? with
  | none => rfl
  | some op => exact absurd (h op hop) (Nat.not_le_of_lt op.power_lt)

theorem GroupsBefore.level_le {op inner : BinaryOp} (h : e.GroupsBefore op)
    (hin : inner ∈ e.operator?) : op.level ≤ inner.level := by
  rw [BinaryOp.level_le_iff]
  cases e with
  | binary lhs op' rhs span =>
    cases hin
    exact h
  | _ => cases hin

theorem Binds.level_lt {op inner : BinaryOp} (h : e.Binds (op.power + 1))
    (hin : inner ∈ e.operator?) : op.level < inner.level := by
  rw [← Nat.not_le, BinaryOp.level_le_iff, Nat.not_le]
  exact h inner hin

/-- What the readers of expressions spend. -/
structure Spending (steps : Nat) : Prop where
  parse : ∀ {ts depth power}, Spends ts (parse steps depth power) fun e spent left =>
    e.Found power spent ∧ (left.headD .eof).Stops power
  parseOperand : ∀ {ts depth}, Spends ts (parseOperand steps depth) fun e spent left =>
    (∀ power, e.Found power spent) ∧ e.Ends (left.headD .eof)
  parseRest : ∀ {ts depth power lhs before}, lhs.Found power before → lhs.Ends (ts.headD .eof) →
    Spends ts (parseRest steps depth power lhs) fun e spent left =>
      e.Found power (before ++ spent) ∧ (left.headD .eof).Stops power
  parseItems : ∀ {ts depth}, Spends ts (parseItems steps depth) fun es spent _ =>
    (∀ e ∈ es, e.Grouped) ∧ ItemsReadAs es spent
  parseFields : ∀ {ts depth}, Spends ts (parseFields steps depth) fun fs spent _ =>
    (∀ f ∈ fs, f.value.Grouped) ∧ FieldsReadAs fs spent
  parseCall : ∀ {ts depth}, Spends ts (parseCall steps depth) fun es spent _ =>
    (∀ e ∈ es, e.Grouped) ∧ ArgsReadAs es spent
  parseList : ∀ {ts depth}, Spends ts (parseList steps depth) fun es spent _ =>
    es ≠ [] ∧ (∀ e ∈ es, e.Grouped) ∧ ArgsReadAs es spent

variable {steps : Nat}

theorem found_lit {value : Lit} : Found power (.lit value span) [value.token] :=
  ⟨.lit, binds_of_operator?_eq_none rfl, .lit⟩

theorem Found.unary {operand : Expr} (h : operand.Found UnaryOp.power ts) (op : UnaryOp) :
    Found power (.unary op operand span) (.punct op.mark :: ts) :=
  ⟨.unary h.grouped h.binds.operator?_eq_none, binds_of_operator?_eq_none rfl,
    .unary h.readsAs⟩

theorem Found.paren {inner : Expr} (h : inner.Found 0 ts) :
    Found power (.paren inner span) (inParens ts) :=
  ⟨.paren h.grouped, binds_of_operator?_eq_none rfl, .paren h.readsAs⟩

/-- An operand has no operator outside, whatever the power. -/
theorem Spending.operand (h : Spending steps) {depth : Nat} :
    Spends ts (Expr.parseOperand (steps + 1) depth) fun e spent left =>
      (∀ power, e.Found power spent) ∧ e.Ends (left.headD .eof) := by
  rw [Expr.parseOperand]
  refine spends_current fun span => ?_
  cases ts with
  | nil => exact spends_throw _
  | cons t ts =>
    dsimp only [headD_cons]
    split
    · refine spends_advance (h.parse.bind fun e spent left he => spends_pure ?_)
      rw [append_nil]
      exact ⟨fun power => he.1.unary .not, he.2⟩
    · refine spends_advance (h.parse.bind fun e spent left he => spends_pure ?_)
      rw [append_nil]
      exact ⟨fun power => he.1.unary .neg, he.2⟩
    -- the tokens of the six kinds of literals
    iterate 6 exact spends_advance (spends_pure ⟨fun power => found_lit, trivial⟩)
    · refine spends_advance (spends_pure ⟨fun power => ?_, trivial⟩)
      exact ⟨.var, binds_of_operator?_eq_none rfl, .var⟩
    · refine spends_advance (h.parse.bind fun e spent left he => ?_)
      refine (spends_expect Token.noConfusion).bind fun _ _ _ hclose => spends_pure ?_
      rw [hclose, append_nil]
      exact ⟨fun power => he.1.paren, trivial⟩
    · refine spends_advance (h.parseItems.bind fun es spent left hes => ?_)
      refine (spends_expectMark _).bind fun _ _ _ hclose => spends_spanFrom fun span => ?_
      rw [hclose]
      exact spends_pure
        ⟨fun _ => ⟨.array hes.1, binds_of_operator?_eq_none rfl, .array hes.2⟩, trivial⟩
    · refine spends_advance (h.parseFields.bind fun fs spent left hfs => ?_)
      refine (spends_expectMark _).bind fun _ _ _ hclose => spends_spanFrom fun span => ?_
      rw [hclose]
      exact spends_pure
        ⟨fun _ => ⟨.object hfs.1, binds_of_operator?_eq_none rfl, .object hfs.2⟩, trivial⟩
    · exact spends_throw _
    · exact spends_throw _

/-- Operators are taken up for as long as they bind tightly enough. -/
theorem Spending.rest (h : Spending steps) {before : List Token} {depth : Nat} {lhs : Expr}
    (hlhs : lhs.Found power before) (hends : lhs.Ends (ts.headD .eof)) :
    Spends ts (Expr.parseRest (steps + 1) depth power lhs) fun e spent left =>
      e.Found power (before ++ spent) ∧ (left.headD .eof).Stops power := by
  have hdone : (ts.headD .eof).Stops power → Spends ts (pure lhs) fun e spent left =>
      e.Found power (before ++ spent) ∧ (left.headD .eof).Stops power := by
    intro hstp
    refine spends_pure ⟨?_, hstp⟩
    rw [append_nil]
    exact hlhs
  rw [Expr.parseRest]
  refine spends_token ?_
  split
  · next hdot =>
    obtain ⟨rest, rfl⟩ := exists_cons_of_headD hdot Token.noConfusion
    -- an operation would have taken the point for its last operand
    have hbase := hends.isOperation fun _ hstp => hstp.ne_dot rfl
    refine spends_advance (spends_name.bind fun field _ left hfield => ?_)
    obtain ⟨t, ht, rfl⟩ := hfield
    have hmb : Found power (.member lhs field (lhs.span.to field.span))
        (before ++ [.punct .dot, t]) :=
      ⟨.member hlhs.grouped hbase, binds_of_operator?_eq_none rfl, .member hlhs.readsAs ht⟩
    refine (h.parseRest hmb trivial).imp fun e spent left he => ?_
    rw [append_assoc] at he
    exact he
  · next hparen =>
    obtain ⟨rest, rfl⟩ := exists_cons_of_headD hparen Token.noConfusion
    have hcallee := hends.isOperation fun _ hstp => hstp.ne_openParen rfl
    refine spends_advance (h.parseCall.bind fun args us left hargs => ?_)
    refine (spends_expectMark _).bind fun _ _ _ hclose => spends_spanFrom fun span => ?_
    obtain rfl := hclose
    have hcall : Found power (.call lhs args span) (before ++ inParens us) :=
      ⟨.call hlhs.grouped hcallee hargs.1, binds_of_operator?_eq_none rfl,
        .call hlhs.readsAs hargs.2⟩
    refine (h.parseRest hcall trivial).imp fun e spent left he => ?_
    rw [append_assoc, inParens, cons_append, cons_append, append_assoc] at he
    exact he
  · next mark hdot hparen hmark =>
    split
    · next op hop =>
      split
      · next hlt =>
        refine hdone (hmark ▸ Token.stops_punct hdot hparen fun op' hop' => ?_)
        obtain rfl := Option.some.inj (hop.symm.trans hop')
        exact hlt
      · next hle =>
        obtain ⟨rest, rfl⟩ := exists_cons_of_headD hmark Token.noConfusion
        refine spends_advance (h.parse.bind fun rhs us left hrhs => ?_)
        -- a looser operator in hand would have taken this one for its right operand
        have hgroups : lhs.GroupsBefore op := hends.groupsBefore hop
        have hbinary : Found power (.binary lhs op rhs (lhs.span.to rhs.span))
            (before ++ .punct op.mark :: us) := by
          refine ⟨.binary hlhs.grouped (fun _ => hgroups.level_le) hrhs.1.grouped
            (fun _ => hrhs.1.binds.level_lt), ?_, .binary hlhs.readsAs hrhs.1.readsAs⟩
          intro op' hop'
          cases hop'
          exact Nat.le_of_not_lt hle
        refine (h.parseRest hbinary hrhs.2).imp fun e spent left he => ?_
        rw [BinaryOp.mark_of_ofMark? hop, append_assoc, cons_append] at he
        exact he
    · next hnone =>
      refine hdone (hmark ▸ Token.stops_punct hdot hparen fun op' hop' => ?_)
      cases hnone.symm.trans hop'
  · next hdot hparen hpunct =>
    exact hdone ⟨hdot, hparen, fun heq _ => absurd heq (hpunct _)⟩

/-- The readers of expressions call one another, so all of them are proved at once. -/
theorem spending (steps : Nat) : Spending steps := by
  induction steps with
  | zero =>
    constructor
    · intros; rw [Expr.parse]; exact spends_throw _
    · intros; rw [Expr.parseOperand]; exact spends_throw _
    · intros; rw [Expr.parseRest]; exact spends_throw _
    · intros; rw [Expr.parseItems]; exact spends_throw _
    · intros; rw [Expr.parseFields]; exact spends_throw _
    · intros; rw [Expr.parseCall]; exact spends_throw _
    · intros; rw [Expr.parseList]; exact spends_throw _
  | succ steps ih =>
    refine ⟨?_, ih.operand, ih.rest, ?_, ?_, ?_, ?_⟩
    · intro ts depth power
      rw [Expr.parse]
      split
      · exact ih.parseOperand.bind fun e spent left he => ih.parseRest (he.1 power) he.2
      · exact spends_throw _
    · intro ts depth
      rw [Expr.parseItems]
      refine spends_skipSeparators.bind fun _ seps left hseps => ?_
      refine spends_if (fun _ _ => ?_) ?_
      · refine spends_pure ⟨forall_mem_nil _, ?_⟩
        rw [append_nil]
        exact .nil hseps
      · refine ih.parse.bind fun e spent left he => ih.parseItems.bind fun es more left hes => ?_
        refine spends_pure ⟨forall_mem_cons.mpr ⟨he.1.grouped, hes.1⟩, ?_⟩
        rw [append_nil, ← append_assoc]
        exact .cons hseps he.1.readsAs hes.2
    · intro ts depth
      rw [Expr.parseFields]
      refine spends_skipSeparators.bind fun _ seps left hseps => ?_
      refine spends_if (fun _ _ => ?_) ?_
      · refine spends_pure ⟨forall_mem_nil _, ?_⟩
        rw [append_nil]
        exact .nil hseps
      · refine spends_look _ fun _ _ => spends_name.bind fun key _ left hkey => ?_
        obtain ⟨t, ht, rfl⟩ := hkey
        refine (spends_expectMark _).bind fun _ _ left hcolon => ?_
        obtain rfl := hcolon
        refine ih.parse.bind fun e spent left he => spends_spanFrom fun span => ?_
        refine ih.parseFields.bind fun fs more left hfs => ?_
        refine spends_pure ⟨forall_mem_cons.mpr ⟨he.1.grouped, hfs.1⟩, ?_⟩
        rw [append_nil]
        show FieldsReadAs _ (seps ++ (t :: .punct .colon :: spent ++ more))
        rw [← append_assoc]
        exact .cons hseps ht he.1.readsAs hfs.2
    · intro ts depth
      rw [Expr.parseCall]
      refine spends_if (fun _ _ => ?_) ?_
      · exact spends_pure ⟨forall_mem_nil _, .nil⟩
      · exact ih.parseList.imp fun es spent left hes => hes.2
    · intro ts depth
      rw [Expr.parseList]
      refine ih.parse.bind fun e spent left he => spends_if (fun rest hrest => ?_) ?_
      · obtain rfl := hrest
        refine spends_advance (ih.parseList.bind fun es more left hes => spends_pure ?_)
        obtain ⟨next, es, rfl⟩ := exists_cons_of_ne_nil hes.1
        refine ⟨cons_ne_nil _ _, forall_mem_cons.mpr ⟨he.1.grouped, hes.2.1⟩, ?_⟩
        rw [append_nil]
        exact .cons he.1.readsAs hes.2.2
      · refine spends_pure ⟨cons_ne_nil _ _, forall_mem_singleton.mpr he.1.grouped, ?_⟩
        rw [append_nil]
        exact .singleton he.1.readsAs

/-- **Grouping.** An expression that was read has its operators grouped by their levels, and read in
order it is the tokens that were taken. -/
theorem grouped_of_parse {steps depth : Nat} {c c' : Cursor} {e : Expr}
    (h : (Expr.parse steps depth 0).run c = .ok (e, c')) :
    e.Grouped ∧ ∃ taken, c.tokens = taken ++ c'.tokens ∧ e.ReadsAs taken := by
  obtain ⟨taken, htaken, hfound, -⟩ := (spending steps).parse c e c' rfl h
  exact ⟨hfound.grouped, taken, htaken, hfound.readsAs⟩

/-- The tokens of `a - b + !c.input * f(1, 2) || [1; , 2]` before a brace. -/
private def mixedTokens : List Token :=
  [.ident "a", .punct .minus, .ident "b", .punct .plus, .punct .bang, .ident "c", .punct .dot,
    .keyword .input, .punct .star, .ident "f", .punct .openParen, .int 1, .punct .comma, .int 2,
    .punct .closeParen, .punct .either, .punct .openBracket, .int 1, .punct .semicolon,
    .punct .comma, .int 2, .punct .closeBracket, .punct .closeBrace]

private def plainVar (text : String) : Expr := .var ⟨text, .empty⟩

private def plainInt (n : Int) : Expr := .lit (.int n) .empty

private def mixed : Expr :=
  .binary
    (.binary (.binary (plainVar "a") .sub (plainVar "b") .empty) .add
      (.binary (.unary .not (.member (plainVar "c") ⟨"input", .empty⟩ .empty) .empty) .mul
        (.call (plainVar "f") [plainInt 1, plainInt 2] .empty) .empty) .empty)
    .or (.array [plainInt 1, plainInt 2] .empty) .empty

theorem grouped_of_parse_mixed :
    (Expr.parse 20 0 0).run ⟨mixedTokens.map (⟨·, .empty⟩), 0, 0⟩ =
      .ok (mixed, ⟨[⟨.punct .closeBrace, .empty⟩], 0, 0⟩) ∧
    mixed.Grouped ∧
    ∃ taken, mixedTokens = taken ++ [.punct .closeBrace] ∧ mixed.ReadsAs taken := by
  have hrun : (Expr.parse 20 0 0).run ⟨mixedTokens.map (⟨·, .empty⟩), 0, 0⟩ =
      .ok (mixed, ⟨[⟨.punct .closeBrace, .empty⟩], 0, 0⟩) := by with_unfolding_all rfl
  exact ⟨hrun, grouped_of_parse hrun⟩

end Expr

end Provision
