import Provision.Proofs.Parser
import Provision.Proofs.WellFormed

/-!
# Reading a program back

`Parse.Takes m ts us Q` says that the reader `m`, started before the tokens `ts`, ends before the
tokens `us` with a result that has the property `Q`, unless it runs out of steps. The readers of
lists of members and of lists with commas are treated once for all of them
(`Parse.Members.takes_separated`, `Parse.Commas.takes_separated`).

An expression is read by one loop over what follows its first operand, which has the expression so
far in hand. So what is shown of an expression is that the loop comes to hold it
(`Expr.Fits.taken`); likewise for a type and its suffixes (`TypeExpr.WellFormed.taken`).
-/

namespace Provision

open Token List

variable {t : Token} {mark : Punct} {steps : Nat}

def Cursor.tokens (c : Cursor) : List Token := c.rest.map Lexeme.token

theorem Cursor.token_current (c : Cursor) : c.current.token = c.tokens.headD .eof := by
  rw [Cursor.current, Cursor.tokens]
  cases c.rest <;> rfl

theorem Cursor.token_following (c : Cursor) : c.following.token = c.tokens.tail.headD .eof := by
  rw [Cursor.following, Cursor.tokens]
  cases c.rest with
  | nil => rfl
  | cons l rest => cases rest <;> rfl

theorem Cursor.tokens_advance (c : Cursor) : c.advance.tokens = c.tokens.tail := by
  rw [Cursor.tokens, Cursor.tokens, ← map_tail]
  rfl

theorem Cursor.tokens_skipSeparators (c : Cursor) :
    c.skipSeparators.tokens = c.tokens.dropWhile isSeparator := by
  have hdrop : ∀ (ls : List Lexeme) (last : Nat), (dropSeparators ls last).1.map Lexeme.token =
      (ls.map Lexeme.token).dropWhile isSeparator := by
    intro ls
    induction ls with
    | nil => exact fun _ => rfl
    | cons l ls ih =>
      intro last
      rw [dropSeparators, map_cons, dropWhile_cons]
      split
      · exact ih _
      · rfl
  exact hdrop c.rest c.last

theorem Token.nameOf?_ofName (text : String) : Parse.nameOf? (.ofName text) = some text := by
  unfold Token.ofName
  split
  · next word hword =>
    have htext : word.text = text := by
      have hfound := find?_some (p := fun w : Keyword => w.text == text) hword
      exact beq_iff_eq.mp hfound
    split
    · next hdeclaration =>
      rw [Parse.nameOf?, if_pos hdeclaration, htext]
    · rfl
  · split <;> rfl

namespace Parse

variable {α β : Type} {m m' : Parse α} {f : α → Parse β} {t : Token} {ts us vs : List Token}
  {Q : α → Prop} {R : β → Prop}

/-- A reader that does not run out of steps takes the tokens that are in `ts` before `us`, and gives
a result with the property `Q`. -/
def Takes (m : Parse α) (ts us : List Token) (Q : α → Prop) : Prop :=
  ∀ c : Cursor, c.tokens = ts →
    m.run c = .error .stalled ∨ ∃ a c', m.run c = .ok (a, c') ∧ c'.tokens = us ∧ Q a

/-- A reader that runs out of steps promises nothing. -/
theorem takes_stalled (h : m = throw .stalled) : Takes m ts us Q :=
  fun _ _ => Or.inl (by rw [h]; rfl)

theorem takes_pure {a : α} (h : Q a) : Takes (pure a) ts ts Q :=
  fun c hc => Or.inr ⟨a, c, rfl, hc, h⟩

/-- One reader takes what the one before leaves. -/
theorem Takes.bind (hm : Takes m ts us Q) (hf : ∀ a, Q a → Takes (f a) us vs R) :
    Takes (m >>= f) ts vs R := by
  intro c hc
  have hrun : (m >>= f).run c = (m.run c >>= fun r => (f r.1).run r.2) := rfl
  rcases hm c hc with hstl | ⟨a, c', hok, hc', ha⟩
  · exact Or.inl (by rw [hrun, hstl]; rfl)
  · rw [hrun, hok]
    exact hf a ha c' hc'

theorem Takes.map {g : α → β} (h : Takes m ts us Q) (hg : ∀ a, Q a → R (g a)) :
    Takes (g <$> m) ts us R := by
  rw [map_eq_pure_bind]
  exact h.bind fun a ha => takes_pure (hg a ha)

/-! ### Single tokens -/

theorem takes_start {f : Nat → Parse β} (h : ∀ n, Takes (f n) ts us R) :
    Takes (start >>= f) ts us R :=
  fun c hc => h _ c hc

theorem takes_spanFrom {f : Span → Parse β} {n : Nat} (h : ∀ span, Takes (f span) ts us R) :
    Takes (spanFrom n >>= f) ts us R :=
  fun c hc => h _ c hc

theorem takes_headD {f : Token → Parse β} (h : Takes (f (ts.headD .eof)) ts us R) :
    Takes (Parse.token >>= f) ts us R := by
  rintro c rfl
  rw [← c.token_current] at h
  exact h c rfl

theorem takes_token {f : Token → Parse β} (h : Takes (f t) (t :: ts) us R) :
    Takes (Parse.token >>= f) (t :: ts) us R :=
  takes_headD h

theorem takes_current {f : Lexeme → Parse β} (h : ∀ span, Takes (f ⟨t, span⟩) (t :: ts) us R) :
    Takes (current >>= f) (t :: ts) us R := by
  intro c hc
  have htok : c.current.token = t := by rw [c.token_current, hc]; rfl
  have hcur : c.current = ⟨t, c.current.span⟩ := by rw [← htok]
  show (f c.current).run c = _ ∨ ∃ a c', (f c.current).run c = _ ∧ _
  rw [hcur]
  exact h c.current.span c hc

theorem takes_following {f : Token → Parse β} (h : Takes (f (ts.tail.headD .eof)) ts us R) :
    Takes (following >>= f) ts us R := by
  rintro c rfl
  rw [← c.token_following] at h
  exact h c rfl

theorem takes_advance {f : Unit → Parse β} (h : Takes (f ()) ts us R) :
    Takes (advance >>= f) (t :: ts) us R :=
  fun c hc => h c.advance (by rw [c.tokens_advance, hc]; rfl)

theorem takes_skipSeparators {f : Unit → Parse β}
    (h : Takes (f ()) (ts.dropWhile Cursor.isSeparator) us R) :
    Takes (skipSeparators >>= f) ts us R :=
  fun c hc => h c.skipSeparators (by rw [c.tokens_skipSeparators, hc])

theorem takes_isAt {f : Bool → Parse β}
    (h : Takes (f (ts.headD .eof == .punct mark)) ts us R) : Takes (isAt mark >>= f) ts us R := by
  rw [isAt, bind_assoc]
  exact takes_headD h

theorem takes_if (h : ts.headD .eof = .punct mark) (hm : Takes m ts us Q) :
    Takes (isAt mark >>= fun b => if b then m else m') ts us Q := by
  refine takes_isAt ?_
  rw [h, if_pos (beq_self_eq_true _)]
  exact hm

theorem takes_else (h : ts.headD .eof ≠ .punct mark) (hm : Takes m' ts us Q) :
    Takes (isAt mark >>= fun b => if b then m else m') ts us Q := by
  refine takes_isAt ?_
  rw [if_neg (by rwa [beq_iff_eq])]
  exact hm

theorem takes_expect {f : Span → Parse β} (h : ∀ span, Takes (f span) ts us R) :
    Takes (expect t >>= f) (t :: ts) us R := by
  rw [expect, bind_assoc]
  refine takes_current fun span => ?_
  rw [if_pos rfl, bind_assoc]
  exact takes_advance (h span)

theorem takes_expectMark {f : Unit → Parse β} (h : Takes (f ()) ts us R) :
    Takes (expectMark mark >>= f) (.punct mark :: ts) us R := by
  rw [expectMark, bind_assoc]
  exact takes_expect fun _ => h

theorem takes_ident {f : Ident → Parse β} {name : Ident}
    (h : ∀ name' : Ident, name'.withoutSpan = name.withoutSpan → Takes (f name') ts us R) :
    Takes (ident >>= f) (.ident name.text :: ts) us R := by
  rw [ident, bind_assoc]
  refine takes_current fun span => ?_
  rw [bind_assoc]
  exact takes_advance (h ⟨name.text, span⟩ rfl)

theorem takes_name {f : Ident → Parse β} {name : Ident}
    (h : ∀ name' : Ident, name'.withoutSpan = name.withoutSpan → Takes (f name') ts us R) :
    Takes (Parse.name >>= f) (.ofName name.text :: ts) us R := by
  rw [Parse.name, bind_assoc]
  refine takes_current fun span => ?_
  rw [nameOf?_ofName]
  rw [bind_assoc]
  exact takes_advance (h ⟨name.text, span⟩ rfl)

end Parse

/-! ### Tokens that end a part -/

/-- Whether a token ends what is written between others of its kind: a separator, a closing bracket
or the end of the source. -/
def Token.isEnd : Token → Bool
  | .punct .comma | .punct .semicolon | .punct .closeParen | .punct .closeBracket
  | .punct .closeBrace | .eof => true
  | _ => false

/-- No operator goes on at an end. -/
theorem Token.stops_of_isEnd (h : t.isEnd) (power : Nat) : t.Stops power := by
  refine ⟨?_, ?_, ?_⟩
  · rintro rfl
    cases h
  · rintro rfl
    cases h
  · rintro mark op rfl hop
    cases mark with
    | comma | semicolon | closeParen | closeBracket | closeBrace => cases hop
    | _ => cases h

theorem Token.Stops.mono {power power' : Nat} (h : t.Stops power)
    (hle : power ≤ power') : t.Stops power' :=
  ⟨h.ne_dot, h.ne_openParen, fun ht hop => Nat.lt_of_lt_of_le (h.lt_power ht hop) hle⟩

theorem BinaryOp.power_lt (op : BinaryOp) : op.power < UnaryOp.power := by
  cases op <;> decide

theorem BinaryOp.ofMark?_mark (op : BinaryOp) : BinaryOp.ofMark? op.mark = some op := by
  cases op <;> rfl

/-- Nothing but access to a member and a call goes on behind the operand of an operator before
it. -/
theorem Token.Stops.unary {power : Nat} (h : t.Stops power) : t.Stops UnaryOp.power :=
  ⟨h.ne_dot, h.ne_openParen, fun _ _ => BinaryOp.power_lt _⟩

theorem Token.isEnd_of_isSeparator (h : Cursor.isSeparator t) : t.isEnd := by
  unfold Cursor.isSeparator at h
  rcases (Bool.or_eq_true _ _).mp h with h | h
  · rw [beq_iff_eq.mp h]
    rfl
  · rw [beq_iff_eq.mp h]
    rfl

theorem Token.isEnd_ofName (text : String) : (Token.ofName text).isEnd = false := by
  unfold Token.ofName
  split
  · split <;> rfl
  · split <;> rfl

/-! ### Lists -/

namespace Parse

variable {α : Type} {loop : Nat → Parse (List α)} {item : Nat → Parse α}
  {tokensOf : α → List Token} {strip : α → α} {xs : List α} {mark : Punct} {stop : List Token}

/-- An item is read back before everything that may follow it in a list. -/
structure TakesItem (item : Nat → Parse α) (tokensOf : α → List Token) (strip : α → α) (x : α) :
    Prop where
  head : ∃ t ts, tokensOf x = t :: ts ∧ t.isEnd = false
  takes : ∀ {steps : Nat} {more : List Token}, (more.headD .eof).isEnd →
    Takes (item steps) (tokensOf x ++ more) more fun y => strip y = strip x

/-- A reader of the members of a body, up to the tokens `stop`. -/
structure Members (loop : Nat → Parse (List α)) (item : Nat → Parse α) (isDone : Parse Bool)
    (stop : List Token) : Prop where
  zero : loop 0 = throw .stalled
  succ : ∀ steps, loop (steps + 1) = do
    skipSeparators
    if ← isDone then return []
    else
      let x ← item steps
      return x :: (← loop steps)
  isEnd : (stop.headD .eof).isEnd
  not_separator : Cursor.isSeparator (stop.headD .eof) = false
  done : Takes isDone stop stop (· = true)
  not_done : ∀ {ts : List Token}, (ts.headD .eof).isEnd = false → Takes isDone ts ts (· = false)

/-- Members with separators before and between them are read back. -/
theorem Members.takes_separated {isDone : Parse Bool} (h : Members loop item isDone stop)
    (hmark : Cursor.isSeparator (.punct mark)) (hxs : ∀ x ∈ xs, TakesItem item tokensOf strip x)
    {before : List Token} (hbef : ∀ t ∈ before, Cursor.isSeparator t) (steps : Nat) :
    Takes (loop steps) (before ++ (separated mark (xs.map tokensOf) ++ stop)) stop
      fun ys => ys.map strip = xs.map strip := by
  induction xs generalizing before steps with
  | nil =>
    obtain _ | steps := steps
    · exact takes_stalled h.zero
    have hdrop : (before ++ ([] ++ stop)).dropWhile Cursor.isSeparator = stop := by
      have hnot := h.not_separator
      rw [dropWhile_append_of_pos hbef, nil_append]
      cases stop with
      | nil => rfl
      | cons t stop => rw [dropWhile_cons_of_neg (by simpa using hnot)]
    rw [h.succ]
    refine takes_skipSeparators ?_
    rw [map_nil, separated, hdrop]
    refine h.done.bind fun b hb => ?_
    rw [hb, if_pos rfl]
    exact takes_pure rfl
  | cons x xs ih =>
    obtain _ | steps := steps
    · exact takes_stalled h.zero
    have hx := hxs x mem_cons_self
    obtain ⟨t, ts, ht, hend⟩ := hx.head
    have ih := fun {before} => @ih (fun y hy => hxs y (mem_cons_of_mem x hy)) before
    -- the separator before the next member goes with it
    obtain ⟨more, hmore, heq, hrest⟩ : ∃ more : List Token, (more.headD .eof).isEnd ∧
        (xs.map tokensOf).flatMap (.punct mark :: ·) ++ stop = more ∧
        Takes (loop steps) more stop fun ys => ys.map strip = xs.map strip := by
      refine ⟨_, ?_, rfl, ?_⟩
      · cases xs with
        | nil => exact h.isEnd
        | cons y ys => exact Token.isEnd_of_isSeparator hmark
      · cases xs with
        | nil => exact ih (forall_mem_nil _) steps
        | cons y ys => exact ih (forall_mem_singleton.mpr hmark) steps
    have hdrop : (before ++ (tokensOf x ++ more)).dropWhile Cursor.isSeparator =
        tokensOf x ++ more := by
      have hsep : ¬ Cursor.isSeparator t := fun hs =>
        absurd (Token.isEnd_of_isSeparator hs) (by rw [hend]; exact Bool.false_ne_true)
      rw [dropWhile_append_of_pos hbef, ht, cons_append,
        dropWhile_cons_of_neg hsep]
    rw [h.succ, map_cons, separated, append_assoc, heq]
    refine takes_skipSeparators ?_
    rw [hdrop]
    refine (h.not_done (by rw [ht]; exact hend)).bind fun b hb => ?_
    rw [hb, if_neg Bool.false_ne_true]
    refine (hx.takes hmore).bind fun y hy => hrest.bind fun ys hys => takes_pure ?_
    rw [map_cons, map_cons, hy, hys]

section Brackets

variable {β : Type} {k : List α → Parse β} {rest out : List Token} {Q : β → Prop} {close : Punct}

theorem Bracketed.takes (h : Bracketed close loop item) (hend : (Token.punct close).isEnd)
    (hsep : Cursor.isSeparator (.punct close) = false)
    (hmark : Cursor.isSeparator (.punct mark)) (hxs : ∀ x ∈ xs, TakesItem item tokensOf strip x)
    (hk : ∀ ys, ys.map strip = xs.map strip → Takes (k ys) rest out Q) :
    Takes (do
        let ys ← loop steps
        expectMark close
        k ys)
      (separated mark (xs.map tokensOf) ++ .punct close :: rest) out Q := by
  have hmems : Members loop item (isAt close) (.punct close :: rest) := by
    refine ⟨h.zero, h.succ, hend, hsep, ?_, fun {ts} hts => ?_⟩
    · exact takes_isAt (takes_pure (beq_self_eq_true _))
    · refine takes_isAt (takes_pure ?_)
      rw [beq_eq_false_iff_ne]
      intro heq
      rw [heq, hend] at hts
      cases hts
  have hread := hmems.takes_separated hmark hxs (forall_mem_nil _) steps
  exact hread.bind fun ys hys => takes_expectMark (hk ys hys)

theorem Bracketed.takes_inBraces (h : Bracketed .closeBrace loop item)
    (hxs : ∀ x ∈ xs, TakesItem item tokensOf strip x)
    (hk : ∀ ys, ys.map strip = xs.map strip → Takes (k ys) rest out Q) :
    Takes (do
        expectMark .openBrace
        let ys ← loop steps
        expectMark .closeBrace
        k ys)
      (inBraces (xs.map tokensOf) ++ rest) out Q := by
  rw [inBraces, append_assoc, cons_append]
  exact takes_expectMark (h.takes rfl rfl rfl hxs hk)

end Brackets

theorem Commas.takes_separated (h : Commas loop item) (hne : xs ≠ [])
    (hxs : ∀ x ∈ xs, TakesItem item tokensOf strip x) (hend : (stop.headD .eof).isEnd)
    (hcomma : stop.headD .eof ≠ .punct .comma) :
    Takes (loop steps) (separated .comma (xs.map tokensOf) ++ stop) stop
      fun ys => ys.map strip = xs.map strip := by
  induction xs generalizing steps with
  | nil => exact absurd rfl hne
  | cons x xs ih =>
    obtain _ | steps := steps
    · exact takes_stalled h.zero
    have hx := hxs x mem_cons_self
    rw [h.succ, map_cons, separated, append_assoc]
    cases xs with
    | nil =>
      refine (hx.takes hend).bind fun y hy => takes_else hcomma (takes_pure ?_)
      rw [map_singleton, map_singleton, hy]
    | cons x' xs =>
      refine (hx.takes rfl).bind fun y hy => takes_if rfl (takes_advance ?_)
      refine (ih (cons_ne_nil x' xs) fun z hz => hxs z (mem_cons_of_mem x hz)).bind
        fun ys hys => takes_pure ?_
      show strip y :: ys.map strip = strip x :: (x' :: xs).map strip
      rw [hy, hys]

end Parse

open Parse

/-! ### Expressions -/

def ObjectField.withoutSpans (f : ObjectField) : ObjectField :=
  .mk f.key.withoutSpan f.value.withoutSpans .empty

def ObjectField.tokens (f : ObjectField) : List Token :=
  .ofName f.key.text :: .punct .colon :: f.value.tokens

namespace Expr

theorem fieldsWithoutSpans_eq (fs : List ObjectField) :
    fieldsWithoutSpans fs = fs.map ObjectField.withoutSpans := by
  induction fs with
  | nil => rfl
  | cons f fs ih =>
    obtain ⟨key, value, span⟩ := f
    rw [fieldsWithoutSpans, ih, map_cons]
    rfl

theorem tokensOfFields_eq (fs : List ObjectField) :
    tokensOfFields fs = fs.map ObjectField.tokens := by
  induction fs with
  | nil => rfl
  | cons f fs ih =>
    obtain ⟨key, value, span⟩ := f
    rw [tokensOfFields, ih, map_cons]
    rfl

theorem isEnd_token (value : Lit) : value.token.isEnd = false := by
  cases value with
  | bool b => cases b <;> rfl
  | _ => rfl

theorem exists_tokens_cons : ∀ e : Expr, ∃ t ts, e.tokens = t :: ts ∧ t.isEnd = false
  | .lit value _ => ⟨value.token, [], rfl, isEnd_token value⟩
  | .var name => ⟨.ident name.text, [], rfl, rfl⟩
  | .array _ _ => ⟨.punct .openBracket, _, rfl, rfl⟩
  | .object _ _ => ⟨.punct .openBrace, _, rfl, rfl⟩
  | .paren _ _ => ⟨.punct .openParen, _, rfl, rfl⟩
  | .unary op operand _ => ⟨.punct op.mark, operand.tokens, rfl, by cases op <;> rfl⟩
  | .member base field _ => by
    obtain ⟨t, ts, h, ht⟩ := exists_tokens_cons base
    exact ⟨t, _, by rw [tokens, h, cons_append], ht⟩
  | .call callee args _ => by
    obtain ⟨t, ts, h, ht⟩ := exists_tokens_cons callee
    exact ⟨t, _, by rw [tokens, h, cons_append], ht⟩
  | .binary lhs op rhs _ => by
    obtain ⟨t, ts, h, ht⟩ := exists_tokens_cons lhs
    exact ⟨t, _, by rw [tokens, h, cons_append], ht⟩

/-- The expression is read back, up to its spans, before what does not continue it. -/
def ReadBack (depth power : Nat) (e : Expr) : Prop :=
  ∀ (steps : Nat) {rest : List Token}, (rest.headD .eof).Stops power →
    Takes (parse steps depth power) (e.tokens ++ rest) rest (·.withoutSpans = e.withoutSpans)

def OperandBack (depth : Nat) (e : Expr) : Prop :=
  ∀ (steps : Nat) (rest : List Token), e.Ends (rest.headD .eof) →
    Takes (parseOperand (steps + 1) (depth + 1)) (e.tokens ++ rest) rest
      (·.withoutSpans = e.withoutSpans)

/-- The loop behind the first operand comes to hold the expression, up to its spans. -/
def Taken (depth power : Nat) (e : Expr) : Prop :=
  ∀ {steps : Nat} {rest out : List Token} {Q : Expr → Prop}, e.Ends (rest.headD .eof) →
    (∀ e' steps', e'.withoutSpans = e.withoutSpans →
      Takes (parseRest steps' (depth + 1) power e') rest out Q) →
    Takes (parseOperand steps (depth + 1) >>= parseRest steps (depth + 1) power)
      (e.tokens ++ rest) out Q

section Readers

variable {depth power steps : Nat} {e lhs : Expr} {rest out : List Token} {Q : Expr → Prop}

theorem OperandBack.taken (h : OperandBack depth e) : Taken depth power e := by
  rintro (_ | steps) rest out Q hends hrest
  · exact takes_stalled (by rw [parseOperand]; rfl)
  · exact (h steps rest hends).bind fun e' he' => hrest e' _ he'

theorem takes_parseRest_stop (h : (rest.headD .eof).Stops power) (hlhs : Q lhs) :
    Takes (parseRest steps depth power lhs) rest rest Q := by
  obtain _ | steps := steps
  · exact takes_stalled (by rw [Expr.parseRest])
  rw [Expr.parseRest]
  refine takes_headD ?_
  split
  · next hdot => exact absurd hdot h.ne_dot
  · next hparen => exact absurd hparen h.ne_openParen
  · next mark hmark =>
    split
    · next op hop =>
      rw [if_pos (h.lt_power hmark hop)]
      exact takes_pure hlhs
    · exact takes_pure hlhs
  · exact takes_pure hlhs

theorem Fits.ends (h : Fits depth power e) (ht : t.Stops power) : e.Ends t := by
  cases h with
  | unary => exact ht.unary
  | binary hpower => exact ht.mono (Nat.le_succ_of_le hpower)
  | _ => exact trivial

theorem Taken.readBack (h : Taken depth power e) (hfits : Fits depth power e) :
    ReadBack depth power e := by
  intro steps rest hstp
  obtain _ | steps := steps
  · exact takes_stalled (by rw [Expr.parse])
  rw [Expr.parse, if_pos hfits.depth_lt]
  exact h (hfits.ends hstp) fun e' steps' he' => takes_parseRest_stop hstp he'

theorem ReadBack.item (h : ReadBack depth 0 e) :
    TakesItem (Expr.parse · depth 0) Expr.tokens Expr.withoutSpans e :=
  ⟨e.exists_tokens_cons, fun hmore => h _ (Token.stops_of_isEnd hmore 0)⟩

theorem ReadBack.field {f : ObjectField} (h : ReadBack depth 0 f.value) :
    TakesItem (parseField · depth) ObjectField.tokens ObjectField.withoutSpans f := by
  refine ⟨⟨_, _, rfl, Token.isEnd_ofName _⟩, fun {steps more} hmore => ?_⟩
  refine takes_start fun _ => takes_name fun key hkey => takes_expectMark ?_
  refine (h _ (Token.stops_of_isEnd hmore 0)).bind fun value hval => ?_
  refine takes_spanFrom fun _ => takes_pure ?_
  show ObjectField.mk key.withoutSpan value.withoutSpans .empty = _
  rw [hkey, hval]
  rfl

theorem takes_parseList {items : List Expr} (hne : items ≠ [])
    (h : ∀ e ∈ items, ReadBack depth 0 e) :
    Takes (parseList steps depth)
      (separated .comma (tokensOfAll items) ++ .punct .closeParen :: rest)
      (.punct .closeParen :: rest) fun es => allWithoutSpans es = allWithoutSpans items := by
  rw [tokensOfAll_eq]
  simp only [allWithoutSpans_eq]
  exact (commas_list depth).takes_separated hne (fun e he => (h e he).item) rfl (by simp)

theorem takes_parseCall {args : List Expr} (h : ∀ e ∈ args, ReadBack depth 0 e) :
    Takes (parseCall steps depth)
      (separated .comma (tokensOfAll args) ++ .punct .closeParen :: rest)
      (.punct .closeParen :: rest) fun es => allWithoutSpans es = allWithoutSpans args := by
  obtain _ | steps := steps
  · exact takes_stalled (by rw [parseCall])
  rw [parseCall]
  cases args with
  | nil => exact takes_if rfl (takes_pure rfl)
  | cons arg args =>
    refine takes_else ?_ (takes_parseList (cons_ne_nil _ _) h)
    obtain ⟨t, ts, ht, hend⟩ := arg.exists_tokens_cons
    rw [tokensOfAll, separated, ht]
    rintro rfl
    cases hend

/-! One case of the loop each. -/

theorem takes_parseRest_member {field : Ident}
    (h : ∀ field' span steps, field'.withoutSpan = field.withoutSpan →
      Takes (parseRest steps depth power (.member lhs field' span)) rest out Q) :
    Takes (parseRest steps depth power lhs) (.punct .dot :: .ofName field.text :: rest) out Q := by
  obtain _ | steps := steps
  · exact takes_stalled (by rw [Expr.parseRest])
  rw [Expr.parseRest]
  refine takes_token (takes_advance ?_)
  exact takes_name fun field' hfield' => h field' _ _ hfield'

theorem takes_parseRest_call {args : List Expr} (hargs : ∀ e ∈ args, ReadBack depth 0 e)
    (h : ∀ args' span steps, allWithoutSpans args' = allWithoutSpans args →
      Takes (parseRest steps depth power (.call lhs args' span)) rest out Q) :
    Takes (parseRest steps depth power lhs)
      (inParens (separated .comma (tokensOfAll args)) ++ rest) out Q := by
  obtain _ | steps := steps
  · exact takes_stalled (by rw [Expr.parseRest])
  rw [Expr.parseRest, inParens, append_assoc, cons_append]
  refine takes_token (takes_advance ?_)
  refine (takes_parseCall hargs).bind fun args' hargs' => ?_
  exact takes_expectMark (takes_spanFrom fun span => h args' span _ hargs')

theorem takes_parseRest_binary {op : BinaryOp} {rhs : Expr} (hpower : power ≤ op.power)
    (hrhs : ReadBack depth (op.power + 1) rhs) (hstp : (rest.headD .eof).Stops (op.power + 1))
    (h : ∀ rhs' span steps, rhs'.withoutSpans = rhs.withoutSpans →
      Takes (parseRest steps depth power (.binary lhs op rhs' span)) rest out Q) :
    Takes (parseRest steps depth power lhs) (.punct op.mark :: (rhs.tokens ++ rest)) out Q := by
  obtain _ | steps := steps
  · exact takes_stalled (by rw [Expr.parseRest])
  have hop := op.ofMark?_mark
  generalize op.mark = mark at hop ⊢
  rw [Expr.parseRest]
  refine takes_token ?_
  split
  · next heq =>
    obtain rfl := Token.punct.inj heq
    cases hop
  · next heq =>
    obtain rfl := Token.punct.inj heq
    cases hop
  · next heq =>
    obtain rfl := Token.punct.inj heq
    rw [hop]
    dsimp only
    rw [if_neg (Nat.not_lt.mpr hpower)]
    exact takes_advance ((hrhs _ hstp).bind fun rhs' hrhs' => h rhs' _ _ hrhs')
  · next hpunct => exact absurd rfl (hpunct mark)

theorem operandBack_lit {value : Lit} (h : value.Readable) (span : Span) :
    OperandBack depth (.lit value span) := by
  intro steps rest _
  rw [Expr.parseOperand]
  refine takes_current fun span' => ?_
  cases value with
  | int n =>
    refine takes_advance (takes_pure ?_)
    show Expr.lit (.int n.toNat) .empty = .lit (.int n) .empty
    rw [Int.toNat_of_nonneg h.1]
  | bool b =>
    cases b with
    | true => exact takes_advance (takes_pure rfl)
    | false => exact takes_advance (takes_pure rfl)
  | float | str | null => exact takes_advance (takes_pure rfl)

theorem operandBack_var (name : Ident) : OperandBack depth (.var name) := by
  intro steps rest _
  rw [Expr.parseOperand]
  exact takes_current fun span => takes_advance (takes_pure rfl)

theorem operandBack_unary (op : UnaryOp) {operand : Expr} (span : Span)
    (h : ReadBack (depth + 1) UnaryOp.power operand) :
    OperandBack depth (.unary op operand span) := by
  intro steps rest hends
  have hsame : ∀ e span', e.withoutSpans = operand.withoutSpans →
      (Expr.unary op e span').withoutSpans = (Expr.unary op operand span).withoutSpans := by
    intro e span' he
    rw [withoutSpans, withoutSpans, he]
  rw [Expr.parseOperand]
  refine takes_current fun span' => ?_
  have hoperand := h steps hends
  cases op with
  | not => exact takes_advance (hoperand.bind fun e he => takes_pure (hsame e _ he))
  | neg => exact takes_advance (hoperand.bind fun e he => takes_pure (hsame e _ he))

theorem operandBack_paren {inner : Expr} (span : Span) (h : ReadBack (depth + 1) 0 inner) :
    OperandBack depth (.paren inner span) := by
  intro steps rest _
  rw [tokens, inParens, append_assoc, cons_append, Expr.parseOperand]
  refine takes_current fun span' => takes_advance ?_
  refine (h steps (Token.stops_of_isEnd rfl 0)).bind fun e he => takes_expect fun _ => ?_
  refine takes_pure ?_
  rw [withoutSpans, withoutSpans, he]

theorem operandBack_array {items : List Expr} (span : Span)
    (h : ∀ e ∈ items, ReadBack (depth + 1) 0 e) : OperandBack depth (.array items span) := by
  intro steps rest _
  rw [tokens, tokensOfAll_eq, append_assoc, cons_append, Expr.parseOperand]
  refine takes_current fun span' => takes_advance ?_
  refine (bracketed_items _).takes rfl rfl rfl (fun e he => (h e he).item) fun es hes => ?_
  refine takes_spanFrom fun _ => takes_pure ?_
  rw [withoutSpans, withoutSpans, allWithoutSpans_eq, allWithoutSpans_eq, hes]

theorem operandBack_object {fields : List ObjectField} (span : Span)
    (h : ∀ f ∈ fields, ReadBack (depth + 1) 0 f.value) :
    OperandBack depth (.object fields span) := by
  intro steps rest _
  rw [tokens, tokensOfFields_eq, append_assoc, cons_append, Expr.parseOperand]
  refine takes_current fun span' => takes_advance ?_
  refine (bracketed_fields _).takes rfl rfl rfl (fun f hf => (h f hf).field)
    fun fs hfs => takes_spanFrom fun _ => takes_pure ?_
  rw [withoutSpans, withoutSpans, fieldsWithoutSpans_eq, fieldsWithoutSpans_eq, hfs]

theorem GroupsBefore.ends {op : BinaryOp} (h : lhs.GroupsBefore op) :
    lhs.Ends (.punct op.mark) := by
  have hstp : ∀ power, op.power < power → (Token.punct op.mark).Stops power := by
    intro power hpower
    refine stops_punct (by cases op <;> decide) (by cases op <;> decide) fun op' hop => ?_
    obtain rfl := Option.some.inj (op.ofMark?_mark.symm.trans hop)
    exact hpower
  cases lhs with
  | unary => exact hstp _ op.power_lt
  | binary _ inner => exact hstp _ (Nat.lt_succ_of_le h)
  | _ => exact trivial

theorem ends_of_not_isOperation (h : lhs.isOperation = false) (t : Token) : lhs.Ends t := by
  cases lhs with
  | unary | binary => cases h
  | _ => exact trivial

/-- What can be read without further parentheses is read back. -/
theorem Fits.taken (h : Fits depth power e) : Taken depth power e := by
  induction h with
  | lit _ hval => exact (operandBack_lit hval _).taken
  | var => exact (operandBack_var _).taken
  | paren _ hin ih => exact (operandBack_paren _ (Taken.readBack ih hin)).taken
  | array _ hits ih =>
    exact (operandBack_array _ fun e he => Taken.readBack (ih e he) (hits e he)).taken
  | object _ hflds ih =>
    exact (operandBack_object _ fun f hf => Taken.readBack (ih f hf) (hflds f hf)).taken
  | unary _ hoperand ih => exact (operandBack_unary _ _ (Taken.readBack ih hoperand)).taken
  | member hbase _ ih =>
    intro steps rest out Q _ hrest
    rw [tokens, append_assoc]
    refine ih (ends_of_not_isOperation hbase _) fun base' steps' hsame => ?_
    refine takes_parseRest_member fun field' span' _ hfield => hrest _ _ ?_
    rw [withoutSpans, withoutSpans, hsame, hfield]
  | call hcallee _ hargs ih ihargs =>
    intro steps rest out Q _ hrest
    rw [tokens, append_assoc]
    refine ih (ends_of_not_isOperation hcallee _) fun callee' steps' hsame => ?_
    refine takes_parseRest_call (fun e he => Taken.readBack (ihargs e he) (hargs e he))
      fun args' span' _ hargs' => hrest _ _ ?_
    rw [withoutSpans, withoutSpans, hsame, hargs']
  | binary hpower hgroups _ hrhs ihlhs ihrhs =>
    intro steps rest out Q hends hrest
    rw [tokens, append_assoc]
    refine ihlhs hgroups.ends fun lhs' steps' hsame => ?_
    refine takes_parseRest_binary hpower (Taken.readBack ihrhs hrhs) hends
      fun rhs' span' _ hrhs' => hrest _ _ ?_
    rw [withoutSpans, withoutSpans, hsame, hrhs']

theorem Fits.readBack (h : Fits depth power e) : ReadBack depth power e := Taken.readBack h.taken h

end Readers

end Expr

/-! ### Types -/

namespace TypeExpr

theorem allWithoutSpans_eq (ts : List TypeExpr) :
    allWithoutSpans ts = ts.map withoutSpans := by
  induction ts with
  | nil => rfl
  | cons t ts ih => rw [allWithoutSpans, ih, map_cons]

theorem tokensOfParts_eq (ts : List TypeExpr) :
    tokensOfParts ts = ts.map (tokens true) := by
  induction ts with
  | nil => rfl
  | cons t ts ih => rw [tokensOfParts, ih, map_cons]

/-- The type is at an end before the token. -/
structure EndsAt (t : Token) : Prop where
  ne_openBracket : t ≠ .punct .openBracket
  ne_bar : t ≠ .punct .bar

theorem endsAt_of_isEnd (h : t.isEnd) : EndsAt t := by
  refine ⟨?_, ?_⟩
  · rintro rfl
    cases h
  · rintro rfl
    cases h

theorem endsAt_ident (text : String) : EndsAt (.ident text) := by
  refine ⟨fun h => ?_, fun h => ?_⟩
  · cases h
  · cases h

theorem endsAt_ofName (text : String) : EndsAt (.ofName text) := by
  have hnm := nameOf?_ofName text
  refine ⟨fun h => ?_, fun h => ?_⟩
  · rw [h] at hnm
    cases hnm
  · rw [h] at hnm
    cases hnm

/-- The loop over what follows a part comes to hold the part, up to its spans. -/
def Taken (t : TypeExpr) : Prop :=
  ∀ {steps : Nat} {rest out : List Token} {Q : TypeExpr → Prop},
    (∀ t' start steps', t'.withoutSpans = t.withoutSpans →
      Takes (parseSuffixes steps' start t') rest out Q) →
    Takes (parsePart steps) (t.tokens true ++ rest) out Q

section Readers

variable {t : TypeExpr} {steps : Nat} {rest out : List Token} {Q : TypeExpr → Prop}

theorem takes_parseSuffixes_stop (h : rest.headD .eof ≠ .punct .openBracket) {start : Nat}
    (ht : Q t) : Takes (parseSuffixes steps start t) rest rest Q := by
  obtain _ | steps := steps
  · exact takes_stalled rfl
  rw [parseSuffixes]
  refine takes_isAt (takes_following ?_)
  rw [beq_eq_false_iff_ne.mpr h, Bool.false_and, if_neg Bool.false_ne_true]
  exact takes_pure ht

theorem takes_parseSuffixes_array {start : Nat}
    (h : ∀ span steps, Takes (parseSuffixes steps start (.array t span)) rest out Q) :
    Takes (parseSuffixes steps start t)
      (.punct .openBracket :: .punct .closeBracket :: rest) out Q := by
  obtain _ | steps := steps
  · exact takes_stalled rfl
  rw [parseSuffixes]
  refine takes_isAt (takes_following ?_)
  exact takes_advance (takes_advance (takes_spanFrom fun span => h span _))

theorem Taken.part (h : Taken t) (hrest : rest.headD .eof ≠ .punct .openBracket) :
    Takes (parsePart steps) (t.tokens true ++ rest) rest (·.withoutSpans = t.withoutSpans) :=
  h fun _ _ _ ht' => takes_parseSuffixes_stop hrest ht'

theorem takes_parseOthers {ts : List TypeExpr} (h : ∀ t ∈ ts, Taken t)
    (hrest : EndsAt (rest.headD .eof)) :
    Takes (parseOthers steps) ((ts.flatMap fun t => .punct .bar :: t.tokens true) ++ rest) rest
      fun ts' => ts'.map withoutSpans = ts.map withoutSpans := by
  induction ts generalizing steps with
  | nil =>
    obtain _ | steps := steps
    · exact takes_stalled rfl
    rw [parseOthers]
    exact takes_else hrest.ne_bar (takes_pure rfl)
  | cons t ts ih =>
    obtain _ | steps := steps
    · exact takes_stalled rfl
    rw [parseOthers, flatMap_cons, cons_append, cons_append, append_assoc]
    refine takes_if rfl (takes_advance ?_)
    have hfollow : ((ts.flatMap fun t => .punct .bar :: t.tokens true) ++ rest).headD .eof ≠
        .punct .openBracket := by
      cases ts with
      | nil => exact hrest.ne_openBracket
      | cons u us => exact fun heq => by cases heq
    refine (Taken.part (h t mem_cons_self) hfollow).bind fun t' ht' => ?_
    refine (ih fun u hu => h u (mem_cons_of_mem t hu)).bind fun ts' hts' => takes_pure ?_
    rw [map_cons, map_cons, ht', hts']

theorem takes_parse_union {first second : TypeExpr} {others : List TypeExpr} (span : Span)
    (h : ∀ t ∈ first :: second :: others, Taken t) (hrest : EndsAt (rest.headD .eof)) :
    Takes (parse steps) (separated .bar (tokensOfParts (first :: second :: others)) ++ rest) rest
      fun t => t.withoutSpans = (TypeExpr.union (first :: second :: others) span).withoutSpans := by
  obtain _ | steps := steps
  · exact takes_stalled rfl
  rw [parse, tokensOfParts_eq, map_cons, separated, flatMap_map, append_assoc]
  refine takes_start fun _ => ?_
  refine (Taken.part (h first mem_cons_self) (fun heq => by cases heq)).bind
    fun first' hfst' => takes_if rfl ?_
  refine (takes_parseOthers (fun t ht => h t (mem_cons_of_mem first ht)) hrest).bind
    fun others' hoth' => takes_spanFrom fun _ => takes_pure ?_
  rw [withoutSpans, withoutSpans, allWithoutSpans_eq, allWithoutSpans_eq, map_cons, hfst',
    hoth']
  rfl

/-- Every type that is well-formed is read back. -/
theorem WellFormed.taken (h : t.WellFormed) : Taken t := by
  induction h with
  | named =>
    rintro (_ | steps) rest out Q hrest
    · exact takes_stalled rfl
    rw [parsePart]
    refine takes_start fun start => takes_else (fun heq => by cases heq) ?_
    refine takes_ident fun name' hnm' => hrest _ start _ ?_
    rw [withoutSpans, withoutSpans, hnm']
  | array _ ih =>
    intro steps rest out Q hrest
    rw [tokens, append_assoc]
    refine ih fun elem' start steps' hsame => ?_
    refine takes_parseSuffixes_array fun span' _ => hrest _ start _ ?_
    rw [withoutSpans, withoutSpans, hsame]
  | @union variants span hlen _ ih =>
    obtain _ | ⟨first, _ | ⟨second, others⟩⟩ := variants
    · cases hlen
    · exact absurd hlen (Nat.not_succ_le_self 1)
    rintro (_ | steps) rest out Q hrest
    · exact takes_stalled rfl
    rw [tokens, if_pos rfl, inParens, append_assoc, cons_append, parsePart]
    refine takes_start fun start => takes_if rfl (takes_advance ?_)
    refine (takes_parse_union span ih (endsAt_of_isEnd rfl)).bind fun t' ht' => ?_
    exact takes_expectMark (hrest t' start steps ht')

theorem WellFormed.takes_parse (h : t.WellFormed) (hrest : EndsAt (rest.headD .eof)) :
    Takes (parse steps) (t.tokens false ++ rest) rest (·.withoutSpans = t.withoutSpans) := by
  have hpart : t.tokens false = t.tokens true → Takes (parse steps) (t.tokens false ++ rest) rest
      (·.withoutSpans = t.withoutSpans) := by
    intro heq
    rw [heq]
    obtain _ | steps := steps
    · exact takes_stalled rfl
    rw [parse]
    refine takes_start fun _ => (Taken.part h.taken hrest.ne_openBracket).bind fun t' ht' => ?_
    exact takes_else hrest.ne_bar (takes_pure ht')
  cases h with
  | named => exact hpart rfl
  | array => exact hpart (by rw [tokens, tokens])
  | @union variants span hlen hvs =>
    obtain _ | ⟨first, _ | ⟨second, others⟩⟩ := variants
    · cases hlen
    · exact absurd hlen (Nat.not_succ_le_self 1)
    rw [tokens, if_neg Bool.false_ne_true]
    exact takes_parse_union span (fun t ht => (hvs t ht).taken) hrest

theorem WellFormed.takes_parse_cons (h : t.WellFormed) {u : Token} (hu : EndsAt u) :
    Takes (parse steps) (t.tokens false ++ u :: rest) (u :: rest)
      (·.withoutSpans = t.withoutSpans) :=
  h.takes_parse hu

end Readers

end TypeExpr

end Provision
