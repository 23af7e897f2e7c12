import Provision.Proofs.Spans.Program

/-!
# Reading comes to an end

A reader has a number of steps that its calls may be nested deep. Four of them for each token that
is left and a few more are always enough (`Parse.Ends`), so no call comes back to where it started
without a token being taken. In a loop this is so in each round: there is something to read, and
what is read takes a token (`Parse.Consumes`). At the end of the source there is nothing left to
read, so there no round follows.
-/

namespace Provision

open Parse Cursor

variable {α β : Type} {k depth power : Nat}

namespace Parse

/-- Wherever in a source a reader starts, with four steps for each token that is left and `k` more
it does not run out of steps. -/
def Ends (k : Nat) (m : Nat → Parse α) : Prop :=
  ∀ {c size steps}, Ordered size c → 4 * c.rest.length + k ≤ steps →
    (m steps).run c ≠ .error .stalled

/-- A reader comes to an end, and a result for which there is more to read takes a token. -/
structure ConsumesIf (goesOn : α → Prop) (k : Nat) (m : Nat → Parse α) : Prop where
  ends : Ends k m
  ordered : ∀ {c size steps a c'}, Ordered size c → 4 * c.rest.length + k ≤ steps →
    (m steps).run c = .ok (a, c') → Ordered size c'
  shorter : ∀ {c size steps a c'}, Ordered size c → 4 * c.rest.length + k ≤ steps →
    (m steps).run c = .ok (a, c') → goesOn a → c'.rest.length < c.rest.length
  atEnd : ∀ {c size steps a c'}, Ordered size c → c.rest = [] → k ≤ steps →
    (m steps).run c = .ok (a, c') → ¬ goesOn a

/-- A reader comes to an end, and takes a token. At the end of the source it fails. -/
abbrev Consumes (k : Nat) (m : Nat → Parse α) : Prop := ConsumesIf (fun _ => True) k m

/-- A reader of items up to the end of the source. -/
structure UpToEnd (loop : Nat → Parse (List α)) (item : Nat → Parse α) : Prop where
  zero : loop 0 = throw .stalled
  succ : ∀ steps, loop (steps + 1) = do
    skipSeparators
    if (← token) = .eof then return []
    else
      let a ← item steps
      return a :: (← loop steps)

/-- A reader of items each of which starts with a mark. -/
structure Marked (mark : Punct) (loop : Nat → Parse (List α)) (item : Nat → Parse α) : Prop where
  zero : loop 0 = throw .stalled
  succ : ∀ steps, loop (steps + 1) = do
    if ← isAt mark then
      let a ← item steps
      return a :: (← loop steps)
    else return []

/-- A reader of what follows something: in each round it becomes a part of something larger. -/
structure Extended (loop : Nat → α → Parse α) (round : Nat → α → Parse (Option α)) : Prop where
  zero : ∀ a, loop 0 a = throw .stalled
  succ : ∀ steps a, loop (steps + 1) a = do
    match ← round steps a with
    | some larger => loop steps larger
    | none => return a

/-- A loop of some form comes to an end, and takes a token in each round. -/
structure Rounds (form : (Nat → Parse (List α)) → (Nat → Parse α) → Prop) (k : Nat)
    (loop : Nat → Parse (List α)) (item : Nat → Parse α) : Prop where
  form : form loop item
  ends : Ends (k + 1) loop
  consumes : Consumes k item

/-- A loop that reads what follows comes to an end, and takes a token in each round but the last. -/
structure Growth (loop : Nat → α → Parse α) (round : Nat → α → Parse (Option α)) : Prop where
  form : Extended loop round
  ends : ∀ a, Ends 1 (loop · a)
  consumes : ∀ a, ConsumesIf (·.isSome) 0 (round · a)

variable {m : Nat → Parse α} {f : α → List Node} {S : Cursor → α → Cursor → Prop}
  {goesOn : α → Prop}

theorem Ends.of_adds (h : ∀ steps, Adds k steps (m steps) f S) : Ends k m := fun hc hsteps =>
  (h _ hsteps ⟨hc, le_rfl, .nil⟩).1

theorem ConsumesIf.of_places
    (h : ∀ {steps c size lo}, 4 * c.rest.length + k ≤ steps →
      Places c size lo [] (m steps) f fun a c' => goesOn a → c'.rest.length < c.rest.length) :
    ConsumesIf goesOn k m := by
  have hrt : ∀ {c size steps a c'}, Ordered size c → 4 * c.rest.length + k ≤ steps →
      (m steps).run c = .ok (a, c') →
      Ordered size c' ∧ (goesOn a → c'.rest.length < c.rest.length) :=
    fun hc hsteps hrun =>
      ((h hsteps ⟨hc, le_rfl, .nil⟩).2 _ _ hrun).imp Placed.ordered id
  refine ⟨fun hc hsteps => (h hsteps ⟨hc, le_rfl, .nil⟩).1,
    fun hc hsteps hrun => (hrt hc hsteps hrun).1,
    fun hc hsteps hrun => (hrt hc hsteps hrun).2, ?_⟩
  intro c size steps a c' hc hrest hsteps hrun hgoesOn
  have hlt := (hrt hc (by rw [hrest]; simpa using hsteps) hrun).2 hgoesOn
  rw [hrest] at hlt
  exact Nat.not_lt_zero _ hlt

theorem Consumes.of_adds (h : ∀ steps, Adds k steps (m steps) f S)
    (hS : ∀ {c a c'}, S c a c' → c'.rest.length < c.rest.length) : Consumes k m :=
  ConsumesIf.of_places fun hsteps => (h _ hsteps).imp fun _ _ ha _ => hS ha

theorem Rounds.of_adds {form : (Nat → Parse (List α)) → (Nat → Parse α) → Prop}
    {loop : Nat → Parse (List α)} {item : Nat → Parse α} {g : List α → List Node}
    {R : Cursor → List α → Cursor → Prop} {P : α → Prop} (hform : form loop item)
    (hloop : ∀ steps, Adds (k + 1) steps (loop steps) g R)
    (hit : ∀ steps, Adds k steps (item steps) f (Single P)) : Rounds form k loop item :=
  ⟨hform, Ends.of_adds hloop, Consumes.of_adds hit And.right⟩

theorem Extended.growth {loop : Nat → α → Parse α} {round : Nat → α → Parse (Option α)}
    (h : Extended loop round) (hround : ∀ a, ConsumesIf (·.isSome) 0 (round · a)) :
    Growth loop round := by
  refine ⟨h, fun a c size steps hc hsteps => ?_, hround⟩
  induction steps generalizing a c with
  | zero => omega
  | succ steps ih =>
    have hends : (round steps a).run c ≠ .error .stalled := (hround a).ends hc (by omega)
    simp only [h.succ, StateT.run_bind]
    cases hrun : (round steps a).run c with
    | error e =>
      rw [hrun] at hends
      exact fun hstl => hends (Except.error.inj hstl ▸ rfl)
    | ok r =>
      obtain ⟨larger, c'⟩ := r
      cases larger with
      | none => exact nofun
      | some larger =>
        have hlt := (hround a).shorter hc (by omega) hrun rfl
        exact ih larger (c := c') ((hround a).ordered hc (by omega) hrun) (by omega)

theorem places_forget {c : Cursor} {size lo : Nat} {ns : List Node} {m : Parse α}
    {Q : α → Cursor → Prop} (h : Places c size lo [] m f Q) : Places c size lo ns m f Q :=
  fun hc => h ⟨hc.ordered, hc.le_start, .nil⟩

end Parse

/-! ### Rounds -/

/-- Stepping over separators is a loop: each round takes a token, and at the end none follows. -/
theorem Cursor.skipSeparators_eq (c : Cursor) :
    c.skipSeparators = (if isSeparator c.current.token then c.advance.skipSeparators else c) ∧
      (isSeparator c.current.token = true → c.advance.rest.length < c.rest.length) := by
  obtain ⟨rest, size, last⟩ := c
  cases rest with
  | nil => exact ⟨rfl, nofun⟩
  | cons t rest =>
    refine ⟨?_, fun _ => Nat.lt_succ_self _⟩
    by_cases hsep : isSeparator t.token = true <;>
      simp [skipSeparators, dropSeparators, advance, current, hsep]

/-- Reads one more part of a union. -/
def TypeExpr.parseOther (steps : Nat) : Parse TypeExpr := do
  advance
  parsePart steps

/-- Reads `[]` behind a type, if it is there. -/
def TypeExpr.parseSuffix (start : Nat) (elem : TypeExpr) : Parse (Option TypeExpr) := do
  if (← isAt .openBracket) && (← following) == .punct .closeBracket then
    advance
    advance
    return some (.array elem (← spanFrom start))
  else return none

theorem TypeExpr.extended_suffixes (start : Nat) : Extended (TypeExpr.parseSuffixes · start)
    fun _ elem => TypeExpr.parseSuffix start elem := by
  refine ⟨fun elem => rfl, fun steps elem => ?_⟩
  rw [parseSuffixes, parseSuffix]
  simp only [bind_assoc]
  refine bind_congr fun isOpen => bind_congr fun next => ?_
  split <;> simp

/-- Reads a member access, a call or an operator behind an operand, if it is there. -/
def Expr.parseLink (steps depth power : Nat) (lhs : Expr) : Parse (Option Expr) := do
  match ← token with
  | .punct .dot =>
    advance
    let field ← name
    return some (.member lhs field (lhs.span.to field.span))
  | .punct .openParen =>
    advance
    let args ← parseCall steps depth
    expectMark .closeParen
    return some (.call lhs args (← spanFrom lhs.span.start))
  | .punct mark =>
    match BinaryOp.ofMark? mark with
    | some op =>
      if op.power < power then return none
      else
        advance
        let rhs ← parse steps depth (op.power + 1)
        return some (.binary lhs op rhs (lhs.span.to rhs.span))
    | none => return none
  | _ => return none

theorem Expr.extended_rest (depth power : Nat) : Extended (Expr.parseRest · depth power)
    (Expr.parseLink · depth power) := by
  refine ⟨fun lhs => by rw [parseRest], fun steps lhs => ?_⟩
  rw [parseRest, parseLink]
  simp only [bind_assoc]
  refine bind_congr fun t => ?_
  split
  · simp
  · simp
  · next mark _ _ =>
    cases hop : BinaryOp.ofMark? mark with
    | none => simp_all
    | some op => rcases Nat.lt_or_ge op.power power with h | h <;> simp_all [Nat.not_lt.2]
  · simp

theorem TypeExpr.consumes_parseOther : Consumes 1 TypeExpr.parseOther :=
  ConsumesIf.of_places fun {steps _ _ _} hsteps => places_advance fun _ hle =>
    ((TypeExpr.adding steps).parsePart (by omega)).imp fun _ _ ht _ => ht.2.2.trans_le hle

theorem TypeExpr.rounds_parseOthers :
    Rounds (Marked .bar) 1 TypeExpr.parseOthers TypeExpr.parseOther :=
  ⟨⟨by rw [parseOthers], fun steps => by rw [parseOthers]; simp only [parseOther, bind_assoc]⟩,
    fun hc hsteps => Ends.of_adds (fun steps => (adding steps).parseOthers) hc
    (by omega), consumes_parseOther⟩

theorem TypeExpr.consumesIf_parseSuffix (start : Nat) (elem : TypeExpr) :
    ConsumesIf (·.isSome) 0 fun _ => TypeExpr.parseSuffix start elem := by
  refine ConsumesIf.of_places (f := fun _ => []) fun {steps c size lo} _ => ?_
  rw [parseSuffix]
  refine places_look (fun c => c.current.token == .punct .openBracket) ?_
  refine places_look (fun c => c.following.token) ?_
  split
  · next hopen =>
    have ht := beq_iff_eq.mp (Bool.and_eq_true_iff.mp hopen).1
    refine places_next (ht ▸ Token.noConfusion) fun c₁ hlt => places_advance fun c₂ hle => ?_
    exact places_look (fun c => (⟨start, c.last⟩ : Span)) (places_pure rfl fun _ => by omega)
  · exact places_pure rfl fun h => by cases h

/-- What is added to an operand takes a token. -/
theorem Expr.consumesIf_parseLink (depth power : Nat) (lhs : Expr) :
    ConsumesIf (·.isSome) 0 (Expr.parseLink · depth power lhs) := by
  refine ConsumesIf.of_places (f := fun _ => []) fun {steps c size lo} hsteps => ?_
  rw [parseLink]
  refine places_look (fun c => c.current.token) ?_
  split
  · next hdot =>
    refine places_next (hdot ▸ Token.noConfusion) fun c₁ hlt => ?_
    refine places_name.bind fun field c₂ hlt' => places_forget (places_pure rfl fun _ => ?_)
    omega
  · next hparen =>
    refine places_next (hparen ▸ Token.noConfusion) fun c₁ hlt => ?_
    refine ((adding steps).parseCall (by omega)).bind fun args c₂ hargs => ?_
    refine places_expectMark fun c₃ hlt' => places_forget ?_
    exact places_look (fun c => (⟨lhs.span.start, c.last⟩ : Span))
      (places_pure rfl fun _ => by omega)
  · next mark hdot hparen hmark =>
    cases BinaryOp.ofMark? mark with
    | none => exact places_pure rfl fun h => by cases h
    | some op =>
      dsimp only
      split
      · exact places_pure rfl fun h => by cases h
      · refine places_next (hmark ▸ Token.noConfusion) fun c₁ hlt => ?_
        refine ((adding steps).parse (by omega)).bind fun rhs c₂ hrhs => ?_
        exact places_forget (places_pure rfl fun _ => by omega)
  · exact places_pure rfl fun h => by cases h

theorem Expr.consumes_parseField (depth : Nat) : Consumes 2 (Expr.parseField · depth) := by
  refine ConsumesIf.of_places (f := fun f => [] ++ [f.node]) fun {steps c size lo} hsteps => ?_
  refine places_start fun start => places_name.bind fun key c₁ hlt => ?_
  refine places_expectMark fun c₂ hlt' => ?_
  refine ((adding steps).item (by omega)).bind fun value c₃ hval => ?_
  exact places_close (by simp) (fun _ => rfl) fun _ _ => by omega

/-! ### All readers -/

/-- **Progress.** A source is read, or there is an error that is not about steps. A declaration, a
decoration, a type and an expression take a token each. With four nested calls for each token that
is left and a few more, none of their readers runs out of steps; a call that came back to itself
before the same token would. Neither does a loop, of whatever form, and each of its rounds takes a
token, so at the end of the source no round follows. -/
theorem Program.reading_ends :
    (∀ source, (∃ p, Program.parse source = .ok p) ∨
      ∃ e, Program.parse source = .error e ∧ e ≠ .stalled) ∧
    -- separators
    (∀ c : Cursor,
      c.skipSeparators = (if isSeparator c.current.token then c.advance.skipSeparators else c) ∧
        (isSeparator c.current.token = true → c.advance.rest.length < c.rest.length)) ∧
    -- declarations
    Rounds UpToEnd 2 Decl.parseAll Decl.parse ∧
    Rounds (Bracketed .closeBrace) 2 Decl.parseBody Decl.parse ∧
    Rounds (Bracketed .closeBrace) 2 SchemaProperty.parseList SchemaProperty.parse ∧
    Rounds (Bracketed .closeBrace) 0 Init.parseList Init.parse ∧
    Rounds Commas 2 Param.parseList Param.parse ∧
    -- decorations
    Rounds (Marked .atSign) 0 Decoration.parseList Decoration.parse ∧
    Rounds Commas 2 NamedArg.parseList NamedArg.parse ∧
    -- types
    Consumes 2 TypeExpr.parse ∧ Consumes 1 TypeExpr.parsePart ∧
    Rounds (Marked .bar) 1 TypeExpr.parseOthers TypeExpr.parseOther ∧
    (∀ start, Growth (TypeExpr.parseSuffixes · start) fun _ => TypeExpr.parseSuffix start) ∧
    -- expressions
    ∀ depth power, Consumes 2 (Expr.parse · depth power) ∧
      Growth (Expr.parseRest · depth power) (Expr.parseLink · depth power) ∧
      Rounds (Bracketed .closeBracket) 2 (Expr.parseItems · depth) (Expr.parse · depth 0) ∧
      Rounds (Bracketed .closeBrace) 2 (Expr.parseFields · depth) (Expr.parseField · depth) ∧
      Rounds Commas 2 (Expr.parseList · depth) (Expr.parse · depth 0) := by
  have hdecl : ∀ steps, Adds 2 steps (Decl.parse steps) _ (Single _) :=
    fun steps => (Decl.adding steps).parse
  have hit : ∀ depth steps, Adds 2 steps (Expr.parse steps depth 0) _ (Single _) :=
    fun _ steps => (Expr.adding steps).item
  refine ⟨fun source => ?_, Cursor.skipSeparators_eq,
    .of_adds ⟨by rw [Decl.parseAll], fun _ => by rw [Decl.parseAll]⟩ Decl.adds_parseAll hdecl,
    .of_adds Decl.bracketed_body (fun steps => (Decl.adding steps).parseBody) hdecl,
    .of_adds SchemaProperty.bracketed
      (fun _ => SchemaProperty.bracketed.adds SchemaProperty.adds_parse) SchemaProperty.adds_parse,
    .of_adds Init.bracketed (fun _ => Init.bracketed.adds Init.adds_parse) Init.adds_parse,
    .of_adds Param.commas (fun _ => Param.commas.adds Param.adds_parse) Param.adds_parse,
    ⟨⟨by rw [Decoration.parseList], Decoration.parseList_succ⟩,
      Ends.of_adds Decoration.adds_parseList,
      Consumes.of_adds Decoration.adds_parse fun h => h.2.2⟩,
    .of_adds NamedArg.commas (fun _ => NamedArg.commas.adds NamedArg.adds_parse)
      NamedArg.adds_parse,
    Consumes.of_adds (fun steps => (TypeExpr.adding steps).parse) fun h => h.2.2,
    Consumes.of_adds (fun steps => (TypeExpr.adding steps).parsePart) fun h => h.2.2,
    TypeExpr.rounds_parseOthers,
    fun start => (TypeExpr.extended_suffixes start).growth (TypeExpr.consumesIf_parseSuffix start),
    fun depth power => ⟨Consumes.of_adds (fun steps => (Expr.adding steps).parse) And.right,
      (Expr.extended_rest depth power).growth (Expr.consumesIf_parseLink depth power),
      .of_adds (Expr.bracketed_items depth) (fun steps => (Expr.adding steps).parseItems)
        (hit depth),
      ⟨Expr.bracketed_fields depth, Ends.of_adds fun steps => (Expr.adding steps).parseFields,
        Expr.consumes_parseField depth⟩,
      .of_adds (Expr.commas_list depth) (fun steps => (Expr.adding steps).parseList)
        (hit depth)⟩⟩
  have hstl := (Program.parse_cases source).1
  cases hread : Program.parse source with
  | ok p => exact .inl ⟨p, rfl⟩
  | error e => exact .inr ⟨e, rfl, fun he => hstl (by rw [hread, he])⟩

end Provision
