import Provision.Decl.Parser
import Provision.Proofs.Program
import Provision.Proofs.Rendering

/-!
# Programs that a source text can hold

Not every tree of declarations, types and expressions is that of a source text: an expression must
not be nested too deep, and needs its parentheses (`Expr.Fits`); a union has two parts at least
(`TypeExpr.WellFormed`); a decoration without arguments does not stand before a parenthesis
(`SchemaProperty.WellFormed`). In particular no name that is declared holds a point
(`Program.WellFormed.dotFree`). That every program that was read is well-formed is shown together
with where its parts stand, in `Provision.Proofs.Spans.Program`.
-/

namespace Provision

open Token List

variable {e : Expr}

/-! ### Expressions that need no further parentheses -/

/-- A token that does not continue an expression read with the given power. -/
structure Token.Stops (power : Nat) (t : Token) : Prop where
  ne_dot : t ≠ .punct .dot
  ne_openParen : t ≠ .punct .openParen
  lt_power : ∀ {mark op}, t = .punct mark → BinaryOp.ofMark? mark = some op → op.power < power

theorem Token.stops_punct {mark : Punct} {power : Nat} (hdot : mark ≠ .dot)
    (hparen : mark ≠ .openParen)
    (hpower : ∀ op, BinaryOp.ofMark? mark = some op → op.power < power) :
    (Token.punct mark).Stops power where
  ne_dot heq := hdot (Token.punct.inj heq)
  ne_openParen heq := hparen (Token.punct.inj heq)
  lt_power heq hop := by
    obtain rfl := Token.punct.inj heq
    exact hpower _ hop

def Lit.Readable : Lit → Prop
  | .int value => 0 ≤ value ∧ value.toNat < intCeiling
  | .float value => ∃ whole fraction, Number.Written value whole fraction
  | .str _ | .bool _ | .null => True

namespace Expr

def isOperation : Expr → Bool
  | .unary _ _ _ | .binary _ _ _ _ => true
  | _ => false

/-- The expression ends before the token: its last operand does not go on. -/
def Ends (t : Token) : Expr → Prop
  | .unary _ _ _ => t.Stops UnaryOp.power
  | .binary _ op _ _ => t.Stops (op.power + 1)
  | _ => True

/-- The expression is a left operand of `op` without parentheses: operators of one level group to
the left. -/
def GroupsBefore (op : BinaryOp) : Expr → Prop
  | .binary _ inner _ _ => op.power ≤ inner.power
  | _ => True

/-- The expression can be read inside `depth` others with the given power. -/
inductive Fits : (depth power : Nat) → Expr → Prop
  | lit {depth power : Nat} {value : Lit} {span : Span} (hdp : depth < maxNesting)
      (hval : value.Readable) : Fits depth power (.lit value span)
  | var {depth power : Nat} {name : Ident} (hdp : depth < maxNesting)
      (hnm : isIdentifier name.text) : Fits depth power (.var name)
  | paren {depth power : Nat} {inner : Expr} {span : Span} (hdp : depth < maxNesting)
      (hin : Fits (depth + 1) 0 inner) : Fits depth power (.paren inner span)
  | array {depth power : Nat} {items : List Expr} {span : Span} (hdp : depth < maxNesting)
      (hits : ∀ e ∈ items, Fits (depth + 1) 0 e) : Fits depth power (.array items span)
  | object {depth power : Nat} {fields : List ObjectField} {span : Span}
      (hdp : depth < maxNesting) (hflds : ∀ f ∈ fields, Fits (depth + 1) 0 f.value) :
      Fits depth power (.object fields span)
  | unary {depth power : Nat} {op : UnaryOp} {operand : Expr} {span : Span}
      (hdp : depth < maxNesting) (hoperand : Fits (depth + 1) UnaryOp.power operand) :
      Fits depth power (.unary op operand span)
  | member {depth power : Nat} {base : Expr} {field : Ident} {span : Span}
      (hbase : base.isOperation = false) (h : Fits depth power base) :
      Fits depth power (.member base field span)
  | call {depth power : Nat} {callee : Expr} {args : List Expr} {span : Span}
      (hcallee : callee.isOperation = false) (h : Fits depth power callee)
      (hargs : ∀ a ∈ args, Fits (depth + 1) 0 a) : Fits depth power (.call callee args span)
  | binary {depth power : Nat} {lhs : Expr} {op : BinaryOp} {rhs : Expr} {span : Span}
      (hpower : power ≤ op.power) (hgroups : lhs.GroupsBefore op) (hlhs : Fits depth power lhs)
      (hrhs : Fits (depth + 1) (op.power + 1) rhs) : Fits depth power (.binary lhs op rhs span)

theorem Fits.depth_lt {depth power : Nat} (h : Fits depth power e) : depth < maxNesting := by
  induction h with
  | lit hdp _ | var hdp _ | paren hdp _ _ | array hdp _ _ | object hdp _ _
  | unary hdp _ _ => exact hdp
  | member _ _ ih | call _ _ _ ih _ | binary _ _ _ _ ih _ => exact ih

/-- What fits at a depth fits nearer to the surface. -/
theorem Fits.shallower {depth power : Nat} (h : Fits depth power e) {depth' : Nat}
    (hle : depth' ≤ depth) : Fits depth' power e := by
  induction h generalizing depth' with
  | lit hdp hval => exact .lit (by omega) hval
  | var hdp hnm => exact .var (by omega) hnm
  | paren hdp _ ih => exact .paren (by omega) (ih (by omega))
  | array hdp _ ih => exact .array (by omega) fun e he => ih e he (by omega)
  | object hdp _ ih => exact .object (by omega) fun f hf => ih f hf (by omega)
  | unary hdp _ ih => exact .unary (by omega) (ih (by omega))
  | member hbase _ ih => exact .member hbase (ih hle)
  | call hcallee _ _ ih ihargs =>
    exact .call hcallee (ih hle) fun a ha => ihargs a ha (by omega)
  | binary hpower hgroups _ _ ihlhs ihrhs =>
    exact .binary hpower hgroups (ihlhs hle) (ihrhs (by omega))

theorem Ends.isOperation {t : Token} (h : e.Ends t)
    (ht : ∀ power, ¬ t.Stops power) : e.isOperation = false := by
  cases e with
  | unary | binary => exact absurd h (ht _)
  | _ => rfl

theorem Ends.groupsBefore {mark : Punct} {op : BinaryOp} (hop : BinaryOp.ofMark? mark = some op)
    (h : e.Ends (.punct mark)) : e.GroupsBefore op := by
  cases e with
  | binary lhs inner rhs span => exact Nat.le_of_lt_succ (h.lt_power rfl hop)
  | _ => exact trivial

end Expr

/-! ### Types and parts of declarations -/

/-- A type that a source text can hold. -/
inductive TypeExpr.WellFormed : TypeExpr → Prop
  | named {name : Ident} (hnm : isIdentifier name.text) : WellFormed (.named name)
  | array {elem : TypeExpr} {span : Span} (helem : WellFormed elem) :
      WellFormed (.array elem span)
  | union {variants : List TypeExpr} {span : Span} (hlen : 2 ≤ variants.length)
      (hvs : ∀ t ∈ variants, WellFormed t) : WellFormed (.union variants span)

def TypeExpr.StartsWithName (inside : Bool) (t : TypeExpr) : Prop :=
  ∃ name, (t.tokens inside).head? = some (.ident name)

def Arguments.WellFormed : Arguments → Prop
  | .bare | .empty => True
  | .value (.array (first :: second :: others) _) =>
    ∀ e ∈ first :: second :: others, e.Fits 0 0
  | .value arg => arg.Fits 0 0
  | .named args => args ≠ [] ∧ ∀ a ∈ args, isIdentifier a.name.text ∧ a.value.Fits 0 0

/-- A decoration that a source text can hold. -/
structure Decoration.WellFormed (d : Decoration) : Prop where
  name : isIdentifier d.name.text
  args : d.args.WellFormed

/-- The last of some decorations has no arguments, so that a parenthesis would open some. -/
def Decoration.EndsBare : List Decoration → Prop
  | [] => False
  | [d] => d.args = .bare
  | _ :: e :: ds => EndsBare (e :: ds)

/-- A property that a source text can hold. -/
structure SchemaProperty.WellFormed (q : SchemaProperty) : Prop where
  decorations : ∀ d ∈ q.decorations, d.WellFormed
  type : q.type.WellFormed
  startsWithName : Decoration.EndsBare q.decorations → q.type.StartsWithName false
  default : ∀ e, q.default = some e → e.Fits 0 0

/-- A parameter that a source text can hold. -/
structure Param.WellFormed (q : Param) : Prop where
  type : q.type.WellFormed
  name : isIdentifier q.name.text

/-- A declaration that a source text can hold, its decorations apart. -/
inductive Decl.WellFormedCore : Decl → Prop
  | schema {d : SchemaDecl} (hnm : isIdentifier d.name.text)
      (hprops : ∀ q ∈ d.properties, q.WellFormed) : WellFormedCore (.schema d)
  | resource {d : ResourceDecl} (hsch : isIdentifier d.schema.text)
      (hnm : isIdentifier d.name.text) (hbody : ∀ i ∈ d.body, i.value.Fits 0 0) :
      WellFormedCore (.resource d)
  | component {decs : List Decoration} {name : Ident} {body : List Decl} {span : Span}
      (hnm : isIdentifier name.text) (hbody : ∀ d ∈ body, WellFormedCore d)
      (hdecs : ∀ d ∈ body, ∀ a ∈ d.decorations, a.WellFormed) :
      WellFormedCore (.component decs name body span)
  | inst {d : InstanceDecl} (hcomp : isIdentifier d.component.text)
      (hnm : isIdentifier d.name.text) (hbody : ∀ i ∈ d.body, i.value.Fits 0 0) :
      WellFormedCore (.inst d)
  | input {d : InputDecl} (hty : d.type.WellFormed) (hnm : isIdentifier d.name.text)
      (hdefault : ∀ e, d.default = some e → e.Fits 0 0) : WellFormedCore (.input d)
  | output {d : OutputDecl} (hty : d.type.WellFormed) (hnm : isIdentifier d.name.text)
      (hval : ∀ e, d.value = some e → e.Fits 0 0) : WellFormedCore (.output d)
  | var {d : VarDecl} (hty : ∀ t, d.type = some t → t.WellFormed)
      (hnm : isIdentifier d.name.text) (hval : d.value.Fits 0 0) : WellFormedCore (.var d)
  | function {d : FunDecl} (hnm : isIdentifier d.name.text)
      (hps : ∀ q ∈ d.params, q.WellFormed) (hrt : ∀ t, d.result = some t → t.WellFormed)
      (hbody : d.body.Fits 0 0) : WellFormedCore (.function d)
  | alias {d : AliasDecl} (hnm : isIdentifier d.name.text) (hty : d.type.WellFormed) :
      WellFormedCore (.alias d)

/-- A declaration that a source text can hold. -/
structure Decl.WellFormed (d : Decl) : Prop where
  core : d.WellFormedCore
  decorations : ∀ a ∈ d.decorations, a.WellFormed

def Program.WellFormed (p : Program) : Prop := ∀ d ∈ p.items, d.WellFormed

/-! ### Their parts -/

namespace TypeExpr

theorem StartsWithName.array {elem : TypeExpr} (h : elem.StartsWithName true) (inside : Bool)
    (span : Span) : (TypeExpr.array elem span).StartsWithName inside := by
  obtain ⟨name, hnm⟩ := h
  refine ⟨name, ?_⟩
  rw [TypeExpr.tokens, head?_append, hnm]
  rfl

theorem StartsWithName.union {first : TypeExpr} (h : first.StartsWithName true)
    (others : List TypeExpr) (span : Span) :
    (TypeExpr.union (first :: others) span).StartsWithName false := by
  obtain ⟨name, hnm⟩ := h
  refine ⟨name, ?_⟩
  rw [TypeExpr.tokens, TypeExpr.tokensOfParts, separated, if_neg Bool.false_ne_true,
    head?_append, hnm]
  rfl

end TypeExpr

theorem Arguments.wellFormed_value {arg : Expr} (h : arg.Fits 0 0) :
    (Arguments.value arg).WellFormed := by
  unfold Arguments.WellFormed
  split
  · trivial
  · trivial
  · next first second others span heq =>
    obtain rfl := Arguments.value.inj heq
    cases h with
    | array _ hits => exact fun e he => (hits e he).shallower (Nat.zero_le _)
  · next heq =>
    obtain rfl := Arguments.value.inj heq
    exact h
  · next heq => cases heq

/-- Decorations that are read from the token `t` up to the token `u`. -/
structure Decoration.Listed (t : Token) (ds : List Decoration) (u : Token) : Prop where
  wellFormed : ∀ d ∈ ds, d.WellFormed
  ne_openParen : EndsBare ds → u ≠ .punct .openParen
  eq_of_nil : ds = [] → u = t

/-- A bare decoration can come first only where no parenthesis follows it. -/
theorem Decoration.Listed.cons {t t' u : Token} {d : Decoration} {ds : List Decoration}
    (h : Listed t ds u) (hd : d.WellFormed) (hbare : d.args = .bare → t ≠ .punct .openParen) :
    Listed t' (d :: ds) u where
  wellFormed := forall_mem_cons.mpr ⟨hd, h.wellFormed⟩
  ne_openParen hends := by
    cases ds with
    | nil =>
      rw [h.eq_of_nil rfl]
      exact hbare hends
    | cons e es => exact h.ne_openParen hends
  eq_of_nil hnil := absurd hnil (cons_ne_nil d ds)

/-! ### Names without points -/

theorem Token.plain_of_isIdentifier {text : String} (h : isIdentifier text) : Plain text := by
  have hword : isWord text = true := (Bool.and_eq_true_iff.mp h).1
  unfold isWord at hword
  unfold Plain
  cases hchars : text.toList with
  | nil => exact not_mem_nil
  | cons c cs =>
    rw [hchars, Bool.and_eq_true, all_eq_true] at hword
    intro hdot
    rcases mem_cons.mp hdot with rfl | hdot
    · exact absurd hword.1 (by decide)
    · exact absurd (hword.2 _ hdot) (by decide)

theorem Decl.WellFormedCore.isIdentifier_name {d : Decl} (h : d.WellFormedCore) :
    isIdentifier d.name.text := by
  cases h <;> assumption

theorem Decl.WellFormedCore.of_mem_members {d : Decl} (h : d.WellFormedCore) {e : Decl}
    (he : e ∈ d.members) : e.WellFormedCore := by
  cases h with
  | component _ hbody _ => exact hbody e he
  | _ => exact (not_mem_nil he).elim

/-- No name of a well-formed program has a dot in it. -/
theorem Program.WellFormed.dotFree {p : Program} (h : p.WellFormed) : p.DotFree := by
  intro d hd
  have hcore := (h d hd).core
  refine ⟨Token.plain_of_isIdentifier hcore.isIdentifier_name, fun e he => ?_⟩
  exact Token.plain_of_isIdentifier (hcore.of_mem_members he).isIdentifier_name

end Provision
