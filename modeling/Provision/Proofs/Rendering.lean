import Provision.Decl.Parser
import Provision.Proofs.Token

/-!
# Writing programs

`Program.render` writes a program down. Members of a body are separated by `;`, items and arguments
by `,`. Parentheses stand where the program has them, and besides only around a union of types that
is an element of an array or a part of another union. Several values of a decoration are written as
several arguments.

Two programs are the same up to spans if they are equal without them (`Program.withoutSpans`).
-/

namespace Provision

/-! ### Spans -/

def Span.empty : Span := ⟨0, 0⟩

def Ident.withoutSpan (name : Ident) : Ident := ⟨name.text, .empty⟩

mutual

def Expr.withoutSpans : Expr → Expr
  | .lit value _ => .lit value .empty
  | .var name => .var name.withoutSpan
  | .member base field _ => .member base.withoutSpans field.withoutSpan .empty
  | .array items _ => .array (Expr.allWithoutSpans items) .empty
  | .object fields _ => .object (Expr.fieldsWithoutSpans fields) .empty
  | .unary op operand _ => .unary op operand.withoutSpans .empty
  | .call callee args _ => .call callee.withoutSpans (Expr.allWithoutSpans args) .empty
  | .binary lhs op rhs _ => .binary lhs.withoutSpans op rhs.withoutSpans .empty
  | .paren inner _ => .paren inner.withoutSpans .empty

def Expr.allWithoutSpans : List Expr → List Expr
  | [] => []
  | e :: es => e.withoutSpans :: Expr.allWithoutSpans es

def Expr.fieldsWithoutSpans : List ObjectField → List ObjectField
  | [] => []
  | .mk key value _ :: fields =>
    .mk key.withoutSpan value.withoutSpans .empty :: Expr.fieldsWithoutSpans fields

end

mutual

def TypeExpr.withoutSpans : TypeExpr → TypeExpr
  | .named name => .named name.withoutSpan
  | .array elem _ => .array elem.withoutSpans .empty
  | .union variants _ => .union (TypeExpr.allWithoutSpans variants) .empty

def TypeExpr.allWithoutSpans : List TypeExpr → List TypeExpr
  | [] => []
  | t :: ts => t.withoutSpans :: TypeExpr.allWithoutSpans ts

end

def NamedArg.withoutSpans (a : NamedArg) : NamedArg :=
  ⟨a.name.withoutSpan, a.value.withoutSpans, .empty⟩

def Arguments.withoutSpans : Arguments → Arguments
  | .bare => .bare
  | .empty => .empty
  | .value arg => .value arg.withoutSpans
  | .named args => .named (args.map NamedArg.withoutSpans)

def Decoration.withoutSpans (d : Decoration) : Decoration :=
  ⟨d.name.withoutSpan, d.args.withoutSpans, .empty⟩

def SchemaProperty.withoutSpans (q : SchemaProperty) : SchemaProperty :=
  ⟨q.decorations.map Decoration.withoutSpans, q.type.withoutSpans, q.name.withoutSpan,
    q.default.map Expr.withoutSpans, .empty⟩

def Init.withoutSpans (i : Init) : Init :=
  ⟨i.name.withoutSpan, i.value.withoutSpans, .empty⟩

def Param.withoutSpans (q : Param) : Param := ⟨q.type.withoutSpans, q.name.withoutSpan, .empty⟩

mutual

def Decl.withoutSpans : Decl → Decl
  | .schema d => .schema ⟨d.decorations.map Decoration.withoutSpans, d.name.withoutSpan,
      d.properties.map SchemaProperty.withoutSpans, .empty⟩
  | .resource d => .resource ⟨d.decorations.map Decoration.withoutSpans, d.schema.withoutSpan,
      d.name.withoutSpan, d.body.map Init.withoutSpans, .empty⟩
  | .component decs name body _ => .component (decs.map Decoration.withoutSpans)
      name.withoutSpan (Decl.allWithoutSpans body) .empty
  | .inst d => .inst ⟨d.decorations.map Decoration.withoutSpans, d.component.withoutSpan,
      d.name.withoutSpan, d.body.map Init.withoutSpans, .empty⟩
  | .input d => .input ⟨d.decorations.map Decoration.withoutSpans, d.type.withoutSpans,
      d.name.withoutSpan, d.default.map Expr.withoutSpans, .empty⟩
  | .output d => .output ⟨d.decorations.map Decoration.withoutSpans, d.type.withoutSpans,
      d.name.withoutSpan, d.value.map Expr.withoutSpans, .empty⟩
  | .var d => .var ⟨d.decorations.map Decoration.withoutSpans, d.type.map TypeExpr.withoutSpans,
      d.name.withoutSpan, d.value.withoutSpans, .empty⟩
  | .function d => .function ⟨d.decorations.map Decoration.withoutSpans, d.name.withoutSpan,
      d.params.map Param.withoutSpans, d.result.map TypeExpr.withoutSpans, d.body.withoutSpans,
      .empty⟩
  | .alias d => .alias ⟨d.decorations.map Decoration.withoutSpans, d.name.withoutSpan,
      d.type.withoutSpans, .empty⟩

def Decl.allWithoutSpans : List Decl → List Decl
  | [] => []
  | d :: ds => d.withoutSpans :: Decl.allWithoutSpans ds

end

def Program.withoutSpans (p : Program) : Program := ⟨Decl.allWithoutSpans p.items, .empty⟩

/-! ### Tokens of a program -/

namespace Token

/-- The token that a name is written with: the word that it is, if this stands for a name, or else
a string. -/
def ofName (text : String) : Token :=
  match Keyword.ofText? text with
  | some word => if word.isDeclaration then .keyword word else .str text
  | none => if isWord text then .ident text else .str text

def separated (mark : Punct) : List (List Token) → List Token
  | [] => []
  | part :: parts => part ++ parts.flatMap (.punct mark :: ·)

def inParens (ts : List Token) : List Token := .punct .openParen :: ts ++ [.punct .closeParen]

def inBraces (members : List (List Token)) : List Token :=
  .punct .openBrace :: separated .semicolon members ++ [.punct .closeBrace]

end Token

open Token

def UnaryOp.mark : UnaryOp → Punct
  | .not => .bang
  | .neg => .minus

def BinaryOp.mark : BinaryOp → Punct
  | .or => .either
  | .and => .both
  | .eq => .equal
  | .ne => .notEqual
  | .lt => .less
  | .le => .lessEqual
  | .gt => .greater
  | .ge => .greaterEqual
  | .add => .plus
  | .sub => .minus
  | .mul => .star
  | .div => .slash

def Lit.token : Lit → Token
  | .int value => .int value.toNat
  | .float value => .float value
  | .str text => .str text
  | .bool true => .keyword .truth
  | .bool false => .keyword .falsity
  | .null => .keyword .nothing

mutual

def Expr.tokens : Expr → List Token
  | .lit value _ => [value.token]
  | .var name => [.ident name.text]
  | .member base field _ => base.tokens ++ [.punct .dot, .ofName field.text]
  | .array items _ =>
    .punct .openBracket :: separated .comma (Expr.tokensOfAll items) ++ [.punct .closeBracket]
  | .object fields _ =>
    .punct .openBrace :: separated .comma (Expr.tokensOfFields fields) ++ [.punct .closeBrace]
  | .unary op operand _ => .punct op.mark :: operand.tokens
  | .call callee args _ =>
    callee.tokens ++ inParens (separated .comma (Expr.tokensOfAll args))
  | .binary lhs op rhs _ => lhs.tokens ++ .punct op.mark :: rhs.tokens
  | .paren inner _ => inParens inner.tokens

def Expr.tokensOfAll : List Expr → List (List Token)
  | [] => []
  | e :: es => e.tokens :: Expr.tokensOfAll es

def Expr.tokensOfFields : List ObjectField → List (List Token)
  | [] => []
  | .mk key value _ :: fields =>
    (.ofName key.text :: .punct .colon :: value.tokens) :: Expr.tokensOfFields fields

end

mutual

/-- The tokens of a type; inside an array or a union, a union stands in parentheses. -/
def TypeExpr.tokens (inside : Bool) : TypeExpr → List Token
  | .named name => [.ident name.text]
  | .array elem _ => elem.tokens true ++ [.punct .openBracket, .punct .closeBracket]
  | .union variants _ =>
    let parts := separated .bar (TypeExpr.tokensOfParts variants)
    if inside then inParens parts else parts

def TypeExpr.tokensOfParts : List TypeExpr → List (List Token)
  | [] => []
  | t :: ts => t.tokens true :: TypeExpr.tokensOfParts ts

end

def NamedArg.tokens (a : NamedArg) : List Token :=
  .ident a.name.text :: .punct .assign :: a.value.tokens

def Arguments.tokens : Arguments → List Token
  | .bare => []
  | .empty => inParens []
  | .value (.array (first :: second :: others) _) =>
    inParens (separated .comma (Expr.tokensOfAll (first :: second :: others)))
  | .value arg => inParens arg.tokens
  | .named args => inParens (separated .comma (args.map NamedArg.tokens))

def Decoration.tokens (d : Decoration) : List Token :=
  .punct .atSign :: .ident d.name.text :: d.args.tokens

def Expr.initializerTokens : Option Expr → List Token
  | none => []
  | some e => .punct .assign :: e.tokens

def SchemaProperty.tokens (q : SchemaProperty) : List Token :=
  q.decorations.flatMap Decoration.tokens ++ q.type.tokens false ++
    .ofName q.name.text :: Expr.initializerTokens q.default

def Init.tokens (i : Init) : List Token := .ofName i.name.text :: .punct .assign :: i.value.tokens

def Param.tokens (q : Param) : List Token := q.type.tokens false ++ [.ident q.name.text]

def TypeExpr.optionalTokens : Option TypeExpr → List Token
  | none => []
  | some t => t.tokens false

mutual

/-- The tokens of a declaration behind its decorations. -/
def Decl.coreTokens : Decl → List Token
  | .schema d => .keyword .schema :: .ident d.name.text ::
      inBraces (d.properties.map SchemaProperty.tokens)
  | .resource d => .keyword .resource :: .ident d.schema.text :: .ident d.name.text ::
      inBraces (d.body.map Init.tokens)
  | .component _ name body _ => .keyword .component :: .ident name.text ::
      inBraces (Decl.tokensOfAll body)
  | .inst d => .keyword .component :: .ident d.component.text :: .ident d.name.text ::
      inBraces (d.body.map Init.tokens)
  | .input d => .keyword .input :: d.type.tokens false ++
      .ident d.name.text :: Expr.initializerTokens d.default
  | .output d => .keyword .output :: d.type.tokens false ++
      .ident d.name.text :: Expr.initializerTokens d.value
  | .var d => .keyword .variable :: TypeExpr.optionalTokens d.type ++
      .ident d.name.text :: .punct .assign :: d.value.tokens
  | .function d => .keyword .function :: .ident d.name.text ::
      inParens (separated .comma (d.params.map Param.tokens)) ++
        (TypeExpr.optionalTokens d.result ++ inBraces [d.body.tokens])
  | .alias d => .keyword .alias :: .ident d.name.text :: .punct .assign :: d.type.tokens false

/-- The tokens of some declarations with their decorations. -/
def Decl.tokensOfAll : List Decl → List (List Token)
  | [] => []
  | d :: ds => (d.decorations.flatMap Decoration.tokens ++ d.coreTokens) :: Decl.tokensOfAll ds

end

def Program.tokens (p : Program) : List Token := separated .semicolon (Decl.tokensOfAll p.items)

/-- A program as text, with numbers written as `numerals` do. -/
def Program.render (numerals : Numerals) (p : Program) : String :=
  String.ofList (textOf numerals p.tokens)

/-! ### Lists -/

theorem Expr.allWithoutSpans_eq (es : List Expr) :
    Expr.allWithoutSpans es = es.map Expr.withoutSpans := by
  induction es with
  | nil => rfl
  | cons e es ih => rw [Expr.allWithoutSpans, ih, List.map_cons]

theorem Expr.tokensOfAll_eq (es : List Expr) : Expr.tokensOfAll es = es.map Expr.tokens := by
  induction es with
  | nil => rfl
  | cons e es ih => rw [Expr.tokensOfAll, ih, List.map_cons]

end Provision
