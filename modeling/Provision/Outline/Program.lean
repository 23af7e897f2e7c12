import Provision.Decl
import Provision.Outline

/-!
# The outline of a program

Every node of a program as a labelled record with its parts in order.
-/

namespace Provision

open Decoration

def Span.outline (s : Span) : Outline :=
  .record "Span" [("start", .int s.start), ("end", .int s.stop)]

def Ident.outline (i : Ident) : Outline :=
  .record "Ident" [("text", .text i.text), ("span", i.span.outline)]

def Lit.outline : Lit → Outline
  | .int n => .tagged "Int" [.int n]
  | .float x => .tagged "Float" [.number x]
  | .str s => .tagged "Str" [.text s]
  | .bool b => .tagged "Bool" [.bool b]
  | .null => .tag "Null"

def UnaryOp.outline : UnaryOp → Outline
  | .not => .tag "Not"
  | .neg => .tag "Neg"

def BinaryOp.outline : BinaryOp → Outline
  | .or => .tag "Or"
  | .and => .tag "And"
  | .eq => .tag "Eq"
  | .ne => .tag "Ne"
  | .lt => .tag "Lt"
  | .le => .tag "Le"
  | .gt => .tag "Gt"
  | .ge => .tag "Ge"
  | .add => .tag "Add"
  | .sub => .tag "Sub"
  | .mul => .tag "Mul"
  | .div => .tag "Div"

namespace Expr

mutual

def outline : Expr → Outline
  | .lit value s => .tagged "Lit" [value.outline, s.outline]
  | .var name => .tagged "Var" [name.outline]
  | .member base field s =>
    .variant "Member" [("object", outline base), ("field", field.outline), ("span", s.outline)]
  | .array items s =>
    .variant "Array" [("items", .list (outlineList items)), ("span", s.outline)]
  | .object fields s =>
    .variant "Object" [("fields", .list (outlineFields fields)), ("span", s.outline)]
  | .unary op operand s =>
    .variant "Unary" [("op", op.outline), ("expr", outline operand), ("span", s.outline)]
  | .call callee args s =>
    .variant "Call"
      [("callee", outline callee), ("args", .list (outlineList args)), ("span", s.outline)]
  | .binary lhs op rhs s =>
    .variant "Binary"
      [("lhs", outline lhs), ("op", op.outline), ("rhs", outline rhs), ("span", s.outline)]
  | .paren inner s => .variant "Paren" [("inner", outline inner), ("span", s.outline)]

def outlineList : List Expr → List Outline
  | [] => []
  | e :: es => outline e :: outlineList es

def outlineFields : List ObjectField → List Outline
  | [] => []
  | .mk key value s :: rest =>
    .record "ObjectField" [("key", key.outline), ("value", outline value), ("span", s.outline)]
      :: outlineFields rest

end

end Expr

namespace TypeExpr

mutual

def outline : TypeExpr → Outline
  | .named name => .tagged "Named" [name.outline]
  | .array elem s => .variant "Array" [("elem", outline elem), ("span", s.outline)]
  | .union variants s =>
    .variant "Union" [("variants", .list (outlineList variants)), ("span", s.outline)]

def outlineList : List TypeExpr → List Outline
  | [] => []
  | t :: ts => outline t :: outlineList ts

end

end TypeExpr

def NamedArg.outline (a : NamedArg) : Outline :=
  .record "NamedArg"
    [("name", a.name.outline), ("value", a.value.outline), ("span", a.span.outline)]

def Arguments.outline : Arguments → Outline
  | .bare => .tag "Bare"
  | .empty => .tag "Empty"
  | .value arg => .tagged "Value" [arg.outline]
  | .named args => .tagged "Named" [.list (args.map NamedArg.outline)]

def Decoration.outline (d : Decoration) : Outline :=
  .record "Annotation"
    [("name", d.name.outline), ("args", d.args.outline), ("span", d.span.outline)]

def Decoration.part (ds : List Decoration) : String × Outline :=
  ("annotations", .list (ds.map outline))

def SchemaProperty.outline (p : SchemaProperty) : Outline :=
  .record "SchemaProperty"
    [part p.decorations, ("ty", p.type.outline), ("name", p.name.outline),
      ("default", .optional (p.default.map Expr.outline)), ("span", p.span.outline)]

def Init.outline (i : Init) : Outline :=
  .record "PropertyInit"
    [("name", i.name.outline), ("value", i.value.outline), ("span", i.span.outline)]

def Param.outline (p : Param) : Outline :=
  .record "Param" [("ty", p.type.outline), ("name", p.name.outline), ("span", p.span.outline)]

namespace Decl

mutual

def outline : Decl → Outline
  | .schema d => .tagged "Schema" [.record "SchemaDecl"
      [part d.decorations, ("name", d.name.outline),
        ("properties", .list (d.properties.map SchemaProperty.outline)), ("span", d.span.outline)]]
  | .resource d => .tagged "Resource" [.record "ResourceDecl"
      [part d.decorations, ("schema", d.schema.outline), ("name", d.name.outline),
        ("body", .list (d.body.map Init.outline)), ("span", d.span.outline)]]
  | .component ds name body s => .tagged "Component" [.record "ComponentDecl"
      [part ds, ("name", name.outline), ("body", .list (outlineList body)),
        ("span", s.outline)]]
  | .inst d => .tagged "Instance" [.record "InstanceDecl"
      [part d.decorations, ("component", d.component.outline),
        ("name", d.name.outline), ("body", .list (d.body.map Init.outline)),
        ("span", d.span.outline)]]
  | .input d => .tagged "Input" [.record "InputDecl"
      [part d.decorations, ("ty", d.type.outline), ("name", d.name.outline),
        ("default", .optional (d.default.map Expr.outline)), ("span", d.span.outline)]]
  | .output d => .tagged "Output" [.record "OutputDecl"
      [part d.decorations, ("ty", d.type.outline), ("name", d.name.outline),
        ("value", .optional (d.value.map Expr.outline)), ("span", d.span.outline)]]
  | .var d => .tagged "Var" [.record "VarDecl"
      [part d.decorations, ("ty", .optional (d.type.map TypeExpr.outline)),
        ("name", d.name.outline), ("value", d.value.outline), ("span", d.span.outline)]]
  | .function d => .tagged "Fun" [.record "FunDecl"
      [part d.decorations, ("name", d.name.outline),
        ("params", .list (d.params.map Param.outline)),
        ("ret", .optional (d.result.map TypeExpr.outline)), ("body", d.body.outline),
        ("span", d.span.outline)]]
  | .alias d => .tagged "TypeAlias" [.record "TypeAliasDecl"
      [part d.decorations, ("name", d.name.outline), ("ty", d.type.outline),
        ("span", d.span.outline)]]

def outlineList : List Decl → List Outline
  | [] => []
  | d :: ds => outline d :: outlineList ds

end

end Decl

def Program.outline (p : Program) : Outline :=
  .record "Program" [("items", .list (Decl.outlineList p.items)), ("span", p.span.outline)]

end Provision
