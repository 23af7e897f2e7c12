import Provision.Expr

/-!
# Declarations

What a program consists of: schemas, resources, components and their instances, inputs, outputs,
variables, functions and type aliases. Each may carry decorations, `@name` with or without
arguments.
-/

namespace Provision

inductive TypeExpr where
  | named (name : Ident)
  | array (elem : TypeExpr) (span : Span)
  | union (variants : List TypeExpr) (span : Span)

instance : Inhabited TypeExpr := ⟨.named default⟩

def TypeExpr.span : TypeExpr → Span
  | .named name => name.span
  | .array _ s => s
  | .union _ s => s

/-- An argument `name = value` of a decoration. -/
structure NamedArg where
  name : Ident
  value : Expr
  span : Span

/-- The arguments of a decoration: no parentheses, empty ones, one value (several are written as
an array), or named values. -/
inductive Arguments where
  | bare
  | empty
  | value (arg : Expr)
  | named (args : List NamedArg)

/-- A decorator as it is applied to a declaration. -/
structure Decoration where
  name : Ident
  args : Arguments
  span : Span

structure SchemaProperty where
  decorations : List Decoration
  type : TypeExpr
  name : Ident
  default : Option Expr
  span : Span

/-- A value given to a property or an input, `name = value`. -/
structure Init where
  name : Ident
  value : Expr
  span : Span

/-- A schema: the properties that its resources have. -/
structure SchemaDecl where
  decorations : List Decoration
  name : Ident
  properties : List SchemaProperty
  span : Span

structure ResourceDecl where
  decorations : List Decoration
  schema : Ident
  name : Ident
  body : List Init
  span : Span

structure InstanceDecl where
  decorations : List Decoration
  component : Ident
  name : Ident
  body : List Init
  span : Span

structure InputDecl where
  decorations : List Decoration
  type : TypeExpr
  name : Ident
  default : Option Expr
  span : Span

structure OutputDecl where
  decorations : List Decoration
  type : TypeExpr
  name : Ident
  value : Option Expr
  span : Span

/-- A variable; its type may be left out. -/
structure VarDecl where
  decorations : List Decoration
  type : Option TypeExpr
  name : Ident
  value : Expr
  span : Span

structure Param where
  type : TypeExpr
  name : Ident
  span : Span

/-- A function; its result type may be left out. -/
structure FunDecl where
  decorations : List Decoration
  name : Ident
  params : List Param
  result : Option TypeExpr
  body : Expr
  span : Span

structure AliasDecl where
  decorations : List Decoration
  name : Ident
  type : TypeExpr
  span : Span

/-- A declaration. A component definition holds declarations in turn. -/
inductive Decl where
  | schema (decl : SchemaDecl)
  | resource (decl : ResourceDecl)
  | component (decorations : List Decoration) (name : Ident) (body : List Decl) (span : Span)
  | inst (decl : InstanceDecl)
  | input (decl : InputDecl)
  | output (decl : OutputDecl)
  | var (decl : VarDecl)
  | function (decl : FunDecl)
  | alias (decl : AliasDecl)

namespace Decl

def name : Decl → Ident
  | .schema d => d.name
  | .resource d => d.name
  | .component _ name _ _ => name
  | .inst d => d.name
  | .input d => d.name
  | .output d => d.name
  | .var d => d.name
  | .function d => d.name
  | .alias d => d.name

def decorations : Decl → List Decoration
  | .schema d => d.decorations
  | .resource d => d.decorations
  | .component ds _ _ _ => ds
  | .inst d => d.decorations
  | .input d => d.decorations
  | .output d => d.decorations
  | .var d => d.decorations
  | .function d => d.decorations
  | .alias d => d.decorations

/-- The span of a declaration, its decorations included. -/
def span : Decl → Span
  | .schema d => d.span
  | .resource d => d.span
  | .component _ _ _ s => s
  | .inst d => d.span
  | .input d => d.span
  | .output d => d.span
  | .var d => d.span
  | .function d => d.span
  | .alias d => d.span

end Decl

structure Program where
  items : List Decl
  span : Span

end Provision
