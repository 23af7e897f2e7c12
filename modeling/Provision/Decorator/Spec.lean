import Provision.Decl
import Provision.Expr.Literal
import Provision.Ty

/-!
# What a decorator accepts

A `Spec` describes a decorator: the arguments it takes, the kinds of declarations it stands on, and
the types that such a declaration may have.
-/

namespace Provision

/-- The kinds of declarations that a decorator can stand on. -/
inductive Target where
  | resource
  | component
  | input
  | output
  | variable
  | schema
  | schemaProperty
  | function
deriving Repr, DecidableEq

namespace Target

def describe : Target → String
  | .resource => "resource"
  | .component => "component"
  | .input => "input"
  | .output => "output"
  | .variable => "var"
  | .schema => "schema"
  | .schemaProperty => "schema property"
  | .function => "fun"

def all : List Target :=
  [.resource, .component, .input, .output, .variable, .schema, .schemaProperty, .function]

end Target

inductive LitKind where
  | integer
  | number
  | string
  | boolean
  | null
deriving Repr, DecidableEq

namespace LitKind

/-- Whether a literal is of a kind; an integer is a number too. -/
def holds : LitKind → Lit → Bool
  | .integer, .int _ => true
  | .number, .int _ => true
  | .number, .float _ => true
  | .string, .str _ => true
  | .boolean, .bool _ => true
  | .null, .null => true
  | _, _ => false

def describe : LitKind → String
  | .integer => "integer"
  | .number => "number"
  | .string => "string"
  | .boolean => "boolean"
  | .null => "null"

def describeAny (kinds : List LitKind) : String :=
  match kinds.reverse with
  | [] => ""
  | [k] => k.describe
  | last :: before =>
    ", ".intercalate (before.reverse.map describe) ++ " or " ++ last.describe

end LitKind

def withArticle (noun : String) : String :=
  match noun.toList with
  | c :: _ => if "aeiou".toList.contains c then "an " ++ noun else "a " ++ noun
  | [] => "a " ++ noun

/-- Whether an expression is a literal of one of the kinds. -/
def Expr.isLiteral (kinds : List LitKind) (e : Expr) : Bool :=
  e.literal?.any fun l => kinds.any (·.holds l)

/-- A form of the one argument of a decorator. -/
inductive ArgForm where
  | literal (kinds : List LitKind)
  | literals (kinds : List LitKind)
  /-- An object whose values are strings. -/
  | stringMap
  /-- A name, or names with points between them. -/
  | reference
  | references
deriving Repr, DecidableEq

namespace ArgForm

def holds : ArgForm → Expr → Bool
  | .literal kinds, e => e.isLiteral kinds
  | .literals kinds, .array items _ => items.all (·.isLiteral kinds)
  | .stringMap, .object fields _ => fields.all fun f => f.value.isLiteral [.string]
  | .reference, e => e.path?.isSome
  | .references, .array items _ => items.all (·.path?.isSome)
  | _, _ => false

def describe : ArgForm → String
  | .literal kinds => withArticle (LitKind.describeAny kinds)
  | .literals kinds => s!"an array of {LitKind.describeAny kinds} values"
  | .stringMap => "an object of string values"
  | .reference => "a reference"
  | .references => "an array of references"

end ArgForm

/-- An argument that a decorator takes by name. -/
structure NamedParam where
  name : String
  kinds : List LitKind
  required : Bool
deriving Repr, DecidableEq

/-- The arguments that a decorator takes. -/
inductive ArgShape where
  /-- None; the flag says whether empty parentheses may stand there. -/
  | bare (emptyParens : Bool)
  /-- One, in one of the forms. -/
  | forms (forms : List ArgForm)
  /-- Literals by name. -/
  | named (params : List NamedParam)
deriving Repr, DecidableEq

/-- The classes of types by which a decorator restricts its declaration. -/
inductive TypeClass where
  | string
  | number
  | boolean
  | object
  /-- Arrays with elements of any type. -/
  | array
  | arrayOf (elem : Scalar)
deriving Repr, DecidableEq

namespace TypeClass

def admits : TypeClass → Ty → Bool
  | .string, t => t.same .string
  | .number, t => t.same .number
  | .boolean, t => t.same .boolean
  | .object, .object _ => true
  | .array, .array _ => true
  | .arrayOf k, .array elem => elem.same (.scalar k)
  | _, _ => false

def describe : TypeClass → String
  | .string => "string"
  | .number => "number"
  | .boolean => "boolean"
  | .object => "object"
  | .array => "array"
  | .arrayOf k => s!"{k.keyword}[]"

end TypeClass

/-- The types that a decorated declaration may have. -/
inductive Restriction where
  | unrestricted
  | oneOf (classes : List TypeClass)
deriving Repr, DecidableEq

/-- Whether a type is within a restriction; a union is if all its variants are, and `any` never. -/
def Restriction.admits : Restriction → Ty → Bool
  | .unrestricted, _ => true
  | .oneOf classes, t => t.leaves.all fun u => classes.any (·.admits u)

structure Spec where
  name : String
  shape : ArgShape
  targets : List Target
  restriction : Restriction := .unrestricted
  /-- Whether it may stand on instances of components but not on their definitions. -/
  instancesOnly : Bool := false
  /-- Whether it has a check that waits for the value of the declaration. -/
  deferred : Bool := false
deriving Repr, DecidableEq

/-- The declaration that a decorator stands on. -/
structure Site where
  target : Target
  name : String
  /-- Whether it is the definition of a component. -/
  definition : Bool := false
deriving Repr, DecidableEq

/-- A reference to an instance, as an argument writes it. -/
structure Reference where
  path : List Ident
  span : Span
deriving Repr, DecidableEq

def Reference.text (r : Reference) : String := Expr.pathText r.path

namespace Arguments

def positional? : Arguments → Option Expr
  | .value arg => some arg
  | _ => none

def int? (args : Arguments) : Option Int := do
  match ← (← args.positional?).literal? with
  | .int n => return n
  | _ => none

def namedString? (args : Arguments) (key : String) : Option String :=
  match args with
  | .named list => (list.find? (·.name.text == key)).bind (·.value.string?)
  | _ => none

end Arguments

end Provision
