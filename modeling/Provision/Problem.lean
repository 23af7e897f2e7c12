import Provision.Decorator.Spec
import Provision.Value

/-!
# Problems

What can be wrong with the types and the decorators of a program, cause by cause, with the wording
of each. `ValueFault` is what a decorator can find wrong with a value.
-/

namespace Provision

/-- What is wrong with the pattern of a decorator. -/
inductive PatternProblem where
  | missing
  | unknownPreset (preset : String) (known : List String)
  | unsupportedFlag (flag : Char)
  | invalid (source : String)
deriving Repr, DecidableEq

def PatternProblem.message : PatternProblem → String
  | .missing => "@validate requires 'regex' or 'preset'"
  | .unknownPreset preset known =>
    s!"@validate preset '{preset}' is not one of: " ++ ", ".intercalate known
  | .unsupportedFlag flag => s!"@validate flag '{flag}' is not supported (expected i, m, s or x)"
  | .invalid source => s!"@validate regex \"{source}\" is not a valid pattern"

/-- What a value is given to, in words: the property or input of an instance, a default, and so
on. -/
inductive Subject where
  | propertyDefault (property schema : String)
  | resourceProperty (property resource : String)
  | instanceInput (input inst : String)
  | inputDefault (input : String)
  | output (name : String)
  | variable (name : String)
  | functionBody (name : String)
deriving Repr, DecidableEq

def Subject.describe : Subject → String
  | .propertyDefault property schema => s!"default of property '{property}' in schema '{schema}'"
  | .resourceProperty property resource => s!"property '{property}' of resource '{resource}'"
  | .instanceInput input inst => s!"input '{input}' of component instance '{inst}'"
  | .inputDefault input => s!"default of input '{input}'"
  | .output name => s!"output '{name}'"
  | .variable name => s!"var '{name}'"
  | .functionBody name => s!"body of fun '{name}'"

/-- An instance with initialisers, and what declares the names that it may initialise. -/
inductive Holder where
  | resource (name schema : String)
  | inst (name component : String)
deriving Repr, DecidableEq

namespace Holder

def describe : Holder → String
  | .resource name _ => s!"resource '{name}'"
  | .inst name _ => s!"component instance '{name}'"

def owner : Holder → String
  | .resource _ schema => s!"schema '{schema}'"
  | .inst _ component => s!"component '{component}'"

def field : Holder → String
  | .resource _ _ => "property"
  | .inst _ _ => "input"

/-- What the initialiser of a field gives a value to. -/
def subject : Holder → String → Subject
  | .resource name _, property => .resourceProperty property name
  | .inst name _, input => .instanceInput input name

end Holder

/-- What kind of member a type lacks. -/
inductive MemberKind where
  | field
  | property
  | output
  | inst
deriving Repr, DecidableEq

def MemberKind.describe : MemberKind → String
  | .field => "field"
  | .property => "property"
  | .output => "output"
  | .inst => "instance"

def UnaryOp.symbol : UnaryOp → String
  | .not => "!"
  | .neg => "-"

def BinaryOp.symbol : BinaryOp → String
  | .or => "||"
  | .and => "&&"
  | .eq => "=="
  | .ne => "!="
  | .lt => "<"
  | .le => "<="
  | .gt => ">"
  | .ge => ">="
  | .add => "+"
  | .sub => "-"
  | .mul => "*"
  | .div => "/"

/-- What is wrong with a decorator or a type. -/
inductive Problem where
  -- decorators and their arguments
  | unknownDecorator (name : String)
  | takesNoArguments (decorator : String)
  | wrongForm (decorator : String) (forms : List ArgForm) (found : String)
  | unknownArgument (decorator key : String)
  | repeatedArgument (decorator key : String)
  | wrongArgument (decorator key : String) (kinds : List LitKind) (found : String)
  | missingArgument (decorator key : String)
  | needsNamedArguments (decorator : String) (keys : List String)
  | needsValue (decorator : String)
  | notLiteral (decorator found : String)
  | outOfRange (decorator : String) (argument : Int) (last : Int)
  | blankValue (decorator : String)
  | needsReference
  | longReference (reference : String)
  | blankImport
  | unknownImport (reference : String)
  | regexAndPreset
  | pattern (problem : PatternProblem)
  -- decorators and their declarations
  | wrongTarget (decorator : String) (site : Site) (allowed : List Target)
  | onDefinition (decorator component : String)
  | wrongType (decorator name : String) (type : Ty) (expected : List TypeClass)
  | incompatibleValue (decorator : String) (value : Value) (name : String) (type : Ty)
  | aliasDecorated (name : String)
  | undeclaredReference (reference : String)
  | wrongReference (reference : String) (kind : Option String)
  -- declarations
  | nestedComponent (name outer : String)
  | notASchema (resource name : String) (found : Ty)
  | notADefinition (name : String) (found : Ty)
  | notAType (name : String)
  | initialisedTwice (holder : Holder) (name : String)
  | noSuchField (holder : Holder) (name : String)
  | missingField (holder : Holder) (name : String)
  -- expressions
  | mismatch (subject : Subject) (expected found : Ty)
  | tooDeep (limit : Nat)
  | duplicateKey (key : String)
  | wrongOperand (op : UnaryOp) (expected found : Ty)
  | wrongOperands (op : BinaryOp) (lhs rhs : Ty)
  | notCallable (type : Ty)
  | wrongArity (expected found : Nat)
  | wrongCallArgument (position : Nat) (expected found : Ty)
  | typeAsValue (name : String)
  | noMember (type : Ty) (kind : MemberKind) (name : String)
  | noAccess (name : String) (type : Ty)

def Problem.message : Problem → String
  | .unknownDecorator name => s!"unknown decorator @{name}"
  | .takesNoArguments decorator => s!"@{decorator} does not take arguments"
  | .wrongForm decorator forms found =>
    let expected := " or ".intercalate (forms.map ArgForm.describe)
    s!"@{decorator} expects {expected}, found {found}"
  | .unknownArgument decorator key => s!"@{decorator} has no argument named '{key}'"
  | .repeatedArgument decorator key => s!"@{decorator} argument '{key}' is given more than once"
  | .wrongArgument decorator key kinds found =>
    let expected := withArticle (LitKind.describeAny kinds)
    s!"@{decorator} argument '{key}' must be {expected}, found {found}"
  | .missingArgument decorator key => s!"@{decorator} requires argument '{key}'"
  | .needsNamedArguments decorator keys =>
    s!"@{decorator} expects named arguments (" ++ ", ".intercalate keys ++ ")"
  | .needsValue decorator => s!"@{decorator} requires at least one value"
  | .notLiteral decorator found => s!"@{decorator} expects literal values, found {found}"
  | .outOfRange decorator argument last =>
    s!"@{decorator} argument {argument} is out of range (expected 0 to {last})"
  | .blankValue decorator => s!"@{decorator} values must not be blank"
  | .needsReference => "@dependsOn requires at least one reference"
  | .longReference reference => s!"@dependsOn reference {reference} must be a name or kind.name"
  | .blankImport => "@existing requires a non-blank import reference"
  | .unknownImport reference =>
    s!"@existing value \"{reference}\" is not a recognised import reference " ++
      "(expected an ARN, URL, tag clause, resource id, alias, log group or name)"
  | .regexAndPreset => "@validate takes either 'regex' or 'preset', not both"
  | .pattern problem => problem.message
  | .wrongTarget decorator site allowed =>
    let target := withArticle site.target.describe
    let names := ", ".intercalate (allowed.map Target.describe)
    s!"@{decorator} cannot be applied to {target} '{site.name}' (allowed on: {names})"
  | .onDefinition decorator component =>
    s!"@{decorator} cannot be applied to the definition of component '{component}'; " ++
      "decorate a component instance instead"
  | .wrongType decorator name type expected =>
    let classes := ", ".intercalate (expected.map TypeClass.describe)
    s!"@{decorator} cannot be applied to '{name}' of type {type.text} (expected {classes})"
  | .incompatibleValue decorator value name type =>
    s!"@{decorator} value {value.text} is not compatible with '{name}' of type {type.text}"
  | .aliasDecorated name => s!"decorators cannot be applied to type alias '{name}'"
  | .undeclaredReference reference => s!"@dependsOn reference {reference} is not declared"
  | .wrongReference reference kind =>
    let expected := match kind with
      | some k => s!"an instance of {k}"
      | none => "a resource or component instance"
    s!"@dependsOn reference {reference} does not name {expected}"
  | .nestedComponent name outer =>
    s!"component definitions cannot be nested ('{name}' is declared inside '{outer}')"
  | .notASchema resource name found =>
    s!"resource '{resource}' names '{name}' which is {found.text}, not a schema"
  | .notADefinition name found => s!"'{name}' is {found.text}, not a component definition"
  | .notAType name => s!"'{name}' is not a type"
  | .initialisedTwice holder name =>
    s!"{holder.field} '{name}' of {holder.describe} is initialised more than once"
  | .noSuchField holder name => s!"{holder.owner} has no {holder.field} '{name}'"
  | .missingField holder name =>
    s!"{holder.describe} is missing required {holder.field} '{name}'"
  | .mismatch subject expected found =>
    s!"{subject.describe}: expected {expected.text}, found {found.text}"
  | .tooDeep limit => s!"expression nesting exceeds depth limit of {limit}"
  | .duplicateKey key => s!"duplicate key '{key}' in object literal"
  | .wrongOperand op expected found =>
    s!"operator {op.symbol} expects {expected.text}, found {found.text}"
  | .wrongOperands op lhs rhs =>
    s!"operator {op.symbol} cannot be applied to {lhs.text} and {rhs.text}"
  | .notCallable type => s!"cannot call a value of type {type.text}"
  | .wrongArity expected found =>
    let plural := if expected = 1 then "" else "s"
    s!"function expects {expected} argument{plural}, found {found}"
  | .wrongCallArgument position expected found =>
    s!"argument {position}: expected {expected.text}, found {found.text}"
  | .typeAsValue name => s!"'{name}' is a type, not a value"
  | .noMember type kind name => s!"{type.text} has no {kind.describe} '{name}'"
  | .noAccess name type => s!"cannot access '{name}' on a value of type {type.text}"

inductive Side where
  | min
  | max
deriving Repr, DecidableEq

namespace Side

def describe : Side → String
  | .min => "minimum"
  | .max => "maximum"

def passed : Side → String
  | .min => "less than"
  | .max => "greater than"

end Side

/-- A value that breaks a rule: a value itself, or an element of an array. -/
inductive Offender where
  | whole (value : Value)
  | element (index : Nat) (value : Value)

def Offender.describe : Offender → String
  | .whole value => s!"value {value.text}"
  | .element index value => s!"element at index {index} ({value.text})"

/-- What a decorator finds wrong with a value. -/
inductive ValueFault where
  | notAllowed (offender : Offender) (allowed : List Value)
  | outOfBounds (offender : Offender) (side : Side) (bound : Int)
  | notANumber (offender : Offender)
  | wrongLength (length : Nat) (side : Side) (bound : Int)
  | blank
  | emptyArray
  | duplicate (value : Value) (index first : Nat)
  | noMatch (offender : Offender) (label : String)
  | noMatchCustom (offender : Offender) (message : String)
  | badPattern (problem : PatternProblem)
  | expectedNumber (kind : String)
  | expectedString (kind : String)
  | expectedStringOrArray (kind : String)

def ValueFault.message : ValueFault → String
  | .notAllowed offender allowed =>
    s!"{offender.describe} is not one of the allowed values {(Value.array allowed).text}"
  | .outOfBounds offender side bound =>
    let shown := (Value.number (Number.ofInt bound)).text
    s!"{offender.describe} is {side.passed} the {side.describe} {shown}"
  | .notANumber offender => s!"{offender.describe} is not a number"
  | .wrongLength length side bound =>
    s!"length {length} is {side.passed} the {side.describe} length {bound}"
  | .blank => "value must not be blank"
  | .emptyArray => "array must not be empty"
  | .duplicate value index first =>
    s!"duplicate element {value.text} at index {index} (first seen at index {first})"
  | .noMatch offender label => s!"{offender.describe} does not match {label}"
  | .noMatchCustom offender message => s!"{offender.describe}: {message}"
  | .badPattern problem => problem.message
  | .expectedNumber kind => s!"expected a number, found {kind}"
  | .expectedString kind => s!"expected a string, found {kind}"
  | .expectedStringOrArray kind => s!"expected a string or array, found {kind}"

end Provision
