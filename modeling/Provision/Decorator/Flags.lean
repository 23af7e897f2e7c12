import Provision.Decorator
import Provision.Text.Blank

/-!
# Decorators without arguments, and descriptions

`@nonEmpty` keeps strings from being blank and arrays from being empty, `@unique` keeps the elements
of an array apart, and `@sensitive` and `@description` only tell something about a declaration.
-/

namespace Provision.Decorator.Flags

def nonEmptySpec : Spec where
  name := "nonEmpty"
  shape := .bare false
  targets := [.input]
  restriction := .oneOf [.string, .array]
  deferred := true

/-- The description of `@unique`, which may also have empty parentheses. -/
def uniqueSpec : Spec where
  name := "unique"
  shape := .bare true
  targets := [.input, .output]
  restriction := .oneOf [.array]
  deferred := true

def sensitiveSpec : Spec where
  name := "sensitive"
  shape := .bare false
  targets := [.input, .output]

def descriptionSpec : Spec where
  name := "description"
  shape := .forms [.literal [.string]]
  targets := Target.all

/-- Checks that a string is not blank and an array not empty. -/
def checkNonEmpty (v : Value) : Except ValueFault Unit :=
  match v with
  | .string s => if Text.isBlankText s then .error .blank else .ok ()
  | .array [] => .error .emptyArray
  | _ => .ok ()

/-- Checks that no value equals one before it, `earlier` being those before, in order. -/
def checkDistinct (earlier : List Value) : List Value → Except ValueFault Unit
  | [] => .ok ()
  | v :: rest =>
    match earlier.findIdx? (·.same v) with
    | some first => .error (.duplicate v earlier.length first)
    | none => checkDistinct (earlier ++ [v]) rest

/-- Checks that no two elements of an array are equal. -/
def checkUnique (v : Value) : Except ValueFault Unit :=
  match v with
  | .array items => checkDistinct [] items
  | _ => .ok ()

end Provision.Decorator.Flags

namespace Provision.Decorator

def nonEmpty : Decorator :=
  { ofSpec Flags.nonEmptySpec with checkValue := fun _ v => Flags.checkNonEmpty v }

def unique : Decorator :=
  { ofSpec Flags.uniqueSpec with checkValue := fun _ v => Flags.checkUnique v }

def sensitive : Decorator := ofSpec Flags.sensitiveSpec

def description : Decorator := ofSpec Flags.descriptionSpec

end Provision.Decorator
