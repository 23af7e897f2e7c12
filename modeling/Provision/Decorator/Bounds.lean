import Provision.Decorator

/-!
# Bounds

`@minValue` and `@maxValue` bound numbers and the elements of arrays of numbers; `@minLength` and
`@maxLength` bound how many characters a string or elements an array has; `@count` says how many
copies of an instance there are.
-/

namespace Provision.Decorator.Bounds

def integer : ArgShape := .forms [.literal [.integer]]

def valueSpec (name : String) : Spec where
  name := name
  shape := integer
  targets := [.input, .output]
  restriction := .oneOf [.number, .arrayOf .number]
  deferred := true

def lengthSpec (name : String) : Spec where
  name := name
  shape := integer
  targets := [.input, .output]
  restriction := .oneOf [.string, .array]
  deferred := true

def countSpec : Spec where
  name := "count"
  shape := integer
  targets := [.resource, .component]

/-- The least argument that is too large for a bound on numbers. -/
def valueLimit : Int := 999999

/-- The least argument that is too large for a bound on lengths. -/
def lengthLimit : Int := 9999999

/-- The least argument that is too large for `@count`. -/
def countLimit : Int := 1000

/-- Checks also that the integer is at least zero and below a limit. -/
def checkRange (spec : Spec) (limit : Int) (d : Decoration) : Except Diagnostic Unit := do
  spec.checkShape d
  match d.args.int? with
  | some n =>
    if 0 ≤ n ∧ n < limit then return
    else throw (.typeError (.outOfRange spec.name n (limit - 1)) d.span)
  | none => return

def isBeyond (side : Side) (x bound : Number) : Bool :=
  match side with
  | .min => x.less bound
  | .max => bound.less x

/-- Checks the elements of an array of numbers from an index on. -/
def checkElements (side : Side) (bound : Int) :
    (index : Nat) → List Value → Except ValueFault Unit
  | _, [] => .ok ()
  | index, v :: rest =>
    match v with
    | .number x =>
      if isBeyond side x (Number.ofInt bound) then
        .error (.outOfBounds (.element index v) side bound)
      else checkElements side bound (index + 1) rest
    | other => .error (.notANumber (.element index other))

/-- Checks a number, or the elements of an array, against a bound. -/
def checkNumbers (side : Side) (args : Arguments) (v : Value) : Except ValueFault Unit :=
  match args.int? with
  | none => .ok ()
  | some bound =>
    match v with
    | .number x =>
      if isBeyond side x (Number.ofInt bound) then .error (.outOfBounds (.whole v) side bound)
      else .ok ()
    | .array items => checkElements side bound 0 items
    | other => .error (.expectedNumber other.kind)

def isLengthBeyond (side : Side) (length : Nat) (bound : Int) : Bool :=
  match side with
  | .min => (length : Int) < bound
  | .max => bound < (length : Int)

/-- How long a value is: the characters of a string, the elements of an array. -/
def length? : Value → Option Nat
  | .string s => some s.length
  | .array items => some items.length
  | _ => none

def checkLength (side : Side) (args : Arguments) (v : Value) : Except ValueFault Unit :=
  match args.int? with
  | none => .ok ()
  | some bound =>
    match length? v with
    | none => .error (.expectedStringOrArray v.kind)
    | some n => if isLengthBeyond side n bound then .error (.wrongLength n side bound) else .ok ()

def valueBound (name : String) (side : Side) : Decorator :=
  { ofSpec (valueSpec name) with
    checkShape := checkRange (valueSpec name) valueLimit
    checkValue := checkNumbers side }

def lengthBound (name : String) (side : Side) : Decorator :=
  { ofSpec (lengthSpec name) with
    checkShape := checkRange (lengthSpec name) lengthLimit
    checkValue := checkLength side }

end Provision.Decorator.Bounds

namespace Provision.Decorator

def minValue : Decorator := Bounds.valueBound "minValue" .min

def maxValue : Decorator := Bounds.valueBound "maxValue" .max

def minLength : Decorator := Bounds.lengthBound "minLength" .min

def maxLength : Decorator := Bounds.lengthBound "maxLength" .max

def count : Decorator :=
  { ofSpec Bounds.countSpec with
    checkShape := Bounds.checkRange Bounds.countSpec Bounds.countLimit }

end Provision.Decorator
