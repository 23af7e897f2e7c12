import Provision.Decorator
import Provision.Pattern.Parser

/-!
# `@validate`

A string, or every element of an array, contains a match of a pattern, which is given as a regular
expression or by the name of a preset. What patterns are is left to an engine.
-/

namespace Provision.Decorator.Validate

variable (engine : Pattern.Engine)

def param (name : String) : NamedParam := ⟨name, [.string], false⟩

def spec : Spec where
  name := "validate"
  shape := .named [param "regex", param "preset", param "flags", param "message"]
  targets := [.input]
  restriction := .oneOf [.string, .arrayOf .string]
  deferred := true

/-- A label of a domain name: letters, digits and hyphens, no hyphen at either end. -/
def dnsLabel : String := "[a-z0-9]([a-z0-9-]\x7b0,61\x7d[a-z0-9])?"

def octet : String := "(25[0-5]|2[0-4][0-9]|1[0-9]\x7b2\x7d|[1-9]?[0-9])"

def presets : Table String := [
  ("dns_label", "^" ++ dnsLabel ++ "$"),
  ("rfc1123", "^" ++ dnsLabel ++ "(\\." ++ dnsLabel ++ ")*$"),
  ("kebab", "^[a-z0-9]+(-[a-z0-9]+)*$"),
  ("snake", "^[a-z0-9]+(_[a-z0-9]+)*$"),
  ("camel", "^[a-z][a-zA-Z0-9]*$"),
  ("pascal", "^[A-Z][a-zA-Z0-9]*$"),
  ("alphanumeric", "^[A-Za-z0-9]+$"),
  ("email", "^[^@\\s]+@[^@\\s]+\\.[^@\\s]+$"),
  ("uuid", "^[0-9a-fA-F]\x7b8\x7d-[0-9a-fA-F]\x7b4\x7d-[0-9a-fA-F]\x7b4\x7d" ++
    "-[0-9a-fA-F]\x7b4\x7d-[0-9a-fA-F]\x7b12\x7d$"),
  ("ipv4", "^(" ++ octet ++ "\\.)\x7b3\x7d" ++ octet ++ "$"),
  ("cidr", "^(" ++ octet ++ "\\.)\x7b3\x7d" ++ octet ++ "/(3[0-2]|[12]?[0-9])$")]

/-- The pattern that the arguments choose, as text, and how a message names it. -/
def source (args : Arguments) : Except PatternProblem (String × String) :=
  match args.namedString? "regex" with
  | some regex => .ok (regex, s!"pattern {regex}")
  | none =>
    match args.namedString? "preset" with
    | none => .error .missing
    | some preset =>
      match presets.find? preset with
      | some pattern => .ok (pattern, s!"preset {preset}")
      | none => .error (.unknownPreset preset presets.names)

def flagLetters : List Char := ['i', 'm', 's', 'x']

def flags (letters : List Char) : Pattern.Flags :=
  { ignoreCase := letters.contains 'i'
    multiLine := letters.contains 'm'
    dotAll := letters.contains 's'
    extended := letters.contains 'x' }

/-- The matcher of the pattern that the arguments choose, and how a message names the pattern. -/
def compile (args : Arguments) : Except PatternProblem ((String → Bool) × String) := do
  let (text, label) ← source args
  let letters := ((args.namedString? "flags").getD "").toList
  match letters.find? fun c => !flagLetters.contains c with
  | some bad => throw (.unsupportedFlag bad)
  | none =>
    match engine.compile? (flags letters) text with
    | some matcher => return (matcher, label)
    | none => throw (.invalid text)

/-- Checks also that exactly one pattern is given and that it is valid. -/
def checkShape (d : Decoration) : Except Diagnostic Unit := do
  spec.checkShape d
  if (d.args.namedString? "regex").isSome && (d.args.namedString? "preset").isSome then
    throw (.typeError .regexAndPreset d.span)
  else
    match compile engine d.args with
    | .ok _ => return
    | .error problem => throw (.typeError (.pattern problem) d.span)

/-- The fault of a value without a match; the arguments may give the wording. -/
def fault (args : Arguments) (label : String) (offender : Offender) : ValueFault :=
  match args.namedString? "message" with
  | some message => .noMatchCustom offender message
  | none => .noMatch offender label

def hasMatch (matcher : String → Bool) (v : Value) : Bool := v.string?.any matcher

/-- Checks the elements of an array from an index on. -/
def checkElements (args : Arguments) (matcher : String → Bool) (label : String) :
    (index : Nat) → List Value → Except ValueFault Unit
  | _, [] => .ok ()
  | index, v :: rest =>
    if hasMatch matcher v then checkElements args matcher label (index + 1) rest
    else .error (fault args label (.element index v))

/-- Checks that a string, or every element of an array, has a match. -/
def checkValue (args : Arguments) (v : Value) : Except ValueFault Unit :=
  match compile engine args with
  | .error problem => .error (.badPattern problem)
  | .ok (matcher, label) =>
    match v with
    | .string s => if matcher s then .ok () else .error (fault args label (.whole v))
    | .array items => checkElements args matcher label 0 items
    | other => .error (.expectedString other.kind)

end Provision.Decorator.Validate

namespace Provision.Decorator

def validate (engine : Pattern.Engine := .standard) : Decorator :=
  { ofSpec Validate.spec with
    checkShape := Validate.checkShape engine
    checkValue := Validate.checkValue engine }

end Provision.Decorator
