import Provision.Decorator
import Provision.Text.Blank

/-!
# Labels

`@tags` and `@provider` attach labels to instances. Several of them on one declaration add up:
`Labels.tags` and `Labels.providers` collect what they say.
-/

namespace Provision.Decorator.Labels

def tagsSpec : Spec where
  name := "tags"
  shape := .forms [.literal [.string], .literals [.string], .stringMap]
  targets := [.resource, .component]
  instancesOnly := true

def providerSpec : Spec where
  name := "provider"
  shape := .forms [.literal [.string], .literals [.string]]
  targets := [.resource, .component]
  instancesOnly := true

mutual

/-- The strings in an argument, the keys of objects included, in the order of the source. -/
def strings : Expr → List String
  | .lit (.str s) _ => [s]
  | .paren inner _ => inner.string?.toList
  | .array items _ => stringsOf items
  | .object fields _ => fieldStrings fields
  | _ => []

def stringsOf : List Expr → List String
  | [] => []
  | e :: es => strings e ++ stringsOf es

def fieldStrings : List ObjectField → List String
  | [] => []
  | .mk key value _ :: rest => key.text :: strings value ++ fieldStrings rest

end

/-- Whether an argument is an array or an object without content. -/
def isHollow : Expr → Bool
  | .array [] _ => true
  | .object [] _ => true
  | _ => false

/-- Checks also that there is a label and that none is blank. -/
def checkShape (spec : Spec) (d : Decoration) : Except Diagnostic Unit := do
  spec.checkShape d
  match d.args.positional? with
  | none => return
  | some arg =>
    if isHollow arg then throw (.typeError (.needsValue spec.name) d.span)
    else if (strings arg).any Text.isBlankText then
      throw (.typeError (.blankValue spec.name) d.span)
    else return

/-- Adds a label without a value, unless the key is there. -/
def addLabel (tags : Table (Option String)) (key : String) : Table (Option String) :=
  if tags.contains key then tags else tags.insert key none

/-- Adds an entry of an object; a key that is there takes the new value. -/
def addEntry (tags : Table (Option String)) (f : ObjectField) : Table (Option String) :=
  match f.value.string? with
  | some v => tags.insert f.key.text (some v)
  | none => tags

def addTags (tags : Table (Option String)) (arg : Expr) : Table (Option String) :=
  match arg with
  | .object fields _ => fields.foldl addEntry tags
  | other => (strings other).foldl addLabel tags

def argumentsOf (name : String) (ds : List Decoration) : List Expr :=
  (ds.filter (·.name.text == name)).filterMap (·.args.positional?)

/-- The tags that some decorations give: keys in the order of their first mention, each with the
last value that an object gives it. -/
def tags (ds : List Decoration) : Table (Option String) :=
  (argumentsOf tagsSpec.name ds).foldl addTags []

/-- The providers that some decorations give, each once, in the order of their first mention. -/
def providers (ds : List Decoration) : List String :=
  ((argumentsOf providerSpec.name ds).flatMap strings).foldl
    (fun seen s => if seen.contains s then seen else seen ++ [s]) []

end Provision.Decorator.Labels

namespace Provision.Decorator

def tags : Decorator :=
  { ofSpec Labels.tagsSpec with checkShape := Labels.checkShape Labels.tagsSpec }

def provider : Decorator :=
  { ofSpec Labels.providerSpec with checkShape := Labels.checkShape Labels.providerSpec }

end Provision.Decorator
