import Provision.Checked
import Provision.Json

/-!
# Reports

How a checked program and the findings of a check are written: as JSON documents, and as text to
read.
-/

namespace Provision

mutual

def Value.toJson : Value → Json
  | .null => .null
  | .bool b => .bool b
  | .number x => .number x
  | .string s => .string s
  | .array items => .array (Value.listToJson items)
  | .object fields => .object (Value.fieldsToJson fields)

def Value.listToJson : List Value → List Json
  | [] => []
  | v :: rest => v.toJson :: Value.listToJson rest

def Value.fieldsToJson : List (String × Value) → List (String × Json)
  | [] => []
  | (name, v) :: rest => (name, v.toJson) :: Value.fieldsToJson rest

end

namespace InstanceKind

def word : InstanceKind → String
  | .resource _ => "resource"
  | .component _ => "component"

def definition : InstanceKind → String
  | .resource name => name
  | .component name => name

end InstanceKind

namespace Report

/-! ### Documents -/

def texts (xs : List String) : Json := .array (xs.map .string)

/-- A member that is left out if there is nothing to say. -/
def member? (key : String) (j : Option Json) : List (String × Json) :=
  match j with
  | some j => [(key, j)]
  | none => []

def members? (key : String) (items : List Json) : List (String × Json) :=
  if items.isEmpty then [] else [(key, .array items)]

def tag (t : String × Option String) : Json :=
  .object ([("key", .string t.1)] ++ member? "value" (t.2.map .string))

/-- The document of what a resource is imported from. -/
def existing (e : ExistingRef) : Json :=
  .object [("reference", .string e.reference), ("kind", .string e.kind.label)]

def instanceInfo (i : InstanceInfo) : Json :=
  .object (
    [("name", .string i.name), ("kind", .string i.kind.word), ("of", .string i.kind.definition)] ++
    member? "component" (i.component.map .string) ++
    [("dependencies", texts i.dependencies)] ++
    members? "tags" (i.tags.map tag) ++
    members? "providers" (i.providers.map .string) ++
    member? "count" (i.count.map fun n => .int n) ++
    member? "existing" (i.existing.map existing))

def deferredCheck (c : DeferredCheck) : Json :=
  .object ([("decorator", .string c.decorator.name), ("target", .string c.target)] ++
    member? "value" (c.default.map Value.toJson))

def program (p : CheckedProgram) : Json :=
  .object [
    ("evaluation_order", texts p.order),
    ("components", .array (p.componentOrders.map fun c =>
      .object [("name", .string c.1), ("evaluation_order", texts c.2)])),
    ("instances", .array (p.instances.map fun i => instanceInfo i.2)),
    ("deferred", .array (p.deferred.map deferredCheck)),
    ("globals", .array (p.globals.map fun b =>
      .object [("name", .string b.1), ("type", .string b.2.text)]))]

def finding (d : Diagnostic) : Json :=
  .object ([("kind", .string d.kind), ("message", .string d.message)] ++
    member? "span" (d.span?.map fun s => .object [("end", .int s.stop), ("start", .int s.start)]))

def findings (ds : List Diagnostic) : Json := .object [("errors", .array (ds.map finding))]

/-! ### Text -/

def listText (names : List String) : String :=
  if names.isEmpty then "(none)" else ", ".intercalate names

def instanceLine (i : InstanceInfo) : String :=
  let links := if i.dependencies.isEmpty then "" else " <- " ++ ", ".intercalate i.dependencies
  let source := match i.existing with
    | some e => s!" [existing {e.kind.describe}: {e.reference}]"
    | none => ""
  s!"  {i.kind.word} {i.kind.definition} {i.name}{links}{source}"

/-- Lines under a heading, which is left out if there are none. -/
def part? (heading : String) (lines : List String) : List String :=
  if lines.isEmpty then [] else heading :: lines

def programLines (p : CheckedProgram) : List String :=
  [s!"evaluation order: {listText p.order}"] ++
  p.componentOrders.map (fun c => s!"component {c.1}: {listText c.2}") ++
  part? "instances:" (p.instances.map fun i => instanceLine i.2) ++
  part? "deferred checks:"
    (p.deferred.map fun c => s!"  @{c.decorator.name} on {c.target}") ++
  ["globals:"] ++
  p.globals.map fun b => s!"  {b.1}: {b.2.text}"

def findingLine (file : String) (d : Diagnostic) : String :=
  match d.span? with
  | some s => s!"{file}:{s.start}: {d.message}"
  | none => s!"{file}: {d.message}"

def findingLines (file : String) (ds : List Diagnostic) : List String :=
  ds.map (findingLine file) ++ [s!"{ds.length} error(s)"]

def unlines (lines : List String) : String := String.join (lines.map (· ++ "\n"))

def programText (p : CheckedProgram) : String := unlines (programLines p)

end Report

end Provision
