import Provision.Json
import Provision.Text.Quoted

/-!
# Outlines

An outline is a tree of labelled records, the form in which a program is shown. It has two
renderings: `Outline.listing`, an indented text, and `Outline.toJson`, a document.
-/

namespace Provision

inductive Outline where
  | text (value : String)
  | int (value : Int)
  | number (value : Number)
  | bool (value : Bool)
  /-- A part that is missing. -/
  | absent
  /-- A part that could be missing. -/
  | present (part : Outline)
  | list (items : List Outline)
  /-- An alternative without content. -/
  | tag (label : String)
  /-- An alternative with content. -/
  | tagged (label : String) (parts : List Outline)
  /-- An alternative with named parts. -/
  | variant (label : String) (parts : List (String × Outline))
  | record (label : String) (parts : List (String × Outline))

instance : Inhabited Outline := ⟨.absent⟩

namespace Outline

/-- The blanks before a line of the given level of a listing. -/
def indent (level : Nat) : String := String.ofList (List.replicate (4 * level) ' ')

/-- Lines of the given level between brackets, each with a comma behind it. -/
def block (opening closing : String) (level : Nat) (lines : List String) : String :=
  if lines.isEmpty then opening ++ closing
  else
    opening ++ "\n" ++ String.join (lines.map fun l => indent (level + 1) ++ l ++ ",\n")
      ++ indent level ++ closing

mutual

def listAt (level : Nat) : Outline → String
  | .text s => Text.quote s
  | .int n => toString n
  | .number x => Number.Layout.listing.write x
  | .bool b => if b then "true" else "false"
  | .absent => "None"
  | .present part => block "Some(" ")" level [listAt (level + 1) part]
  | .list items => block "[" "]" level (listItems (level + 1) items)
  | .tag label => label
  | .tagged label parts => block (label ++ "(") ")" level (listItems (level + 1) parts)
  | .variant label parts => block (label ++ " \x7b") "\x7d" level (listParts (level + 1) parts)
  | .record label parts => block (label ++ " \x7b") "\x7d" level (listParts (level + 1) parts)

def listItems (level : Nat) : List Outline → List String
  | [] => []
  | item :: rest => listAt level item :: listItems level rest

def listParts (level : Nat) : List (String × Outline) → List String
  | [] => []
  | (name, part) :: rest => (name ++ ": " ++ listAt level part) :: listParts level rest

end

def listing (o : Outline) : String := listAt 0 o

mutual

/-- The document of an outline: a record is an object, an alternative is its label or an object
with its label as the only key. -/
def toJson : Outline → Json
  | .text s => .string s
  | .int n => .int n
  | .number x => .number x
  | .bool b => .bool b
  | .absent => .null
  | .present part => toJson part
  | .list items => .array (itemsToJson items)
  | .tag label => .string label
  | .tagged label parts =>
    match itemsToJson parts with
    | [part] => .object [(label, part)]
    | several => .object [(label, .array several)]
  | .variant label parts => .object [(label, .object (partsToJson parts))]
  | .record _ parts => .object (partsToJson parts)

def itemsToJson : List Outline → List Json
  | [] => []
  | item :: rest => toJson item :: itemsToJson rest

def partsToJson : List (String × Outline) → List (String × Json)
  | [] => []
  | (name, part) :: rest => (name, toJson part) :: partsToJson rest

end

def optional : Option Outline → Outline
  | some part => .present part
  | none => .absent

end Outline

end Provision
