import Provision.Table

/-!
# Types

Types are structural: objects compare by their fields and unions by their variants, and the order
of either shows only in the text of a type. `Ty.ofVariants` is the one way in which the library
builds a union; it leaves no union inside a union, no variant twice and no union of a single
variant.

* `Ty.same` is equality of types.
* `Ty.assignable a b` says that a value of type `a` may be stored where `b` is expected; unlike
  equality it takes `any` on either side.
-/

namespace Provision

inductive Scalar where
  | number
  | string
  | boolean
  | null
  | void
  | any
deriving Repr, DecidableEq

namespace Scalar

def keyword : Scalar → String
  | .number => "number"
  | .string => "string"
  | .boolean => "boolean"
  | .null => "null"
  | .void => "void"
  | .any => "any"

def all : List Scalar := [.number, .string, .boolean, .null, .void, .any]

def ofKeyword? (s : String) : Option Scalar := all.find? (·.keyword == s)

end Scalar

inductive Ty where
  | scalar (kind : Scalar)
  | array (elem : Ty)
  /-- A structural object; without fields it is the open type `object`. -/
  | object (fields : List (String × Ty))
  | union (variants : List Ty)
  | function (params : List Ty) (result : Ty)
  /-- A schema with its properties and the resources of it in its own scope. -/
  | schema (name : String) (properties : List (String × Ty)) (resources : List (String × Ty))
  | resource (name schema : String) (properties : List (String × Ty))
  /-- A component: its definition, or the instance with the given name. `nested` are the types of
  the resources and component instances in its body. -/
  | component (name : String) (instance? : Option String) (inputs outputs : List (String × Ty))
      (nested : List Ty)

instance : Inhabited Ty := ⟨.scalar .any⟩

namespace Ty

abbrev number : Ty := .scalar .number

abbrev string : Ty := .scalar .string

abbrev boolean : Ty := .scalar .boolean

abbrev null : Ty := .scalar .null

abbrev any : Ty := .scalar .any

def isAny : Ty → Bool
  | .scalar .any => true
  | _ => false

def scalar? : Ty → Option Scalar
  | .scalar kind => some kind
  | _ => none

def elem? : Ty → Option Ty
  | .array elem => some elem
  | _ => none

/-- The name of the resource or component instance that a type describes. -/
def instanceName? : Ty → Option String
  | .resource name _ _ => some name
  | .component _ inst _ _ _ => inst
  | _ => none

mutual

/-- Equality of types. Schemas, resources and components are told apart by their names. -/
def same : Ty → Ty → Bool
  | .scalar k, .scalar l => k == l
  | .array a, .array b => same a b
  | .object fs, .object gs => fs.length == gs.length && sameFields fs gs
  | .union vs, .union ws => vs.length == ws.length && sameVariants vs ws
  | .function ps r, .function qs t => sameList ps qs && same r t
  | .schema m _ _, .schema n _ _ => m == n
  | .resource m s _, .resource n t _ => m == n && s == t
  | .component m i _ _ _, .component n j _ _ _ => m == n && i == j
  | _, _ => false

/-- Whether every field has an equal one of the same name in `gs`. -/
def sameFields : List (String × Ty) → List (String × Ty) → Bool
  | [], _ => true
  | (name, t) :: rest, gs =>
    (match Table.find? gs name with
      | some u => same t u
      | none => false) && sameFields rest gs

def sameVariants : List Ty → List Ty → Bool
  | [], _ => true
  | v :: rest, ws => ws.any (same v) && sameVariants rest ws

def sameList : List Ty → List Ty → Bool
  | [], [] => true
  | t :: ts, u :: us => same t u && sameList ts us
  | _, _ => false

end

/-- The variants of a type outside unions; a type that is no union is its own only variant. -/
def variants : Ty → List Ty
  | .union vs => vs
  | t => [t]

/-- Adds a type to a list unless an equal one is there. -/
def addVariant (vs : List Ty) (t : Ty) : List Ty := if vs.any (same t) then vs else vs ++ [t]

/-- The union of some types: variants of unions among them count one by one, equal ones once, and
a single variant is itself. -/
def ofVariants (ts : List Ty) : Ty :=
  match (ts.flatMap variants).foldl addVariant [] with
  | [t] => t
  | vs => .union vs

mutual

/-- The variants of a type at any depth of unions in unions. -/
def leaves : Ty → List Ty
  | .union vs => leavesAll vs
  | t => [t]

def leavesAll : List Ty → List Ty
  | [] => []
  | t :: ts => leaves t ++ leavesAll ts

end

mutual

/-- Whether a value of the first type may be stored where the second is expected. -/
def assignable : Ty → Ty → Bool
  | .union vs, b => b.isAny || same (.union vs) b || assignableAll vs b
  | .scalar .any, _ => true
  | .array a, b => b.leaves.any fun t => t.isAny || same (.array a) t ||
      match t with
      | .array e => assignable a e
      | _ => false
  | .object fs, b => b.leaves.any fun t => t.isAny || same (.object fs) t ||
      match t with
      | .object gs => gs.isEmpty || (fs.length == gs.length && assignableFields fs gs)
      | _ => false
  | .resource m s ps, b => b.leaves.any fun t => t.isAny || same (.resource m s ps) t ||
      match t with
      | .schema n _ _ => s == n
      | _ => false
  | .component m i is os ns, b =>
      b.leaves.any fun t => t.isAny || same (.component m i is os ns) t ||
      match t with
      | .component n _ _ _ _ => m == n
      | _ => false
  | a, b => b.leaves.any fun t => t.isAny || same a t

def assignableAll : List Ty → Ty → Bool
  | [], _ => true
  | v :: rest, b => assignable v b && assignableAll rest b

/-- Whether every field is assignable to the one of the same name in `gs`. -/
def assignableFields : List (String × Ty) → List (String × Ty) → Bool
  | [], _ => true
  | (name, t) :: rest, gs =>
    (match Table.find? gs name with
      | some u => assignable t u
      | none => false) && assignableFields rest gs

end

mutual

def text : Ty → String
  | .scalar k => k.keyword
  | .array elem =>
    match elem with
    | .union _ | .function _ _ => s!"({text elem})[]"
    | _ => s!"{text elem}[]"
  | .object [] => "object"
  | .object (f :: fs) => "\x7b " ++ ", ".intercalate (textFields (f :: fs)) ++ " \x7d"
  | .union vs => " | ".intercalate (textList vs)
  | .function ps r => "(" ++ ", ".intercalate (textList ps) ++ ") -> " ++ text r
  | .schema name _ _ => s!"schema {name}"
  | .resource name kind _ => s!"resource {kind} {name}"
  | .component name (some inst) _ _ _ => s!"component {name} {inst}"
  | .component name none _ _ _ => s!"component {name}"

def textList : List Ty → List String
  | [] => []
  | t :: ts => text t :: textList ts

def textFields : List (String × Ty) → List String
  | [] => []
  | (name, t) :: rest => s!"{name}: {text t}" :: textFields rest

end

end Ty

end Provision
