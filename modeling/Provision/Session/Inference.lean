import Provision.Session.Links

/-!
# The types of expressions

`Session.infer` gives the type of an expression. What is expected of it only helps with empty
arrays and objects; whether the type fits is checked by `Session.checkValue`. Reading an instance
is noted on the way.
-/

namespace Provision

def Lit.type : Lit → Ty
  | .int _ => .number
  | .float _ => .number
  | .str _ => .string
  | .bool _ => .boolean
  | .null => .null

/-- The type of the operand and of the result of an operator. -/
def UnaryOp.type : UnaryOp → Ty
  | .not => .boolean
  | .neg => .number

def Ty.isAnyOr (t want : Ty) : Bool := t.isAny || t.same want

def Ty.isPrintable (t : Ty) : Bool := t.same .string || t.same .number

/-- The type of the result of an operator, if its operands fit. With a string on one side `+` joins
texts. -/
def BinaryOp.type? (op : BinaryOp) (lhs rhs : Ty) : Option Ty :=
  match op with
  | .or | .and => if lhs.isAnyOr .boolean && rhs.isAnyOr .boolean then some .boolean else none
  | .eq | .ne => some .boolean
  | .lt | .le | .gt | .ge =>
    if lhs.isAnyOr .number && rhs.isAnyOr .number then some .boolean else none
  | .add =>
    if lhs.isAny || rhs.isAny then some .any
    else if lhs.same .string || rhs.same .string then
      if lhs.isPrintable && rhs.isPrintable then some .string else none
    else if lhs.same .number && rhs.same .number then some .number
    else none
  | .sub | .mul | .div =>
    if lhs.isAnyOr .number && rhs.isAnyOr .number then some .number else none

namespace Session

variable (k : Checker)

/-- Runs a check one expression deeper, unless that is too deep. -/
def nested (span : Span) (act : Inferring α) : Inferring α := ExceptT.mk do
  let s ← get
  if s.depth < k.maxDepth then
    set { s with depth := s.depth + 1 }
    let result ← act.run
    modify fun s => { s with depth := s.depth - 1 }
    return result
  else return .error (.typeError (.tooDeep k.maxDepth) span)

/-- The type of a name; reading an instance is noted. -/
def inferVar (name : Ident) : Inferring Ty := do
  let s ← get
  match s.scopes.resolve name.text with
  | .error e => throw (.ofScope e name.span)
  | .ok (scope, type) =>
    if s.aliases.contains (scope, name.text) then
      throw (.typeError (.typeAsValue name.text) name.span)
    else
      if type.instanceName?.isSome then noteRead scope name.text
      return type

def member (members : Table Ty) (base : Ty) (kind : MemberKind) (field : Ident) : Inferring Ty :=
  match members.find? field.text with
  | some type => return type
  | none => throw (.typeError (.noMember base kind field.text) field.span)

/-- The resource of a schema that a name means, with its scope. -/
def resourceOf? (s : Session) (schema name : String) : Option (ScopeId × Ty) :=
  match s.scopes.resolve name with
  | .ok (scope, .resource n kind properties) =>
    if kind = schema then some (scope, .resource n kind properties) else none
  | _ => none

/-- The type of a member of a value: a field of an object, a property of a resource, an output of a
component instance, or a resource of a schema by its name. -/
def inferMember (base : Ty) (field : Ident) : Inferring Ty :=
  match base with
  | .scalar .any => return .any
  | .object [] => return .any
  | .object fields => member fields base .field field
  | .resource _ _ properties => member properties base .property field
  | .component _ (some _) _ outputs _ => member outputs base .output field
  | .schema schema _ _ => do
    match (← get).resourceOf? schema field.text with
    | some (scope, type) =>
      noteRead scope field.text
      return type
    | none => throw (.typeError (.noMember base .inst field.text) field.span)
  | other => throw (.typeError (.noAccess field.text other) field.span)

mutual

def infer : Expr → (expected : Option Ty) → Inferring Ty
  | .lit value span, _ => nested k span (return value.type)
  | .var name, _ => nested k name.span (inferVar name)
  | .paren inner span, expected => nested k span (infer inner expected)
  | .member base field span, _ => nested k span do
    inferMember (← infer base none) field
  | .array items span, expected => nested k span do
    let hint := expected.bind Ty.elem?
    match ← inferItems items hint with
    | [] => return .array (hint.getD .any)
    | types => return .array (Ty.ofVariants types)
  | .object fields span, expected => nested k span do
    let hints := match expected with
      | some (.object hints) => hints
      | _ => []
    return .object (← inferFields hints [] fields)
  | .unary op operand span, _ => nested k span do
    let found ← infer operand none
    if found.isAnyOr op.type then return op.type
    else throw (.typeError (.wrongOperand op op.type found) span)
  | .binary lhs op rhs span, _ => nested k span do
    let l ← infer lhs none
    let r ← infer rhs none
    match op.type? l r with
    | some type => return type
    | none => throw (.typeError (.wrongOperands op l r) span)
  | .call callee args span, _ => nested k span do
    match ← infer callee none with
    | .function params result =>
      if params.length = args.length then
        inferArgs 1 params args
        return result
      else throw (.typeError (.wrongArity params.length args.length) span)
    | .scalar .any =>
      let _ ← inferItems args none
      return .any
    | other => throw (.typeError (.notCallable other) span)

/-- The types of some expressions of which the same is expected. -/
def inferItems : List Expr → (hint : Option Ty) → Inferring (List Ty)
  | [], _ => return []
  | e :: es, hint => do
    let type ← infer e hint
    return type :: (← inferItems es hint)

/-- The types of the fields of an object, added to those before them. -/
def inferFields (hints : Table Ty) : Table Ty → List ObjectField → Inferring (Table Ty)
  | types, [] => return types
  | types, .mk key value _ :: rest => do
    if types.contains key.text then
      throw (.typeError (.duplicateKey key.text) key.span)
    else
      let type ← infer value (hints.find? key.text)
      inferFields hints (types.insert key.text type) rest

/-- Checks the arguments of a call against the parameters, the first at the given position. -/
def inferArgs (position : Nat) : List Ty → List Expr → Inferring Unit
  | param :: params, arg :: args => do
    let found ← infer arg (some param)
    if found.assignable param then inferArgs (position + 1) params args
    else throw (.typeError (.wrongCallArgument position param found) arg.span)
  | _, _ => return

end

/-- Checks an expression against the type that is expected of it. -/
def checkValue (subject : Subject) (expected : Ty) (e : Expr) : Checking Unit := do
  match ← (infer k e (some expected)).run with
  | .ok found =>
    if found.assignable expected then return
    else reportProblem (.mismatch subject expected found) e.span
  | .error finding => report finding

end Session

end Provision
