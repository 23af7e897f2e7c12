import Provision.Decorator.Labels
import Provision.Session.Inference

/-!
# Checking

After registration every declaration is checked: the targets and types of its decorators, its
values and its initialisers. A declaration that was not registered is left out, since its finding
is there already.
-/

namespace Provision.Session

variable (k : Checker)

/-! ### Decorators -/

/-- Checks the target and the type of a decoration, and gives the references in it. -/
def checkSite (decorator : Decorator) (d : Decoration) (site : Site) (type : Ty) :
    Except Diagnostic (List Reference) := do
  let references ← decorator.checkTarget d site
  decorator.checkType d site type
  return references

def defer (decorator : Decorator) (d : Decoration) (site : Site) (value : Option Expr) :
    Checking Unit :=
  modify fun s => { s with deferred := s.deferred ++ [{
    decorator
    args := d.args
    target := s.qualified site.name
    default := value.bind Value.ofExpr?
    span := d.span }] }

/-- Runs decorations one after the other and gives their references, added to those before them.
At the first finding it stops, and there are no references. -/
def runDecorations (site : Site) (type : Ty) (value : Option Expr) :
    List Reference → List Decoration → Checking (List Reference)
  | references, [] => return references
  | references, d :: rest =>
    match k.registry.get? d.name.text with
    | none => return references
    | some decorator =>
      match checkSite decorator d site type with
      | .error finding => do
        report finding
        return []
      | .ok more => do
        if decorator.spec.deferred then defer decorator d site value
        runDecorations site type value (references ++ more) rest

/-- Runs the decorators of a declaration and gives their references. -/
def runDecorators (ds : List Decoration) (site : Site) (type : Ty) (value : Option Expr) :
    Checking (List Reference) := do
  if (← get).isHalted ds then return [] else runDecorations k site type value [] ds

/-- What `@count` says, if a decoration is one: how many, if that fits 32 bits. -/
def countOf? (d : Decoration) : Option (Option Nat) :=
  if d.name.text = "count" then
    some (d.args.int?.bind fun n => if 0 ≤ n ∧ n.toNat < Nat.pow 2 32 then some n.toNat else none)
  else none

/-- What `@existing` says, if a decoration is one with a string. -/
def existingOf? (d : Decoration) : Option (Option ExistingRef) := do
  guard (d.name.text = "existing")
  let reference ← (← d.args.positional?).string?
  return (ImportRef.classify? reference).map (⟨reference, ·⟩)

/-- Notes what the decorations of an instance say about it; the last of a kind wins. -/
def recordDecorations (name : String) (ds : List Decoration) : Checking Unit :=
  modifyInstance name fun i => { i with
    tags := Decorator.Labels.tags ds
    providers := Decorator.Labels.providers ds
    count := (ds.filterMap countOf?).getLast?.getD i.count
    existing := (ds.filterMap existingOf?).getLast?.getD i.existing }

/-! ### Instances -/

/-- Checks initialisers against the fields of an instance; `seen` are the names before them. -/
def checkFields (holder : Holder) (fields : Table Ty) : List String → List Init → Checking Unit
  | _, [] => return
  | seen, i :: rest => do
    let name := i.name.text
    if seen.contains name then
      reportProblem (.initialisedTwice holder name) i.name.span
      checkFields holder fields seen rest
    else
      match fields.find? name with
      | some type => checkValue k (holder.subject name) type i.value
      | none =>
        reportProblem (.noSuchField holder name) i.name.span
        -- what the value reads is noted all the same
        let _ ← (infer k i.value none).run
      checkFields holder fields (name :: seen) rest

/-- Reports the required fields that no initialiser gives. -/
def checkRequired (holder : Holder) (span : Span) (given : List String) :
    List String → Checking Unit
  | [] => return
  | name :: rest => do
    if given.contains name then checkRequired holder span given rest
    else
      reportProblem (.missingField holder name) span
      checkRequired holder span given rest

/-- Checks the initialisers of an instance. What they read is what the instance depends on. -/
def checkInits (reader : String) (holder : Holder) (span : Span) (fields : Table Ty)
    (required : List String) (inits : List Init) : Checking Unit := do
  let before := (← get).reader
  modify fun s => { s with reader := some reader }
  checkFields k holder fields [] inits
  checkRequired holder span (inits.map (·.name.text)) required
  modify fun s => { s with reader := before }

def requiredProperties (d : SchemaDecl) : List String :=
  (d.properties.filter (·.default.isNone)).map (·.name.text)

def requiredInputs (body : List Decl) : List String :=
  body.filterMap fun d =>
    match d with
    | .input i => if i.default.isNone then some i.name.text else none
    | _ => none

/-- The declaration of the schema that a name means. -/
def schemaDecl? (s : Session) (name : String) : Option SchemaDecl :=
  match s.scopes.resolve name with
  | .ok (scope, _) => s.schemas.lookup (scope, name)
  | .error _ => none

/-- Checks the decorators of an instance and notes what they say about it. -/
def checkInstanceDecorators (ds : List Decoration) (target : Target) (name : String) (type : Ty) :
    Checking Unit := do
  let qualified := (← get).qualified name
  let references ← runDecorators k ds ⟨target, name, false⟩ type none
  linkAll qualified references
  recordDecorations qualified ds

def checkResource (d : ResourceDecl) : Checking Unit := do
  let type := (← get).boundType d.name
  checkInstanceDecorators k d.decorations .resource d.name.text type
  match type with
  | .resource _ schema properties =>
    let s ← get
    let required := ((s.schemaDecl? d.schema.text).map requiredProperties).getD []
    checkInits k (s.qualified d.name.text) (.resource d.name.text schema) d.span properties
      required d.body
  | _ => return

def checkInstance (d : InstanceDecl) : Checking Unit := do
  let type := (← get).boundType d.name
  checkInstanceDecorators k d.decorations .component d.name.text type
  match type with
  | .component component _ inputs _ _ =>
    let s ← get
    let required := ((s.components.find? component).map (requiredInputs ·.body)).getD []
    checkInits k (s.qualified d.name.text) (.inst d.name.text component) d.span inputs
      required d.body
  | _ => return

/-! ### Other declarations -/

/-- Checks the value of a declaration, if it has one. -/
def checkValue? (subject : Subject) (type : Ty) : Option Expr → Checking Unit
  | some e => checkValue k subject type e
  | none => return

/-- Checks the properties of a schema, whose types are given. -/
def checkProperties (schema : String) (types : Table Ty) : List SchemaProperty → Checking Unit
  | [] => return
  | p :: rest => do
    let name := p.name.text
    let type := (types.find? name).getD .any
    let _ ← runDecorators k p.decorations ⟨.schemaProperty, name, false⟩ type p.default
    checkValue? k (.propertyDefault name schema) type p.default
    checkProperties schema types rest

def checkSchema (d : SchemaDecl) : Checking Unit := do
  let name := d.name.text
  let type := (← get).boundType d.name
  let _ ← runDecorators k d.decorations ⟨.schema, name, false⟩ type none
  let properties := match type with
    | .schema _ properties _ => properties
    | _ => []
  checkProperties k name properties d.properties

def checkInput (d : InputDecl) : Checking Unit := do
  let type := (← get).boundType d.name
  let _ ← runDecorators k d.decorations ⟨.input, d.name.text, false⟩ type d.default
  checkValue? k (.inputDefault d.name.text) type d.default

def checkOutput (d : OutputDecl) : Checking Unit := do
  let type := (← get).boundType d.name
  let _ ← runDecorators k d.decorations ⟨.output, d.name.text, false⟩ type d.value
  checkValue? k (.output d.name.text) type d.value

/-- The type of an expression; a finding is reported. -/
def inferred? (e : Expr) : Checking (Option Ty) := do
  match ← (infer k e none).run with
  | .ok type => return some type
  | .error finding =>
    report finding
    return none

/-- The type of a variable. One without a written type is bound here, so that nothing before it can
use it. -/
def variableType? (d : VarDecl) : Checking (Option Ty) := do
  match d.type with
  | some _ =>
    let s ← get
    if s.isRegistered d.name then
      let type := s.boundType d.name
      checkValue k (.variable d.name.text) type d.value
      return some type
    else return none
  | none =>
    let type := (← inferred? k d.value).getD .any
    if ← declare d.name type then return some type else return none

def checkVariable (d : VarDecl) : Checking Unit := do
  match ← variableType? k d with
  | some type =>
    let _ ← runDecorators k d.decorations ⟨.variable, d.name.text, false⟩ type (some d.value)
  | none => return

def declareParams : List Param → List Ty → Checking Unit
  | p :: ps, t :: ts => do
    let _ ← declare p.name t
    declareParams ps ts
  | _, _ => return

/-- Checks the body of a function in a scope with its parameters. Gives the type of the body, if
that is the result of the function. -/
def bodyType? (d : FunDecl) (params : List Ty) (result : Ty) : Checking (Option Ty) := do
  let (scope, scopes) := (← get).scopes.newChild none
  modify fun s => { s with scopes }
  inScope scope do
    declareParams d.params params
    match d.result with
    | some _ =>
      checkValue k (.functionBody d.name.text) result d.body
      return none
    | none => inferred? k d.body

/-- Checks a function. One without a written result gets the type of its body. -/
def checkFunction (d : FunDecl) : Checking Unit := do
  let type := (← get).boundType d.name
  let _ ← runDecorators k d.decorations ⟨.function, d.name.text, false⟩ type none
  match type with
  | .function params result =>
    match ← bodyType? k d params result with
    | some body =>
      modify fun s => { s with scopes := s.scopes.set d.name.text (.function params body) }
    | none => return
  | _ => return

def checkAlias (d : AliasDecl) : Checking Unit := do
  match d.decorations with
  | first :: _ =>
    if (← get).isHalted d.decorations then return
    else reportProblem (.aliasDecorated d.name.text) first.span
  | [] => return

def ifRegistered (name : Ident) (act : Checking Unit) : Checking Unit := do
  if (← get).isRegistered name then act else return

mutual

def checkDecl : Decl → Checking Unit
  | .schema d => ifRegistered d.name (checkSchema k d)
  | .resource d => ifRegistered d.name (checkResource k d)
  | .component ds name body _ => ifRegistered name do
    let s ← get
    let _ ← runDecorators k ds ⟨.component, name.text, true⟩ (s.boundType name) none
    match s.components.find? name.text with
    | some info => inBody name.text info.scope (checkDecls body)
    | none => return
  | .inst d => ifRegistered d.name (checkInstance k d)
  | .input d => ifRegistered d.name (checkInput k d)
  | .output d => ifRegistered d.name (checkOutput k d)
  | .var d => checkVariable k d
  | .function d => ifRegistered d.name (checkFunction k d)
  | .alias d => checkAlias d

def checkDecls : List Decl → Checking Unit
  | [] => return
  | d :: rest => do
    checkDecl d
    checkDecls rest

end

end Provision.Session
