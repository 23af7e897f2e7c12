import Provision.Proofs.Session.Checking

/-!
# Decorators first, and then the rest

Decorations stand at places: before a declaration, and before the properties of a schema
(`Decl.places`). The check of a declaration runs the decorators of its own place
(`Session.decorate`), and what it does then does not depend on them (`Session.behind`). Only a
variable has its value looked at before, since its decorators are given the type of that
(`Session.run_checkDecl`).
-/

namespace Provision

def Ty.properties? : Ty → Option (Table Ty)
  | .schema _ props _ => some props
  | _ => none

/-- Where decorations stand: what they stand on, and the value that it has in the source. -/
structure Place where
  site : Site
  decorations : List Decoration
  value : Option Expr

def SchemaProperty.place (q : SchemaProperty) : Place :=
  ⟨⟨.schemaProperty, q.name.text, false⟩, q.decorations, q.default⟩

namespace Decl

/-- The place before a declaration. A type alias has none. -/
def place? : Decl → Option Place
  | .schema d => some ⟨⟨.schema, d.name.text, false⟩, d.decorations, none⟩
  | .resource d => some ⟨⟨.resource, d.name.text, false⟩, d.decorations, none⟩
  | .component ds name _ _ => some ⟨⟨.component, name.text, true⟩, ds, none⟩
  | .inst d => some ⟨⟨.component, d.name.text, false⟩, d.decorations, none⟩
  | .input d => some ⟨⟨.input, d.name.text, false⟩, d.decorations, d.default⟩
  | .output d => some ⟨⟨.output, d.name.text, false⟩, d.decorations, d.value⟩
  | .var d => some ⟨⟨.variable, d.name.text, false⟩, d.decorations, some d.value⟩
  | .function d => some ⟨⟨.function, d.name.text, false⟩, d.decorations, none⟩
  | .alias _ => none

def places (d : Decl) : List Place := d.place?.toList ++ d.properties.map SchemaProperty.place

theorem decorations_of_place? {d : Decl} {place : Place} (h : d.place? = some place) :
    place.decorations = d.decorations := by
  cases d <;> cases h <;> rfl

theorem place?_cases (d : Decl) : (∃ v, d = .var v) ∨ (∃ a, d = .alias a) ∨
    ∃ place, d.place? = some place ∧ place.site.target ≠ .variable := by
  cases d with
  | var v => exact Or.inl ⟨v, rfl⟩
  | «alias» a => exact Or.inr (Or.inl ⟨a, rfl⟩)
  | _ => exact Or.inr (Or.inr ⟨_, rfl, Target.noConfusion⟩)

end Decl

namespace Session

variable {k : Checker} {s : Session} {d : Decl} {place : Place}

/-- The session in which the decorators of a declaration run. Those of a variable run once it has a
type. -/
def afterValue (k : Checker) (s : Session) : Decl → Session
  | .var d => ((variableType? k d).run s).2
  | _ => s

/-- The type that the decorators of a declaration are given: that of its name, and for a variable
the one it gets. -/
def ownType (k : Checker) (s : Session) : Decl → Ty
  | .var d => ((variableType? k d).run s).1.getD .any
  | d => s.boundType d.name

/-- The check of a declaration gets to its decorators. A variable has to get a type for that, and
any other declaration but an alias has to be registered. -/
def Checks (k : Checker) (s : Session) : Decl → Prop
  | .var d => ((variableType? k d).run s).1.isSome
  | .alias _ => True
  | d => s.isRegistered d.name

def decorate (k : Checker) (d : Decl) (place : Place) (type : Ty) : Checking Unit :=
  if d.instanceName?.isSome then
    checkInstanceDecorators k place.decorations place.site.target place.site.name type
  else do
    let _ ← runDecorators k place.decorations place.site type place.value

def initialiseResource (k : Checker) (d : ResourceDecl) : Ty → Checking Unit
  | .resource _ schema props => do
    let s ← get
    let required := ((s.schemaDecl? d.schema.text).map requiredProperties).getD []
    checkInits k (s.qualified d.name.text) (.resource d.name.text schema) d.span props
      required d.body
  | _ => return

/-- The check of an instance of a component behind its decorators. -/
def initialiseInstance (k : Checker) (d : InstanceDecl) : Ty → Checking Unit
  | .component comp _ inputs _ _ => do
    let s ← get
    let required := ((s.components.find? comp).map (requiredInputs ·.body)).getD []
    checkInits k (s.qualified d.name.text) (.inst d.name.text comp) d.span inputs
      required d.body
  | _ => return

def finishFunction (k : Checker) (d : FunDecl) : Ty → Checking Unit
  | .function params result => do
    match ← bodyType? k d params result with
    | some body =>
      modify fun s => { s with scopes := s.scopes.set d.name.text (.function params body) }
    | none => return
  | _ => return

/-- The check of a declaration behind its decorators, which began in the session `s`. -/
def behind (k : Checker) (s : Session) (type : Ty) : Decl → Checking Unit
  | .schema d => checkProperties k d.name.text (type.properties?.getD []) d.properties
  | .component _ name body _ =>
    match s.components.find? name.text with
    | some info => inBody name.text info.scope (checkDecls k body)
    | none => return
  | .resource d => initialiseResource k d type
  | .inst d => initialiseInstance k d type
  | .input d => checkValue? k (.inputDefault d.name.text) type d.default
  | .output d => checkValue? k (.output d.name.text) type d.value
  | .function d => finishFunction k d type
  | .var _ | .alias _ => return

theorem run_ifRegistered (name : Ident) {act : Checking Unit} (h : s.isRegistered name) :
    (ifRegistered name act).run s = act.run s := by
  unfold ifRegistered
  rw [run_get_bind]
  rw [if_pos h]

theorem checkDecl_eq (hpl : d.place? = some place) (hvar : place.site.target ≠ .variable) :
    checkDecl k d = ifRegistered d.name (do
      let s ← get
      decorate k d place (s.boundType d.name)
      s.behind k (s.boundType d.name) d) := by
  cases d with
  | var d =>
    cases hpl
    exact absurd rfl hvar
  | «alias» d => cases hpl
  | component decs name body span =>
    cases hpl
    rw [checkDecl]
    rfl
  | _ d =>
    cases hpl
    rw [checkDecl]
    refine congrArg (ifRegistered d.name) (bind_congr fun s => ?_)
    dsimp only [behind, Decl.name]
    cases s.boundType d.name <;> rfl

/-- The decorators of a declaration run, and then comes the rest of its check. -/
theorem run_checkDecl (hpl : d.place? = some place) (hchk : s.Checks k d) :
    ((checkDecl k d).run s).2 = ((s.behind k (s.ownType k d) d).run
      ((decorate k d place (s.ownType k d)).run (s.afterValue k d)).2).2 := by
  cases d with
  | var d =>
    cases hpl
    obtain ⟨type, hty⟩ := Option.isSome_iff_exists.mp hchk
    rw [checkDecl, checkVariable, run_bind, hty, ownType, hty]
    rfl
  | «alias» d => cases hpl
  | _ =>
    cases hpl
    rw [checkDecl_eq rfl Target.noConfusion, run_ifRegistered _ hchk]
    rfl

theorem run_checkDecl_of_not_checks (h : ¬s.Checks k d) :
    ((checkDecl k d).run s).2 = s.afterValue k d := by
  cases d with
  | var d =>
    have hnone : ((variableType? k d).run s).1 = none := Option.not_isSome_iff_eq_none.mp h
    rw [checkDecl, checkVariable, run_bind, hnone]
    rfl
  | «alias» d => exact absurd trivial h
  | _ =>
    unfold Checks at h
    rw [checkDecl]
    unfold ifRegistered
    rw [run_get_bind]
    dsimp only [Decl.name] at h ⊢
    rw [if_neg h]
    rfl

end Session

end Provision
