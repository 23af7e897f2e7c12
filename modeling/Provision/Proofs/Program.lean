import Mathlib.Tactic
import Provision.Decl

/-!
# What a program declares

The bodies of a program are its top level and the bodies of its components. Resources, component
instances and variables of a body are known by qualified names. As long as no name holds a point,
different declarations have different qualified names (`Program.qualifiedName_inj`).
-/

namespace Provision

open List

variable {n : String} {d : Decl}

/-- A name as it is known outside the body that declares it. -/
def qualifiedName : Option String → String → String
  | none, name => name
  | some comp, name => comp ++ "." ++ name

namespace Decl

/-- The name that a resource or a component instance declares. -/
def instanceName? : Decl → Option String
  | .resource d => some d.name.text
  | .inst d => some d.name.text
  | _ => none

/-- The name that a variable without a written type declares. -/
def variableName? : Decl → Option String
  | .var d => if d.type.isNone then some d.name.text else none
  | _ => none

/-- The names of the resources and component instances among declarations. -/
def instanceNames (ds : List Decl) : List String := ds.filterMap instanceName?

/-- Whether a declaration is registered with the members of its body: all but schemas, aliases,
components and variables without a written type are. -/
def isMember : Decl → Bool
  | .function _ | .input _ | .output _ | .resource _ | .inst _ => true
  | .var d => d.type.isSome
  | _ => false

def isComponent : Decl → Bool
  | .component .. => true
  | _ => false

def members : Decl → List Decl
  | .component _ _ body _ => body
  | _ => []

def properties : Decl → List SchemaProperty
  | .schema d => d.properties
  | _ => []

def inits : Decl → List Init
  | .resource d => d.body
  | .inst d => d.body
  | _ => []

/-- The expressions of a declaration: initialisers, defaults, values and bodies. -/
def exprs : Decl → List Expr
  | .resource d => d.body.map (·.value)
  | .inst d => d.body.map (·.value)
  | .input d => d.default.toList
  | .output d => d.value.toList
  | .var d => [d.value]
  | .function d => [d.body]
  | _ => []

theorem exprs_of_instanceName? (h : d.instanceName? = some n) :
    d.exprs = d.inits.map (·.value) := by
  cases d with
  | resource d => rfl
  | inst d => rfl
  | _ => cases h

theorem name_of_instanceName? (h : d.instanceName? = some n) : d.name.text = n := by
  cases d <;> simp_all [instanceName?, name]

theorem name_of_variableName? (h : d.variableName? = some n) : d.name.text = n := by
  cases d <;> simp_all [variableName?, name]

theorem isMember_of_instanceName? (h : d.instanceName? = some n) : d.isMember = true := by
  cases d <;> first | rfl | cases h

theorem mem_instanceNames {ds : List Decl} :
    n ∈ instanceNames ds ↔ ∃ d ∈ ds, d.instanceName? = some n := by
  simp [instanceNames]

theorem sizeOf_lt_of_mem_members {e : Decl} (he : e ∈ d.members) : sizeOf e < sizeOf d := by
  cases d with
  | component decs name body span =>
    have hbody : sizeOf e < sizeOf body := sizeOf_lt_of_mem he
    simp only [component.sizeOf_spec]
    omega
  | _ => cases he

/-- Induction over declarations and their members. -/
theorem members_induction {P : Decl → Prop} (h : ∀ d : Decl, (∀ e ∈ d.members, P e) → P d)
    (d : Decl) : P d :=
  h d fun e _ => members_induction h e
termination_by d
decreasing_by exact sizeOf_lt_of_mem_members ‹_›

end Decl

def Plain (name : String) : Prop := '.' ∉ name.toList

instance (name : String) : Decidable (Plain name) := inferInstanceAs (Decidable ('.' ∉ name.toList))

namespace Program

/-- The declarations of the top level, and those of the body of a component. -/
inductive Body (p : Program) : Option String → List Decl → Prop
  | top : p.Body none p.items
  | component {decs : List Decoration} {name : Ident} {body : List Decl} {span : Span}
      (h : Decl.component decs name body span ∈ p.items) : p.Body (some name.text) body

/-- A body declares a resource or a component instance under a name. -/
def DeclaresInstance (p : Program) (comp : Option String) (name : String) : Prop :=
  ∃ ds, p.Body comp ds ∧ ∃ d ∈ ds, d.instanceName? = some name

/-- A body declares a variable without a written type under a name. -/
def DeclaresVariable (p : Program) (comp : Option String) (name : String) : Prop :=
  ∃ ds, p.Body comp ds ∧ ∃ d ∈ ds, d.variableName? = some name

/-- No declared name holds a point. A name that was read from a source never does. -/
def DotFree (p : Program) : Prop :=
  ∀ d ∈ p.items, Plain d.name.text ∧ ∀ e ∈ d.members, Plain e.name.text

instance (p : Program) : Decidable p.DotFree :=
  inferInstanceAs (Decidable (∀ d ∈ p.items,
    Plain d.name.text ∧ ∀ e ∈ d.members, Plain e.name.text))

def Declares (p : Program) (comp : Option String) (name : String) : Prop :=
  ∃ ds, p.Body comp ds ∧ ∃ d ∈ ds, d.name.text = name

variable {p : Program} {c c' : Option String} {n n' : String}

theorem body_of_isComponent (hd : d ∈ p.items) (h : d.isComponent = true) :
    p.Body (some d.name.text) d.members := by
  cases d with
  | component decs name body span => exact .component hd
  | _ => cases h

theorem DeclaresInstance.declares (h : p.DeclaresInstance c n) : p.Declares c n := by
  obtain ⟨ds, hds, d, hd, hn⟩ := h
  exact ⟨ds, hds, d, hd, Decl.name_of_instanceName? hn⟩

theorem DeclaresVariable.declares (h : p.DeclaresVariable c n) : p.Declares c n := by
  obtain ⟨ds, hds, d, hd, hn⟩ := h
  exact ⟨ds, hds, d, hd, Decl.name_of_variableName? hn⟩

theorem DotFree.plain (hp : p.DotFree) (h : p.Declares c n) :
    Plain n ∧ ∀ component ∈ c, Plain component := by
  obtain ⟨ds, hds, d, hd, rfl⟩ := h
  cases hds with
  | top => exact ⟨(hp d hd).1, by simp⟩
  | component hc =>
    refine ⟨(hp _ hc).2 d hd, ?_⟩
    rintro component ⟨⟩
    exact (hp _ hc).1

end Program

theorem toList_qualifiedName (comp name : String) :
    (qualifiedName (some comp) name).toList = comp.toList ++ '.' :: name.toList := by
  simp [qualifiedName]

private theorem append_point_inj {l l' r r' : List Char} (hl : '.' ∉ l) (hl' : '.' ∉ l')
    (h : l ++ '.' :: r = l' ++ '.' :: r') : l = l' ∧ r = r' := by
  induction l generalizing l' with
  | nil =>
    cases l' with
    | nil => simpa using h
    | cons c l' =>
      rw [nil_append, cons_append, cons_eq_cons] at h
      exact absurd (h.1 ▸ mem_cons_self ..) hl'
  | cons c l ih =>
    cases l' with
    | nil =>
      rw [nil_append, cons_append, cons_eq_cons] at h
      exact absurd (h.1 ▸ mem_cons_self ..) hl
    | cons c' l' =>
      rw [cons_append, cons_append, cons_eq_cons] at h
      rw [mem_cons, not_or] at hl hl'
      obtain ⟨rfl, hr⟩ := ih hl.2 hl'.2 h.2
      exact ⟨by rw [h.1], hr⟩

theorem Program.qualifiedName_inj {p : Program} (hp : p.DotFree) {c c' : Option String}
    {n' : String} (h : p.Declares c n) (h' : p.Declares c' n')
    (heq : qualifiedName c n = qualifiedName c' n') : c = c' ∧ n = n' := by
  obtain ⟨hn, hc⟩ := hp.plain h
  obtain ⟨hn', hc'⟩ := hp.plain h'
  have hlist := congrArg String.toList heq
  cases c with
  | none =>
    cases c' with
    | none => exact ⟨rfl, heq⟩
    | some b =>
      rw [toList_qualifiedName] at hlist
      exact absurd (show '.' ∈ n.toList from hlist ▸ by simp) hn
  | some a =>
    cases c' with
    | none =>
      rw [toList_qualifiedName] at hlist
      exact absurd (show '.' ∈ n'.toList from hlist ▸ by simp) hn'
    | some b =>
      rw [toList_qualifiedName, toList_qualifiedName] at hlist
      obtain ⟨hab, hnn⟩ := append_point_inj (hc a rfl) (hc' b rfl) hlist
      exact ⟨congrArg some (String.toList_inj.mp hab), String.toList_inj.mp hnn⟩

end Provision
