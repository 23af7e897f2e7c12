import Provision.Checker
import Provision.Decl.Parser
import Provision.Proofs.Session.Arrival
import Provision.Proofs.Session.Findings

/-!
# What an accepted program went through

If a check accepts a program, then none of its stages has a finding: everything is registered, every
declaration is checked, components and bodies are in order (`Checker.accepted_of_check`). What the
checked program says is what the last session knows.
-/

namespace Provision

open Session

variable {source : String} {scope : ScopeId}

namespace CheckedProgram

def Depends (c : CheckedProgram) (x y : String) : Prop := ∃ ds, c.dependencies? x = some ds ∧ y ∈ ds

/-- The order of the top level, or of the body of a component. -/
def orderOf? (c : CheckedProgram) : Option String → Option (List String)
  | none => some c.order
  | some component => c.componentOrder? component

/-- The scope of the top level, or of the body of a component. -/
def scopeOf? (c : CheckedProgram) : Option String → Option ScopeId
  | none => some ScopeId.global
  | some component => Table.find? c.componentScopes component

/-- What a name that a body declares is an instance of. -/
def kindOf? (c : CheckedProgram) (component : Option String) (n : String) : Option InstanceKind :=
  (c.scopeOf? component).bind fun scope => c.scopes.kindAt scope n

end CheckedProgram

namespace Program

/-- A source whose characters are at hand, so that running the parser on it need not decode its
bytes. -/
class Spelled (source : String) where
  chars : List Char
  ofList_chars : String.ofList chars = source

def parseChars (cs : List Char) : Except ParseError Program :=
  let bytes := Text.encode cs
  parseTokens (Token.scanBytes bytes) bytes.length

theorem Spelled.parse_eq (spelled : Spelled source) : parse source = parseChars spelled.chars := by
  obtain ⟨chars, rfl⟩ := spelled
  rw [parse, String.toList_ofList]
  rfl

instance {source : String} [spelled : Spelled source] {f : Program → Bool} :
    Decidable ((parse source).toOption.any f = true) :=
  decidable_of_iff ((parseChars spelled.chars).toOption.any f = true) (by rw [spelled.parse_eq])

end Program

namespace Checker

variable {k : Checker} {p : Program} {c : CheckedProgram}

def linked (k : Checker) (p : Program) : Session := (linkComponents.run (k.checked p)).2

/-- Every stage of the check of a program went through, and its outcome is what the last session
knows. -/
structure Accepted (k : Checker) (p : Program) (c : CheckedProgram) : Prop where
  prepared : Prepared p (k.registered p)
  underway : Underway p (k.registered p)
  halted : (k.registered p).halted = []
  shaped : ∀ {component ds}, p.Body component ds → ∀ d ∈ ds, WellShaped k d
  checks : Advances p (k.registered p) (k.checked p)
  links : Advances p (k.checked p) (k.linked p)
  acyclic : ∀ component, ¬ Relation.TransGen (k.checked p).Uses component component
  external : ∀ {component used w x}, Relation.ReflTransGen (k.checked p).Uses component used →
    (k.checked p).HasInstance component w → (k.checked p).Needs used x →
      (k.linked p).Edge ScopeId.global w x
  findings : (k.linked p).findings = []
  order : ∀ {scope b}, (k.linked p).body? scope = some b →
    ∃ order, b.graph.order = .ok order ∧ c.orderOf? b.component = some order
  scopes : c.scopes = (k.linked p).scopes
  instances : c.instances = (k.linked p).instances
  dependencies? : ∀ x, c.dependencies? x = (k.linked p).dependencies? x
  components : c.componentScopes = (k.linked p).components.map fun i => (i.1, i.2.scope)

/-- What can be computed of a source holds of the program that is read. -/
theorem exists_of_parse {f : Program → Bool} (h : (Program.parse source).toOption.any f = true) :
    ∃ p, Program.parse source = .ok p ∧ f p = true := by
  cases hprs : Program.parse source with
  | error e =>
    rw [hprs] at h
    cases h
  | ok p =>
    rw [hprs] at h
    exact ⟨p, rfl, h⟩

/-- What can be computed of a check holds of the program that is accepted. -/
theorem exists_of_run {f : Program → CheckedProgram → Bool}
    (h : ((Program.parse source).toOption.any fun p => (k.check p).toOption.any (f p)) = true) :
    ∃ p c, Program.parse source = .ok p ∧ k.check p = .ok c ∧ f p c = true := by
  obtain ⟨p, hprs, hrun⟩ := exists_of_parse h
  cases hchk : k.check p with
  | error ds =>
    rw [hchk] at hrun
    cases hrun
  | ok c =>
    rw [hchk] at hrun
    exact ⟨p, c, hprs, hchk, hrun⟩

theorem conclude_of_check (h : k.check p = .ok c) :
    ((k.visit p).run {}).2.findings = [] ∧
      c = conclude ((k.visit p).run {}).2 ((k.visit p).run {}).1 := by
  unfold check at h
  generalize (k.visit p).run {} = r at h ⊢
  obtain ⟨orders, s⟩ := r
  dsimp only at h ⊢
  split at h
  · next hfs =>
    refine ⟨List.isEmpty_iff.mp hfs, ?_⟩
    generalize (if k.validateDefaults then _ else _ : List Diagnostic) = refused at h
    split at h
    · exact (Except.ok.inj h).symm
    · cases h
  · cases h

theorem run_visit (k : Checker) (p : Program) :
    (k.visit p).run {} = (orderBodies {} (k.linked p).bodies).run (k.linked p) := rfl

/-- Registration starts at the top level. -/
theorem atTop (k : Checker) (p : Program) :
    AtTop p ((walkShapes k p.items).run {}).2 ∧
      ((walkShapes k p.items).run {}).2.reader = none := by
  rw [run_walkShapes]
  exact ⟨atTop_initial p _ _, rfl⟩

theorem wellShaped_of_walkShapes (h : ((walkShapes k p.items).run {}).2.findings = [])
    {component : Option String} {ds : List Decl} (hbody : p.Body component ds) :
    ∀ d ∈ ds, WellShaped k d := by
  have hshd : ∀ d ∈ ds, d.EveryList (Shaped k) := by
    cases hbody with
    | top => exact shaped_of_walkShapes h
    | component hc => exact (shaped_of_walkShapes h _ hc).members
  exact fun d hd => ⟨(hshd d hd).own, (hshd d hd).properties⟩

/-- An accepted program went through every stage without findings. -/
theorem accepted_of_check (h : k.check p = .ok c) : Accepted k p c := by
  obtain ⟨hfs, rfl⟩ := conclude_of_check h
  rw [run_visit] at hfs ⊢
  -- Stages only add findings: none at the end means none after any stage.
  have hlnk := (notes_orderBodies {} (k.linked p).bodies _).findings_eq_nil hfs
  have hchecked : (k.checked p).findings = [] :=
    (notes_linkComponents (k.checked p)).findings_eq_nil hlnk
  have hreg : (k.registered p).findings = [] :=
    (notes_checkDecls p.items (k.registered p)).findings_eq_nil hchecked
  obtain ⟨hsta, hreader⟩ := atTop k p
  obtain ⟨hgr, -, hprepared⟩ := registers_program hsta
  have hwalked := hgr.findings_eq_nil hreg
  have hhlt : ((walkShapes k p.items).run {}).2.halted = [] := halted_walkShapes hwalked
  have hprepared : Prepared p (k.registered p) := hprepared hreg
  have hunderway := hprepared.underway (hgr.reader.trans hreader)
  have hchk : Advances p (k.registered p) (k.checked p) :=
    hunderway.advances_checkDecls (List.Subset.refl _)
  obtain ⟨hlinks, hacy, hext⟩ :=
    linkComponents_spec (hchk.linking hunderway.toLinking) hlnk
  have hplaced : Placed (k.linked p) :=
    (hlinks.linking (hchk.linking hunderway.toLinking)).toPlaced
  have hsame := (orderBodies_spec hplaced.nodup_components hfs).1
  have hord : ∀ {scope b}, (k.linked p).body? scope = some b → _ :=
    fun hb => (orderBodies_spec hplaced.nodup_components hfs).2.1 (_, _)
      (hplaced.mem_bodies.mpr hb)
  rw [hsame]
  exact {
    prepared := hprepared
    underway := hunderway
    halted := hgr.halted.trans hhlt
    shaped := wellShaped_of_walkShapes hwalked
    checks := hchk
    links := hlinks
    acyclic := hacy
    external := hext
    findings := hlnk
    order := fun {scope b} hb => by
      obtain ⟨order, hok, hget⟩ := hord hb
      refine ⟨order, hok, ?_⟩
      cases hc : b.component with
      | none =>
        rw [hc] at hget
        exact hget
      | some name =>
        rw [hc] at hget
        exact hget
    scopes := rfl
    instances := rfl
    dependencies? := fun _ => rfl
    components := rfl }

namespace Accepted

variable (h : Accepted k p c) {component : Option String} {n : String}
include h

theorem linking : Linking p (k.linked p) :=
  h.links.linking (h.checks.linking h.underway.toLinking)

theorem grows : Grows (k.registered p) (k.linked p) :=
  h.checks.toGrows.trans h.links.toGrows

theorem depends_iff {x y : String} : c.Depends x y ↔ (k.linked p).Depends x y := by
  rw [CheckedProgram.Depends, h.dependencies?, Depends]

theorem exists_body {ds : List Decl} (hbody : p.Body component ds) :
    ∃ scope b, (k.linked p).body? scope = some b ∧ b.component = component ∧
      ∃ order, b.graph.order = .ok order ∧ c.orderOf? component = some order := by
  obtain ⟨scope, hsc, -⟩ := h.prepared.ready hbody
  obtain ⟨b, hb, hcomp⟩ := h.grows.bodyAt hsc
  exact ⟨scope, b, hb, hcomp, hcomp ▸ h.order hb⟩

theorem precedes_of_edge (hb : (k.linked p).BodyAt scope component) {x y : String}
    (hedge : (k.linked p).Edge scope x y) :
    ∃ order, c.orderOf? component = some order ∧ Precedes order y x := by
  obtain ⟨b, hbody, hedge⟩ := hedge
  obtain rfl := BodyAt.component_eq ⟨b, hbody, rfl⟩ hb
  obtain ⟨order, hok, hord⟩ := h.order hbody
  exact ⟨order, hord, DependencyGraph.order_precedes (h.linking.wellFormed hbody) hok hedge⟩

theorem scopeOf?_iff : c.scopeOf? component = some scope ↔ (k.linked p).BodyAt scope component := by
  cases component with
  | none =>
    constructor
    · intro hsc
      cases hsc
      exact h.linking.top
    · intro hb
      rw [h.linking.eq_global hb, CheckedProgram.scopeOf?]
  | some name =>
    rw [CheckedProgram.scopeOf?, h.components, Table.find?_map fun i : ComponentInfo => i.scope,
      Option.map_eq_some_iff]
    constructor
    · rintro ⟨i, hi, rfl⟩
      exact h.linking.component hi
    · intro hb
      exact h.linking.hasComponent hb

theorem kindOf?_eq (hb : (k.linked p).BodyAt scope component) (n : String) :
    c.kindOf? component n = (k.linked p).scopes.kindAt scope n := by
  rw [CheckedProgram.kindOf?, h.scopeOf?_iff.mpr hb, Option.bind_some, h.scopes]

theorem entered (hn : p.DeclaresInstance component n) :
    (∃ ds, c.dependencies? (qualifiedName component n) = some ds) ∧
      ∃ scope, (k.linked p).BodyAt scope component ∧
        (k.linked p).Node scope (qualifiedName component n) := by
  obtain ⟨ds, hbody, d, hd, hn⟩ := hn
  obtain ⟨scope, hb, hready⟩ := h.prepared.ready hbody
  obtain ⟨kind, hkind⟩ := (hready d hd (Decl.isMember_of_instanceName? hn)).2.kindAt hn
  have hentered := h.prepared.entered hkind hb
  constructor
  · rw [h.dependencies?]
    exact Option.isSome_iff_exists.mp (h.grows.isSome_dependencies? hentered.dependencies?)
  · exact ⟨scope, h.grows.bodyAt hb, h.grows.node hentered.node⟩

end Accepted

end Checker

end Provision
