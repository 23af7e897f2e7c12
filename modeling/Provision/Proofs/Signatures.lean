import Provision.Proofs.Checker
import Provision.Proofs.Session.Ports

/-!
# Signatures and bodies of components

In an accepted program the definition of a component and all its instances list the same inputs and
outputs. The type that they list for an input or an output is the one that its name has in the body
as long as every name in the written type could be used when the signature was read: types of the
body and of the top level, and components that stand before. A component that stands behind cannot:
the signature then lists `any`, which fits every value, although the body takes the component
(`Checker.signature_of_check`).
-/

namespace Provision

open Session

/-- The bindings of the top level, or of the body of a component. -/
def CheckedProgram.bindingsOf? (c : CheckedProgram) : Option String → Option (Table Ty)
  | none => some c.globals
  | some comp => c.componentBindings? comp

namespace Session

theorem coherent_initial (findings : List Diagnostic) (halted : List Span) :
    Coherent { findings, halted } where
  current_lt := Nat.zero_lt_one
  alias_flat ha := (List.not_mem_nil ha).elim
  conforms hty := by
    rw [find?_initial] at hty
    cases hty

theorem coherent_registerProgram {p : Program} {s : Session} (hs : AtTop p s) (hcoh : s.Coherent) :
    ((registerProgram p.items).run s).2.Coherent :=
  (introducing_registerMembers (W := fun _ _ => True) (A := fun _ => True) p.items
    (fun _ _ => trivial) _ rfl
    (coherent_bodied hs hcoh (List.Subset.refl _))).2

end Session

namespace Checker

variable {k : Checker} {p : Program} {c : CheckedProgram}

theorem lasting_registered (k : Checker) (p : Program) :
    Lasting (k.registered p) (k.linked p) :=
  (traversed_retains.checkDecls p.items (k.registered p)).lasting.trans
    (moves_linkComponents retains_report
      ⟨fun _ _ _ _ _ => retains_of_scopes rfl, fun _ _ _ => retains_of_scopes rfl,
        fun _ _ _ => retains_of_scopes rfl⟩ (k.checked p)).lasting

theorem walked (k : Checker) (p : Program) :
    ((walkShapes k p.items).run {}).2.Coherent ∧
      ∀ scope n, Table.find? (((walkShapes k p.items).run {}).2.scopes.bindings scope) n =
        none := by
  rw [run_walkShapes]
  exact ⟨coherent_initial _ _, find?_initial⟩

namespace Accepted

variable (h : Accepted k p c)
include h

theorem findings_registered : (k.registered p).findings = [] :=
  h.checks.findings_eq_nil (h.links.findings_eq_nil h.findings)

theorem bindingsOf?_eq {comp : Option String} {scope : ScopeId}
    (hb : (k.registered p).BodyAt scope comp) :
    c.bindingsOf? comp = some ((k.linked p).scopes.bindings scope) := by
  have hsc := h.scopeOf?_iff.mpr (h.grows.bodyAt hb)
  rw [← h.scopes]
  cases comp with
  | none =>
    cases hsc
    rfl
  | some name =>
    have hfind : Table.find? c.componentScopes name = some scope := hsc
    rw [CheckedProgram.bindingsOf?, CheckedProgram.componentBindings?, hfind, Option.map_some]

/-- An instance has the ports of its component. -/
theorem instance_conforms {comp : Option String} {ds : List Decl} {d : InstanceDecl}
    (hbody : p.Body comp ds) (hd : .inst d ∈ ds) :
    ∃ bindings kind inst inputs outputs nested nested', c.bindingsOf? comp = some bindings ∧
      Table.find? bindings d.name.text = some (.component kind (some inst) inputs outputs nested) ∧
      c.lookup? kind = some (.component kind none inputs outputs nested') := by
  have hcoh : (k.registered p).Coherent :=
    coherent_registerProgram (atTop k p).1 (walked k p).1
  obtain ⟨scope, hb, hready⟩ := h.prepared.ready hbody
  obtain ⟨-, kind, hkind⟩ := hready _ hd rfl
  obtain ⟨type, hty, hkind⟩ := Option.bind_eq_some_iff.mp hkind
  have hlast := lasting_registered k p
  cases type with
  | component kind' inst inputs outputs nested =>
    cases inst with
    | none => cases hkind
    | some inst =>
      -- the definition that the instance was made from is bound at the top level
      obtain ⟨nested', hdefinition⟩ :=
        hcoh.conforms hty _ (List.mem_singleton_self _) rfl
      obtain ⟨type₁, hty₁, -, hcore₁⟩ := hlast hty
      obtain ⟨nested₁, rfl⟩ := Ty.eq_component_of_core hcore₁
      obtain ⟨type₂, hty₂, -, hcore₂⟩ := hlast hdefinition
      obtain ⟨nested₂, rfl⟩ := Ty.eq_component_of_core hcore₂
      refine ⟨_, kind', inst, inputs, outputs, nested₁, nested₂, h.bindingsOf?_eq hb, hty₁, ?_⟩
      rw [CheckedProgram.lookup?, CheckedProgram.globals, h.scopes]
      exact hty₂
  | _ => cases hkind

end Accepted

/-- **The signature of a component.** The definition and all instances of a component have the same
inputs and outputs. The type listed for one of them is the one that it has in the body, if every
name in the written type can be used when the signature is read and no member before takes it. If
one of them cannot be used then, the listed type is `any`, and the body has another one. -/
theorem signature_of_check (h : k.check p = .ok c) {before after : List Decl}
    {decs : List Decoration} {name : Ident} {body : List Decl} {span : Span}
    (hits : p.items = before ++ .component decs name body span :: after) :
    ∃ (sig : Session.Signature) (nested : List Ty) (bindings : Table Ty),
      c.lookup? name.text = some (.component name.text none sig.inputs sig.outputs nested) ∧
      c.componentBindings? name.text = some bindings ∧
      (∀ {comp ds d}, p.Body comp ds → .inst d ∈ ds →
        ∃ bindings' kind inst inputs outputs nested', c.bindingsOf? comp = some bindings' ∧
          Table.find? bindings' d.name.text =
            some (.component kind (some inst) inputs outputs nested') ∧
          (kind = name.text → inputs = sig.inputs ∧ outputs = sig.outputs)) ∧
      ∀ {earlier d later port i e}, body = earlier ++ d :: later →
        d.port? = some (port, i, e) → ∃ listed bound,
          Table.find? (sig.ports port) i.text = some listed ∧
          Table.find? bindings i.text = some bound ∧
          ((∃ n ∈ e.names, ¬ Session.Usable p before body n) →
            listed = .any ∧ Ty.same listed bound = false) ∧
          ((∀ n ∈ e.names, Session.Usable p before body n ∧ n ∉ Decl.memberNames earlier) →
            Ty.same listed bound = true) := by
  have hc := accepted_of_check h
  obtain ⟨hsta, -⟩ := atTop k p
  obtain ⟨hcoh, hempty⟩ := walked k p
  have hnil := hc.findings_registered
  obtain ⟨σ, u, x, hsigning⟩ :=
    Session.exists_signing hsta hcoh hempty hnil hits
  have hlast := lasting_registered k p
  obtain ⟨nested, hdefinition⟩ := hsigning.definition
  obtain ⟨type, hty, -, hcore⟩ := hlast hdefinition
  obtain ⟨nested, rfl⟩ := Ty.eq_component_of_core hcore
  have hlk : c.lookup? name.text = some (.component name.text none
      ((Session.signatureOf name.text {} body).run u).1.inputs
      ((Session.signatureOf name.text {} body).run u).1.outputs nested) := by
    rw [CheckedProgram.lookup?, CheckedProgram.globals, hc.scopes]
    exact hty
  refine ⟨((Session.signatureOf name.text {} body).run u).1, nested, _, hlk,
    hc.bindingsOf?_eq hsigning.atBody, fun hbody hd => ?_, fun hbody hport => ?_⟩
  · obtain ⟨bindings', kind, inst, inputs, outputs, nested', nested'', hbs, hinst,
      hkind⟩ := hc.instance_conforms hbody hd
    refine ⟨bindings', kind, inst, inputs, outputs, nested', hbs, hinst, ?_⟩
    rintro rfl
    rw [hlk] at hkind
    obtain ⟨-, -, hinputs, houtputs, -⟩ := Ty.component.inj (Option.some.inj hkind)
    exact ⟨hinputs.symm, houtputs.symm⟩
  · obtain ⟨bound, hlst, hbd, hunusable, husable⟩ :=
      hsigning.exists_port hsta hcoh hnil hbody hport hlast
    exact ⟨_, bound, hlst, hbd, hunusable, husable⟩

/-- A component with an input of a component that stands behind it, and an instance that gives it a
number. -/
def usesLater : String :=
  "component A \x7b input B x \x7d
   component B \x7b \x7d
   component A a \x7b x = 5 \x7d"

instance : Program.Spelled usesLater := ⟨_, rfl⟩

theorem signature_of_check_usesLater : ∃ p c inputs outputs nested bindings bound,
    Program.parse usesLater = .ok p ∧ builtin.check p = .ok c ∧
    c.lookup? "A" = some (.component "A" none inputs outputs nested) ∧
    Table.find? inputs "x" = some .any ∧ c.componentBindings? "A" = some bindings ∧
    Table.find? bindings "x" = some bound ∧ Ty.same .any bound = false := by
  have hrun : ((Program.parse usesLater).toOption.any fun p =>
      (builtin.check p).toOption.any fun _ => p.items.head?.any fun d =>
        decide (d.isComponent = true ∧ d.name.text = "A") &&
          d.members.head?.any fun m => m.port?.any fun q =>
            decide (q.1 = .input ∧ q.2.1.text = "x" ∧ "B" ∈ q.2.2.names ∧
              ¬ Session.Usable p [] d.members "B")) = true := by
    decide +kernel
  obtain ⟨p, c, hprs, hc, hfacts⟩ := exists_of_run hrun
  obtain ⟨d, hd, hfacts⟩ := (Option.any_eq_true _ _).mp hfacts
  obtain ⟨hnm, hfacts⟩ := Bool.and_eq_true_iff.mp hfacts
  obtain ⟨m, hm, hfacts⟩ := (Option.any_eq_true _ _).mp hfacts
  obtain ⟨q, hq, hfacts⟩ := (Option.any_eq_true _ _).mp hfacts
  obtain ⟨hcomp, hnm⟩ := of_decide_eq_true hnm
  obtain ⟨hinput, hx, hB, hunusable⟩ := of_decide_eq_true hfacts
  have hits : p.items = [] ++ d :: p.items.tail := List.eq_cons_of_mem_head? hd
  have hbody : d.members = [] ++ m :: d.members.tail := List.eq_cons_of_mem_head? hm
  cases d with
  | component decs name body span =>
    obtain ⟨sig, nested, bindings, hlk, hbs, -, hports⟩ := signature_of_check hc hits
    obtain ⟨port, i, e⟩ := q
    obtain ⟨listed, bound, hlst, hbd, hany, -⟩ := hports hbody hq
    obtain ⟨rfl, hdiffers⟩ := hany ⟨"B", hB, hunusable⟩
    obtain rfl : port = .input := hinput
    have hnm : name.text = "A" := hnm
    have hx : i.text = "x" := hx
    rw [hnm] at hlk hbs
    rw [hx] at hlst hbd
    exact ⟨p, c, sig.inputs, sig.outputs, nested, bindings, bound, hprs, hc, hlk, hlst,
      hbs, hbd, hdiffers⟩
  | _ => cases hcomp

end Checker

end Provision
