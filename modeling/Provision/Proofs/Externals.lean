import Provision.Proofs.Reads

/-!
# What components need from outside

The body of a component may mention instances of the top level. Whoever has an instance of the
component needs them as well, and so on outward. In an accepted program components never declare
instances of each other in a cycle, and an instance of the top level stands behind everything
outside that is mentioned in the body of a component below it (`Checker.externals_precede`).
-/

namespace Provision

/-- The body of one component declares an instance of another. -/
def CheckedProgram.Instantiates (c : CheckedProgram) (p : Program) (outer inner : String) : Prop :=
  ∃ n, p.DeclaresInstance (some outer) n ∧ c.kindOf? (some outer) n = some (.component inner)

namespace Checker

variable {k : Checker} {p : Program} {c : CheckedProgram}

namespace Accepted

variable (h : Accepted k p c)
include h

theorem enteredAt {comp : Option String} {n : String} (hn : p.DeclaresInstance comp n)
    {kind : InstanceKind} (hkind : c.kindOf? comp n = some kind) :
    ∃ scope, (k.registered p).EnteredAt scope comp n kind := by
  obtain ⟨ds, hbody, d, hd, hn⟩ := hn
  obtain ⟨scope, hb, hready⟩ := h.prepared.ready hbody
  obtain ⟨kind', hkind'⟩ := (hready d hd (Decl.isMember_of_instanceName? hn)).2.kindAt hn
  rw [h.kindOf?_eq (h.grows.bodyAt hb), h.grows.scopes.kindAt_eq_some hkind'] at hkind
  cases hkind
  exact ⟨scope, h.prepared.entered hkind' hb⟩

theorem uses_of_instantiates {outer inner : String} (hi : c.Instantiates p outer inner) :
    (k.checked p).Uses outer inner := by
  obtain ⟨n, hn, hkind⟩ := hi
  obtain ⟨scope, hentered⟩ := h.enteredAt hn hkind
  exact h.checks.uses (hentered.uses inner outer rfl rfl)

theorem hasInstance_of_declares {w comp : String} (hw : p.DeclaresInstance none w)
    (hkind : c.kindOf? none w = some (.component comp)) :
    (k.checked p).HasInstance comp w := by
  obtain ⟨scope, hentered⟩ := h.enteredAt hw hkind
  exact h.checks.hasInstance (hentered.hasInstance comp rfl rfl)

end Accepted

/-- Components never declare instances of each other in a cycle. An instance of the top level
depends on everything of the top level that is mentioned in the body of a component reachable from
its own, and stands behind all of it. -/
theorem externals_precede (h : k.check p = .ok c) :
    (∀ comp, ¬ Relation.TransGen (c.Instantiates p) comp comp) ∧
    ∀ w comp, p.DeclaresInstance none w → c.kindOf? none w = some (.component comp) →
      ∀ inner, Relation.ReflTransGen (c.Instantiates p) comp inner →
        ∀ ds d, p.Body (some inner) ds → d ∈ ds →
          (∃ s, k.Arrives p (some inner) d s) ∧ ∀ s, k.Arrives p (some inner) d s →
            ∀ g, Session.Mentions k s d ScopeId.global g →
              c.Depends w g ∧ Precedes c.order g w := by
  have ha := accepted_of_check h
  have huses : c.Instantiates p ≤ (k.checked p).Uses := fun _ _ => ha.uses_of_instantiates
  constructor
  · exact fun comp hcyc => ha.acyclic comp (Relation.TransGen.mono huses _ _ hcyc)
  · intro w comp hw hkind inner hreach ds d hbody hd
    refine ⟨ha.underway.exists_arrives hbody hd, fun s hs g hg => ?_⟩
    have hedge : (k.linked p).Edge ScopeId.global w g :=
      ha.external (Relation.ReflTransGen.mono huses _ _ hreach)
        (ha.hasInstance_of_declares hw hkind) (ha.needs_of_mentions hs hbody hd hg)
    obtain ⟨hdep, -⟩ := ha.linking.edge hedge ha.linking.top
    obtain ⟨order, hord, hprec⟩ := ha.precedes_of_edge ha.linking.top hedge
    cases hord
    exact ⟨ha.depends_iff.mpr hdep, hprec⟩

/-- A component that reads a resource of the top level, and one that has an instance of it. -/
def readsBelow : String :=
  "schema S \x7b any p \x7d
   component A \x7b component B b \x7b \x7d \x7d
   component B \x7b output any o = r.p \x7d
   component A w \x7b \x7d
   resource S r \x7b p = 1 \x7d"

instance : Program.Spelled readsBelow := set_option maxRecDepth 2000 in ⟨_, rfl⟩

theorem externals_precede_readsBelow :
    ∃ p c, Program.parse readsBelow = .ok p ∧ builtin.check p = .ok c ∧ c.Depends "w" "r" ∧
      Precedes c.order "r" "w" := by
  have hrun : ((Program.parse readsBelow).toOption.any fun p =>
      (builtin.check p).toOption.any fun c => decide (
        "w" ∈ Decl.instanceNames p.items ∧ c.kindOf? none "w" = some (.component "A") ∧
        c.kindOf? (some "A") "b" = some (.component "B") ∧
        "r" ∈ Decl.instanceNames p.items ∧ c.Means (some "B") "r" none ∧
        (∃ a ∈ p.items, a.isComponent = true ∧ a.name.text = "A" ∧
          "b" ∈ Decl.instanceNames a.members) ∧
        ∃ b ∈ p.items, b.isComponent = true ∧ b.name.text = "B" ∧ ∃ d ∈ b.members,
          (d matches .output _) = true ∧
          ∃ e ∈ d.exprs, ∃ e₁ ∈ e.children, (e₁ matches .var ⟨"r", _⟩) = true)) = true := by
    decide +kernel
  obtain ⟨p, c, hprs, hc, hfacts⟩ := exists_of_run hrun
  obtain ⟨hw, hkind, hkind', hr, hmeans, ⟨a, ha, hcomp, hnm, hb⟩,
    b, hb', hcomp', hnm', d, hd, houtput, e, he, e₁, he₁, hvar⟩ := of_decide_eq_true hfacts
  have hbody : p.Body (some "A") a.members := hnm ▸ Program.body_of_isComponent ha hcomp
  have hbody' : p.Body (some "B") b.members := hnm' ▸ Program.body_of_isComponent hb' hcomp'
  have hinstantiates : c.Instantiates p "A" "B" :=
    ⟨"b", ⟨a.members, hbody, Decl.mem_instanceNames.mp hb⟩, hkind'⟩
  obtain ⟨⟨s, hs⟩, hprec⟩ := (externals_precede hc).2 "w" "A"
    ⟨p.items, .top, Decl.mem_instanceNames.mp hw⟩ hkind "B" (.single hinstantiates) _ d hbody' hd
  obtain ⟨scope, type, hres, hsc, -, hkind, -⟩ := (accepted_of_check hc).resolve_of_means hs
    hmeans ⟨p.items, .top, Decl.mem_instanceNames.mp hr⟩
  cases hsc
  refine ⟨p, c, hprs, hc, hprec s hs "r" (.read he (.inside he₁ ?_))⟩
  cases d with
  | output d =>
    split at hvar
    · exact .var hres hkind
    · cases hvar
  | _ => cases houtput

end Checker

end Provision
