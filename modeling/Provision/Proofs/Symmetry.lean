import Provision.Proofs.Checker
import Provision.Proofs.Session.Blind
import Provision.Proofs.Session.Closing
import Provision.Proofs.Session.Enrolment

/-!
# The order of instances does not show

A program that ends with instances is checked in the same way whatever order they stand in
(`Checker.check_perm`). Stage by stage the sessions of two such programs are twins: the same
decorations are out of shape, the same names are registered (`Checker.twin_registered`), the checks
of declarations leave the same notes (`Checker.twin_checked`), and so the same cycles are found and
the same dependencies are known (`Checker.twin_visit`).
-/

namespace Provision

open List Session

namespace Session

variable {k : Checker} {s t : Session} {ds rs rs' : List Decl}

/-! ### Shapes -/

/-- Findings and stopped lists may come in another order. -/
theorem Twin.shifted (h : Twin s t) {findings findings' : List Diagnostic}
    {halted halted' : List Span} (hfs : findings.Perm findings')
    (hhlt : halted.Perm halted') (deferred deferred' : List DeferredCheck) :
    Twin (s.shifted findings halted deferred) (t.shifted findings' halted' deferred') := by
  refine ⟨{ h.toMirrors with halted := fun x => hhlt.symm.mem_iff }, ?_⟩
  ext n
  cases n with
  | finding =>
    show findings' ++ t.findings ≠ [] ↔ findings ++ s.findings ≠ []
    have hfnd : t.findings ≠ [] ↔ s.findings ≠ [] := h.has_iff .finding
    have hnil : findings' = [] ↔ findings = [] :=
      ⟨fun h => (h ▸ hfs).eq_nil, fun h => (h ▸ hfs).symm.eq_nil⟩
    rw [ne_eq, append_eq_nil_iff, ne_eq, append_eq_nil_iff, not_and_or, not_and_or, hnil]
    exact or_congr_right hfnd
  | cycle =>
    have hcyc : (∃ d ∈ t.findings, d.isCycle) ↔ ∃ d ∈ s.findings, d.isCycle := h.has_iff .cycle
    show (∃ d ∈ findings' ++ t.findings, d.isCycle) ↔ ∃ d ∈ findings ++ s.findings, d.isCycle
    simp only [mem_append, or_and_right, exists_or, hcyc, hfs.mem_iff]
  | edge scope x y => exact h.has_iff (.edge scope x y)
  | dependency x y => exact h.has_iff (.dependency x y)
  | external c x => exact h.has_iff (.external c x)
  | member c x => exact h.has_iff (.member c x)

/-! ### Registration -/

section Append

variable (hrs : ∀ r ∈ rs, r.instanceName?.isSome)
include hrs

theorem filter_append_of_instances : (ds ++ rs).filter (!·.instanceName?.isSome) =
    ds.filter (!·.instanceName?.isSome) := by
  have hnone : rs.filter (!·.instanceName?.isSome) = [] :=
    filter_eq_nil_iff.mpr fun r hr => by simp [hrs r hr]
  rw [filter_append, hnone, append_nil]

theorem registerTypes_append : registerTypes (ds ++ rs) = registerTypes ds :=
  registerTypes_congr (filter_append_of_instances hrs) (fun _ => rfl) fun _ => rfl

theorem defineComponents_append : defineComponents (ds ++ rs) = defineComponents ds := by
  refine eq_of_filter (filter_append_of_instances hrs) (fun d l l' hl => ?_) fun d hd l => ?_
  · cases d <;> simp only [defineComponents, hl]
  · cases d with
    | component => cases hd
    | _ => rfl

theorem run_registerProgram_append (s : Session) : ((registerProgram (ds ++ rs)).run s).2 =
    ((registerMembers rs).run ((registerProgram ds).run s).2).2 := by
  unfold registerProgram
  rw [registerTypes_append hrs, defineComponents_append hrs]
  simp only [run_bind, run_registerMembers, foldl_append]

theorem atTop_of_instances (ds : List Decl) (span : Span) :
    AtTop ⟨ds ++ rs, span⟩ ((registerProgram ds).run {}).2 := by
  -- the program has all instances, but only those before the last ones are registered here
  obtain ⟨-, hs⟩ := (atTop_initial ⟨ds ++ rs, span⟩ [] []).registerTypes (ds ++ rs)
  have hcomps := registers_components hs
  have htop := hs.grows hcomps.grows hcomps.registering
  have hmems := htop.registerMembers (subset_append_left ds rs)
  have hlast := htop.grows hmems.grows hmems.registering
  rw [registerTypes_append hrs] at hlast
  simp only [defineComponents_append hrs] at hlast
  exact hlast

end Append

theorem twin_registerProgram (hrs : ∀ r ∈ rs, r.instanceName?.isSome)
    (hnd : (rs.map (·.name.text)).Nodup) (h : rs.Perm rs') :
    Twin ((registerProgram (ds ++ rs)).run {}).2 ((registerProgram (ds ++ rs')).run {}).2 := by
  have hrs' : ∀ r ∈ rs', r.instanceName?.isSome := fun r hr => hrs r (h.mem_iff.mpr hr)
  have htop := atTop_of_instances hrs ds default
  rw [run_registerProgram_append hrs, run_registerProgram_append hrs']
  refine Enrolling.toTwin (Enrolling.registerMembers_perm h (fun r hr => ⟨?_, hrs r hr⟩) hnd
    (.refl htop))
  exact mem_append_right ds hr

end Session

namespace Checker

variable {k : Checker} {p : Program} {ds rs rs' : List Decl} {span span' : Span}

/-! ### Stage by stage -/

section Stages

variable (k ds span span') (hrs : ∀ r ∈ rs, r.instanceName?.isSome)
  (hnd : (rs.map (·.name.text)).Nodup) (h : rs.Perm rs')
include hrs hnd h

theorem twin_registered :
    Twin (k.registered ⟨ds ++ rs, span⟩) (k.registered ⟨ds ++ rs', span'⟩) := by
  have hls : (Decl.listsAll (ds ++ rs)).Perm (Decl.listsAll (ds ++ rs')) := by
    rw [Decl.listsAll_eq_flatMap, Decl.listsAll_eq_flatMap]
    exact (h.append_left ds).flatMap_right _
  have hhlt := hls.filterMap (haltedAt? k)
  -- registration does not see what was found before it
  rw [registered, registered, shifted_walkShapes, shifted_walkShapes, blind_registerProgram,
    blind_registerProgram]
  exact (twin_registerProgram hrs hnd h).shifted (hls.filterMap _)
    ((reverse_perm _).trans (hhlt.trans (reverse_perm _).symm)) [] []

variable (hk : k.registry.Extensional)
include hk

theorem twin_checked :
    Twin (k.checked ⟨ds ++ rs, span⟩) (k.checked ⟨ds ++ rs', span'⟩) := by
  have hreg := twin_registered k ds span span' hrs hnd h
  rw [checked, checked, run_checkDecls_append, run_checkDecls_append]
  exact (hreg.couples (couples_checkDecls hk ds)).checkDecls_perm hk h hrs

theorem twin_visit :
    Twin ((k.visit ⟨ds ++ rs, span⟩).run {}).2 ((k.visit ⟨ds ++ rs', span'⟩).run {}).2 :=
  (twin_checked k ds span span' hrs hnd h hk).orderProgram

end Stages

/-! ### Outcomes -/

def Accepts (k : Checker) (p : Program) : Prop := ∃ c, k.check p = .ok c

/-- The check refuses a program, and a cycle is among the reasons. -/
def ReportsCycle (k : Checker) (p : Program) : Prop :=
  ∃ findings, k.check p = .error findings ∧ ∃ d ∈ findings, d.isCycle

theorem check_of_not_validateDefaults (hk : k.validateDefaults = false) (p : Program) :
    k.check p = if ((k.visit p).run {}).2.findings.isEmpty then
      .ok (conclude ((k.visit p).run {}).2 ((k.visit p).run {}).1)
    else .error ((k.visit p).run {}).2.findings := by
  unfold check
  rw [hk]
  rfl

theorem accepts_iff (hk : k.validateDefaults = false) :
    k.Accepts p ↔ ¬ ((k.visit p).run {}).2.Has .finding := by
  rw [Accepts, check_of_not_validateDefaults hk]
  show _ ↔ ¬ ((k.visit p).run {}).2.findings ≠ []
  cases ((k.visit p).run {}).2.findings <;> simp

theorem reportsCycle_iff (hk : k.validateDefaults = false) :
    k.ReportsCycle p ↔ ((k.visit p).run {}).2.Has .cycle := by
  rw [ReportsCycle, check_of_not_validateDefaults hk]
  show _ ↔ ∃ d ∈ ((k.visit p).run {}).2.findings, d.isCycle
  cases ((k.visit p).run {}).2.findings <;> simp

theorem dependencies?_of_check {c : CheckedProgram} (h : k.check p = .ok c) (x : String) :
    c.dependencies? x = ((k.visit p).run {}).2.dependencies? x := by
  obtain ⟨-, rfl⟩ := conclude_of_check h
  rfl

/-- In a program that ends with instances with names of their own, the order of these instances does
not matter: it is accepted or refused, and reported to have a cycle or not, whatever the order; and
if it is accepted, then each instance depends on the same names. This holds for all decorators that
do not look at the order of the resources in a schema, such as the built-in ones. -/
theorem check_perm : (∀ engine, (Registry.builtin engine).Extensional) ∧
    ∀ (k : Checker) (ds : List Decl) {rs rs' : List Decl} (span span' : Span),
      k.validateDefaults = false → k.registry.Extensional →
      (∀ r ∈ rs, r.instanceName?.isSome) → (rs.map (·.name.text)).Nodup → rs.Perm rs' →
      (k.Accepts ⟨ds ++ rs, span⟩ ↔ k.Accepts ⟨ds ++ rs', span'⟩) ∧
      (k.ReportsCycle ⟨ds ++ rs, span⟩ ↔ k.ReportsCycle ⟨ds ++ rs', span'⟩) ∧
      ∀ c c', k.check ⟨ds ++ rs, span⟩ = .ok c → k.check ⟨ds ++ rs', span'⟩ = .ok c' →
        ∀ x, (c.dependencies? x).isSome = (c'.dependencies? x).isSome ∧
          ∀ y, c.Depends x y ↔ c'.Depends x y := by
  refine ⟨Registry.extensional_builtin, ?_⟩
  intro k ds rs rs' span span' hk hregistry hrs hnd h
  have htwin := twin_visit k ds span span' hrs hnd h hregistry
  refine ⟨?_, ?_, fun c c' hc hc' x => ⟨?_, fun y => ?_⟩⟩
  · rw [accepts_iff hk, accepts_iff hk, htwin.has_iff]
  · rw [reportsCycle_iff hk, reportsCycle_iff hk, htwin.has_iff]
  · rw [dependencies?_of_check hc, dependencies?_of_check hc', htwin.instances]
  · rw [CheckedProgram.Depends, CheckedProgram.Depends, dependencies?_of_check hc,
      dependencies?_of_check hc']
    exact (htwin.has_iff (.dependency x y)).symm

/-- The built-in checker, which does not look at values here. -/
def lenient : Checker := { builtin with validateDefaults := false }

/-- Instances each of which depends on the next one, the last by way of a component. -/
def readsForward : String :=
  "schema S \x7b any p \x7d
   component C \x7b output any o = g.p \x7d
   resource S a \x7b p = b.p \x7d
   resource S b \x7b p = c.o \x7d
   component C c \x7b \x7d
   resource S g \x7b p = 1 \x7d"

instance : Program.Spelled readsForward := set_option maxRecDepth 2000 in ⟨_, rfl⟩

def readsAround : String :=
  "schema S \x7b any p \x7d
   resource S a \x7b p = b.p \x7d
   resource S b \x7b p = a.p \x7d"

instance : Program.Spelled readsAround := ⟨_, rfl⟩

theorem check_perm_readsForward :
    (∃ p c, Program.parse readsForward = .ok p ∧
      lenient.check ⟨p.items.take 2 ++ (p.items.drop 2).reverse, p.span⟩ = .ok c ∧
      c.Depends "a" "b" ∧ c.Depends "b" "c" ∧ c.Depends "c" "g") ∧
    ∃ p, Program.parse readsAround = .ok p ∧
      lenient.ReportsCycle ⟨p.items.take 1 ++ (p.items.drop 1).reverse, p.span⟩ := by
  constructor
  · have hrun : ((Program.parse readsForward).toOption.any fun p =>
        (lenient.check p).toOption.any fun c => decide (
          (∀ r ∈ p.items.drop 2, r.instanceName?.isSome) ∧
          ((p.items.drop 2).map (·.name.text)).Nodup ∧ c.dependencies? "a" = some ["b"] ∧
          c.dependencies? "b" = some ["c"] ∧ c.dependencies? "c" = some ["g"])) = true := by
      decide +kernel
    obtain ⟨p, c, hprs, hc, hfacts⟩ := exists_of_run hrun
    obtain ⟨hinsts, hnd, hdepsA, hdepsB, hdepsC⟩ := of_decide_eq_true hfacts
    obtain ⟨haccepts, -, hdep⟩ := check_perm.2 lenient (p.items.take 2) p.span p.span rfl
      (Registry.extensional_builtin _) hinsts hnd (List.reverse_perm (p.items.drop 2)).symm
    rw [List.take_append_drop] at haccepts hdep
    obtain ⟨c', hc'⟩ := haccepts.mp ⟨c, hc⟩
    have hsame : ∀ x y, c.Depends x y → c'.Depends x y := fun x y =>
      ((hdep c c' hc hc' x).2 y).mp
    exact ⟨p, c', hprs, hc', hsame _ _ ⟨_, hdepsA, List.mem_singleton_self _⟩,
      hsame _ _ ⟨_, hdepsB, List.mem_singleton_self _⟩,
      hsame _ _ ⟨_, hdepsC, List.mem_singleton_self _⟩⟩
  · have hrun : ((Program.parse readsAround).toOption.any fun p => decide (
        (∀ r ∈ p.items.drop 1, r.instanceName?.isSome) ∧
        ((p.items.drop 1).map (·.name.text)).Nodup ∧
        ((lenient.visit p).run {}).2.findings.any (·.isCycle) = true)) = true := by
      decide +kernel
    obtain ⟨p, hprs, hfacts⟩ := exists_of_parse hrun
    obtain ⟨hinsts, hnd, hcyc⟩ := of_decide_eq_true hfacts
    obtain ⟨-, hreports, -⟩ := check_perm.2 lenient (p.items.take 1) p.span p.span rfl
      (Registry.extensional_builtin _) hinsts hnd (List.reverse_perm (p.items.drop 1)).symm
    rw [List.take_append_drop] at hreports
    exact ⟨p, hprs, hreports.mp ((reportsCycle_iff rfl).mpr (List.any_eq_true.mp hcyc))⟩

end Checker

end Provision
