import Provision.Proofs.Resources

/-!
# The inputs of an instance

The component of an instance is found twice: through the scopes when the instance is registered,
where its name may be that of an alias, and by the name in the type of the instance when its
initialisers are checked. In an accepted program both find one component of the top level, whose
definition and whose declaration speak of the same inputs. So an instance initialises inputs of its
component only, each of them once, all those without a default, and with values that suit the types
in the definition (`Checker.inputs_of_check`).
-/

namespace Provision

open Table

namespace Session

variable {k : Checker} {p : Program} {s t : Session}

/-! ### Components are declared -/

/-- No component is known that was not known before. -/
def SameComponents (s t : Session) : Prop := ∀ n, t.HasComponent n → s.HasComponent n

instance : IsPreorder Session SameComponents where
  refl _ _ h := h
  trans _ _ _ h h' n hn := h n (h' n hn)

theorem enlists_sameComponents : Enlists (fun _ => True) SameComponents where
  report _ _ _ h := h
  declare {s _} name _ _ := of_declare (P := SameComponents s) name (fun _ _ h => h) fun _ _ h => h
  mark _ _ _ h := h
  addResource _ _ _ _ _ h := h
  addInstance _ _ _ _ _ h := h
  tell name f s n h := by
    obtain ⟨j, hj⟩ := h
    obtain ⟨i, hi, -⟩ := exists_of_modifyComponent hj
    exact ⟨i, hi⟩

theorem sameComponents_registerBodies (cs : List Defined) :
    Moves SameComponents (registerBodies cs) := by
  induction cs with
  | nil => exact Moves.pure _
  | cons c cs ih =>
    refine Moves.bind (fun s => ?_) fun _ => ih
    exact enlists_sameComponents.registerMembers c.body (fun _ _ => trivial)
      (s.inside c.name.text c.scope)

theorem exists_component (hs : AtTop p s) (hempty : s.components = []) {n : String}
    (hn : ((registerProgram p.items).run s).2.HasComponent n) :
    ∃ decs name body span, .component decs name body span ∈ p.items ∧
      name.text = n := by
  have hmems : SameComponents (bodied p s (defining p s).1)
      ((registerProgram p.items).run s).2 :=
    enlists_sameComponents.registerMembers p.items (fun _ _ => trivial) _
  have hbds := sameComponents_registerBodies (defining p s).1 (defining p s).2
  refine ((definesAll_defining hs).known (hbds n (hmems n hn))).resolve_left ?_
  rintro ⟨i, hi⟩
  obtain ⟨hfr, -⟩ := types_registerTypes p.items s hs.toRegular
  rw [typed, hfr.components, hempty] at hi
  cases hi

theorem exists_input {ds : List Decl} (hds : ∀ d ∈ ds, d.isComponent = false) {comp n : String}
    (hn : (find? ((signatureOf comp {} ds).run s).1.inputs n).isSome) :
    ∃ q, .input q ∈ ds ∧ q.name.text = n := by
  by_contra hnone
  have hfind := find?_signatureOf (s := s) hds comp {} .input (n := n)
    fun d hd name e hport => ?_
  · rw [show ((signatureOf comp {} ds).run s).1.inputs =
      ((signatureOf comp {} ds).run s).1.ports .input from rfl, hfind] at hn
    cases hn
  · -- only an input is listed there
    cases d with
    | input q =>
      obtain ⟨-, rfl, -⟩ := Option.some.inj hport
      exact fun hnm => hnone ⟨q, hd, hnm⟩
    | _ => cases hport

/-! ### Registration -/

/-- Without findings the component name of an instance means a definition, whose inputs and outputs
the instance gets. -/
theorem run_registerInstance {d : InstanceDecl}
    (hnil : ((registerInstance d).run s).2.findings = []) :
    ∃ scope kind inputs outputs nested,
      s.scopes.resolve d.component.text =
        .ok (scope, .component kind none inputs outputs nested) ∧
      ((registerInstance d).run s).2.scopes = s.scopes.set d.name.text
        (.component kind (some d.name.text) inputs outputs nested) := by
  have hfnd : ∀ f : Diagnostic, s.findings ++ [f] ≠ [] := fun f =>
    List.concat_ne_nil _ _
  unfold registerInstance at hnil ⊢
  rw [run_get_bind] at hnil ⊢
  split at hnil
  · next kind inputs outputs nested hlk =>
    obtain ⟨scope, hres⟩ := Scopes.exists_of_lookup hlk
    refine ⟨scope, kind, inputs, outputs, nested, hres, ?_⟩
    rw [run_bind] at hnil ⊢
    rcases run_declare s d.name (.component kind (some d.name.text) inputs outputs nested) with
      ⟨-, hrun⟩ | ⟨f, hrun⟩
    · rw [hrun, if_pos rfl, run_bind, run_get_bind]
      -- the component around it is told, or the one that it is an instance of
      split <;> rfl
    · rw [hrun] at hnil
      exact absurd hnil (hfnd _)
  · exact absurd hnil (hfnd _)
  · exact absurd hnil (hfnd _)

/-! ### The check -/

/-- Without findings the initialisers of an instance have different names, all of them those of its
inputs, with values that suit these, and the required inputs of its component are among them. -/
theorem checkInstance_spec {d : InstanceDecl} {kind : String} {inst : Option String}
    {inputs outputs : Table Ty} {nested : List Ty} (hx : IsReader p s (s.qualified d.name.text))
    (hty : s.boundType d.name = .component kind inst inputs outputs nested)
    (hnil : ((checkInstance k d).run s).2.findings = []) :
    (d.body.map (·.name.text)).Nodup ∧
      (∀ i ∈ d.body, ∃ type, find? inputs i.name.text = some type ∧ Suits k s i.value type) ∧
      ∀ info, find? s.components kind = some info → ∀ q, .input q ∈ info.body →
        q.default = none → q.name.text ∈ d.body.map (·.name.text) := by
  unfold checkInstance at hnil
  rw [run_get_bind] at hnil
  rw [hty, run_bind] at hnil
  rw [run_get_bind] at hnil
  obtain ⟨hnd, hflds, hreq⟩ := checkInits_spec hnil
  refine ⟨hnd, fun i hi => ?_, fun info hinfo q hq hdefault => hreq _ ?_⟩
  · obtain ⟨type, hfind, hsuits⟩ := hflds i hi
    exact ⟨type, hfind, hsuits.shallower (steady_checkInstanceDecorators s).shallower⟩
  · -- decorators leave a component its body
    have hdecs : Advances p s ((checkInstanceDecorators k d.decorations .component d.name.text
        (.component kind inst inputs outputs nested)).run s).2 :=
      advances_checkInstanceDecorators hx
    obtain ⟨info', hinfo', hsame, -⟩ := hdecs.component_find? hinfo
    rw [hinfo', Option.map_some, Option.getD_some, hsame]
    exact List.mem_filterMap.mpr ⟨_, hq, by simp only [hdefault, Option.isNone_none, if_true]⟩

end Session

open Session

namespace Checker

variable {k : Checker} {p : Program} {c : CheckedProgram}

/-! ### Accepted programs -/

section Inst

variable {comp : Option String} {earlier later : List Decl} {d : InstanceDecl}
  (h : Accepted k p c) (hbody : p.Body comp (earlier ++ .inst d :: later))
include h hbody

/-- An instance is registered with the inputs and the outputs that its component name has, in its
own body or at the top level. -/
theorem Accepted.exists_inst : ∃ σ kind inputs outputs nested,
    (k.registered p).BodyAt σ comp ∧
    find? ((k.registered p).scopes.bindings σ) d.name.text =
      some (.component kind (some d.name.text) inputs outputs nested) ∧
    ∃ home scope nested', (home = comp ∨ home = none) ∧
      (k.registered p).BodyAt scope home ∧
      find? ((k.registered p).scopes.bindings scope) d.component.text =
        some (.component kind none inputs outputs nested') := by
  obtain ⟨hsta, -⟩ := atTop k p
  obtain ⟨hcoh, hempty⟩ := walked k p
  have hnil := h.findings_registered
  obtain ⟨u, hcomes, -⟩ := exists_comes_visible hsta hcoh hempty hnil hbody
  have hcoming := hcomes.spec hsta hcoh hnil
  have hfs := hcoming.findings
  obtain ⟨registered, heq⟩ := enlist_eq u (.inst d)
  rw [heq] at hfs
  obtain ⟨scope, kind, inputs, outputs, nested, hres, hscs⟩ := run_registerInstance hfs
  -- the instance stays bound
  have hbd : find? ((u.enlist (.inst d)).scopes.bindings u.scopes.current) d.name.text =
      some (.component kind (some d.name.text) inputs outputs nested) := by
    rw [heq]
    show find? (((registerInstance d).run u).2.scopes.bindings _) _ = _
    rw [hscs]
    exact Scopes.find?_bindings_set.trans (if_pos ⟨rfl, hcoming.current_lt, rfl⟩)
  obtain ⟨type, hty, -, hcore⟩ := hcoming.lasting hbd
  obtain ⟨nested₁, rfl⟩ := Ty.eq_component_of_core hcore
  -- so does what its component name means
  obtain ⟨hmem, hfound⟩ := Scopes.mem_chain_of_resolve hres
  have hrtn : Retains u (u.enlist (.inst d)) := retains_registerMembers [.inst d] u
  obtain ⟨type, hty', -, hcore'⟩ := (hrtn.lasting.trans hcoming.lasting) hfound
  obtain ⟨nested₂, rfl⟩ := Ty.eq_component_of_core hcore'
  refine ⟨u.scopes.current, kind, inputs, outputs, nested₁, hcoming.current ▸ hcoming.atBody,
    hty, ?_⟩
  rw [hcoming.current, hcoming.chain hcoming.bodyAt] at hmem
  rcases List.mem_cons.mp hmem with rfl | hmem
  · exact ⟨comp, _, nested₂, Or.inl rfl, hcoming.atBody, hty'⟩
  · split at hmem
    · exact (List.not_mem_nil hmem).elim
    · obtain rfl := List.mem_singleton.mp hmem
      exact ⟨none, _, nested₂, Or.inr rfl, bodyAt_global hsta, hty'⟩

/-- Its initialisers are checked against these inputs, and against those that its component
requires, in the session in which the check comes to it. -/
theorem Accepted.inst_checked {σ : ScopeId} {kind : String} {inputs outputs : Table Ty}
    {nested : List Ty} (hσ : (k.registered p).BodyAt σ comp)
    (hinst : find? ((k.registered p).scopes.bindings σ) d.name.text =
      some (.component kind (some d.name.text) inputs outputs nested)) :
    ∃ s, k.Arrives p comp (.inst d) s ∧ (d.body.map (·.name.text)).Nodup ∧
      (∀ i ∈ d.body, ∃ type, find? inputs i.name.text = some type ∧ Suits k s i.value type) ∧
      ∀ {decs name body span q}, .component decs name body span ∈ p.items →
        name.text = kind → .input q ∈ body → q.default = none →
          q.name.text ∈ d.body.map (·.name.text) := by
  obtain ⟨s, harrives⟩ := h.underway.exists_arrives (k := k) hbody
    (List.mem_append_right earlier List.mem_cons_self)
  have harr := h.underway.arrived harrives
  obtain ⟨nested', hty⟩ := Ty.eq_component_of_core (h.core_boundType harrives hσ hinst)
  have hnil := harr.lasts.findings (h.links.findings_eq_nil h.findings)
  rw [checkDecl, run_ifRegistered d.name (harr.awaits.ready rfl).1] at hnil
  obtain ⟨hnd, hflds, hreq⟩ := checkInstance_spec
    (harr.awaits.isReader harr.toWorking rfl) hty hnil
  refine ⟨s, harrives, hnd, hflds, fun {decs name body span q} hmem hnm hq => ?_⟩
  obtain ⟨i, hi, rfl⟩ := h.prepared.body hmem
  obtain ⟨info, hinfo, hsame⟩ := harr.component_find? hi
  exact hreq info (hnm ▸ hinfo) q (hsame ▸ hq)

end Inst

/-- **The inputs of an instance.** In an accepted program an instance of a component, at the top
level or in a body, is bound to a type that names a component `name` declared at the top level: what
the component name of the instance is bound to, in its own body or at the top level, directly or
through an alias, is a definition of `name`. The instance has the inputs that the definition of
`name` has. Each initialiser is for one of them, which the body of `name` declares, and in the
session in which the check comes to the instance the type found for its value is assignable to the
type of the input. No two initialisers have one name, and there is one for every input without a
default. -/
theorem inputs_of_check (h : k.check p = .ok c) {comp : Option String}
    {earlier later : List Decl} {d : InstanceDecl}
    (hbody : p.Body comp (earlier ++ .inst d :: later)) :
    ∃ decs name body span inputs outputs nested,
      .component decs name body span ∈ p.items ∧
      c.lookup? name.text = some (.component name.text none inputs outputs nested) ∧
      (∃ bindings nested', c.bindingsOf? comp = some bindings ∧
        Table.find? bindings d.name.text =
          some (.component name.text (some d.name.text) inputs outputs nested')) ∧
      (∃ home bindings nested', (home = comp ∨ home = none) ∧
        c.bindingsOf? home = some bindings ∧ Table.find? bindings d.component.text =
          some (.component name.text none inputs outputs nested')) ∧
      (∃ s, k.Arrives p comp (.inst d) s ∧ ∀ i ∈ d.body,
        (∃ q, .input q ∈ body ∧ q.name.text = i.name.text) ∧
        ∃ type found, Table.find? inputs i.name.text = some type ∧
          ((infer k i.value (some type)).run.run s).1 = .ok found ∧
          found.assignable type = true) ∧
      (d.body.map (·.name.text)).Nodup ∧
      ∀ q, .input q ∈ body → q.default = none → q.name.text ∈ d.body.map (·.name.text) := by
  have hc := accepted_of_check h
  obtain ⟨hsta, -⟩ := atTop k p
  obtain ⟨hcoh, hempty⟩ := walked k p
  have hlast := lasting_registered k p
  obtain ⟨σ, kind, inputs, outputs, nested, hσ, hinst, home, scope, nested', hhome, hsc,
    hmeans⟩ := hc.exists_inst hbody
  obtain ⟨s, harr, hnd, hflds, hreq⟩ := hc.inst_checked hbody hσ hinst
  obtain ⟨decs, name, body, span, hmem, rfl⟩ :
      ∃ decs name body span, .component decs name body span ∈ p.items ∧
        name.text = kind :=
    exists_component hsta (by rw [run_walkShapes]) (hc.prepared.definitions hmeans rfl)
  obtain ⟨before, after, hits⟩ := List.append_of_mem hmem
  obtain ⟨_, u, _, hsigning⟩ :=
    exists_signing hsta hcoh hempty hc.findings_registered hits
  -- the signature of the component is what the definition lists
  obtain ⟨nested₀, hdefinition⟩ := hsigning.definition
  obtain ⟨nested₁, hconforms⟩ : ∃ nested₁, Table.find? ((k.registered p).scopes.bindings
      ScopeId.global) name.text = some (.component name.text none inputs outputs nested₁) :=
    (coherent_registerProgram hsta hcoh).conforms hinst _
      (List.mem_singleton_self _) rfl
  obtain ⟨-, -, hinputs, -, -⟩ :=
    Ty.component.inj (Option.some.inj (hdefinition.symm.trans hconforms))
  obtain ⟨type, hty, -, hcore⟩ := hlast hconforms
  obtain ⟨nested₂, rfl⟩ := Ty.eq_component_of_core hcore
  obtain ⟨type, hty', -, hcore'⟩ := hlast hinst
  obtain ⟨nested₃, rfl⟩ := Ty.eq_component_of_core hcore'
  obtain ⟨type, hty'', -, hcore''⟩ := hlast hmeans
  obtain ⟨nested₄, rfl⟩ := Ty.eq_component_of_core hcore''
  refine ⟨decs, name, body, span, inputs, outputs, nested₂, hmem, ?_,
    ⟨_, nested₃, hc.bindingsOf?_eq hσ, hty'⟩,
    ⟨home, _, nested₄, hhome, hc.bindingsOf?_eq hsc, hty''⟩,
    ⟨s, harr, fun i hi => ?_⟩, hnd, fun q => hreq hmem rfl⟩
  · rw [CheckedProgram.lookup?, CheckedProgram.globals, hc.scopes]
    exact hty
  · obtain ⟨type, hfind, found, hfound, hasg⟩ := hflds i hi
    refine ⟨?_, type, found, hfind, hfound, hasg⟩
    exact exists_input hsigning.flat (hinputs ▸ Option.isSome_iff_exists.mpr ⟨type, hfind⟩)

/-- An instance whose component is named by an alias of a body. -/
def instanceThroughAlias : String :=
  "component A \x7b input number x input number y = 1 \x7d
   component B \x7b type K = A component K a \x7b x = 5 \x7d \x7d"

instance : Program.Spelled instanceThroughAlias := ⟨_, rfl⟩

/-- The component name of an instance, and the names that it initialises. -/
def initialised? : Decl → Option (String × List String)
  | .inst d => some (d.component.text, d.body.map (·.name.text))
  | _ => none

theorem inputs_of_check_throughAlias : ∃ p c d inputs outputs nested s,
    Program.parse instanceThroughAlias = .ok p ∧ builtin.check p = .ok c ∧
    c.lookup? "A" = some (.component "A" none inputs outputs nested) ∧
    builtin.Arrives p (some "B") (.inst d) s ∧ initialised? (.inst d) = some ("K", ["x"]) ∧
    ∀ i ∈ d.body, ∃ type found, Table.find? inputs i.name.text = some type ∧
      ((infer builtin i.value (some type)).run.run s).1 = .ok found ∧
      found.assignable type = true := by
  have hrun : ((Program.parse instanceThroughAlias).toOption.any fun p =>
      (builtin.check p).toOption.any fun c => p.items.getLast?.any fun b =>
        b.members.getLast?.any fun d => decide (b.isComponent = true ∧ b.name.text = "B" ∧
          d.name.text = "a" ∧ initialised? d = some ("K", ["x"]) ∧
          (((c.componentBindings? "B").bind fun bindings => Table.find? bindings "a").bind
            Ty.kind?) = some (.component "A"))) = true := by
    decide +kernel
  obtain ⟨p, c, hprs, hc, hfacts⟩ := exists_of_run hrun
  obtain ⟨b, hb, hfacts⟩ := (Option.any_eq_true _ _).mp hfacts
  obtain ⟨d, hd, hfacts⟩ := (Option.any_eq_true _ _).mp hfacts
  obtain ⟨hcomp, hbname, hdname, hinitialised, hkind⟩ := of_decide_eq_true hfacts
  have hmems : b.members.dropLast ++ [d] = b.members := List.dropLast_append_getLast? d hd
  cases d with
  | inst d =>
    cases b with
    | component decs name body span =>
      have hB : p.Body (some "B") (body.dropLast ++ [.inst d]) := by
        have hmem : .component decs name body span ∈ p.items := List.mem_of_getLast? hb
        have hnm : name.text = "B" := hbname
        have hbody : body.dropLast ++ [.inst d] = body := hmems
        rw [hbody, ← hnm]
        exact .component hmem
      obtain ⟨_, name', _, _, inputs, outputs, nested, -, hlk, ⟨bindings, nested', hbs,
        hbd⟩, -, ⟨s, harr, hinits⟩, -, -⟩ := inputs_of_check hc hB
      -- the instance is one of `A`
      have hdname : d.name.text = "a" := hdname
      have hbs : c.componentBindings? "B" = some bindings := hbs
      rw [hbs, Option.bind_some, ← hdname, hbd] at hkind
      have hnm' : name'.text = "A" := InstanceKind.component.inj (Option.some.inj hkind)
      exact ⟨p, c, d, inputs, outputs, nested, s, hprs, hc, hnm' ▸ hlk, harr,
        hinitialised, fun i hi => (hinits i hi).2⟩
    | _ => cases hcomp
  | _ => cases hinitialised

end Checker

end Provision
