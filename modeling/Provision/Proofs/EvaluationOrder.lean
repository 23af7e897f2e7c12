import Provision.Proofs.Spans.Program

/-!
# Orders of evaluation

In an accepted program every instance of the top level stands behind all that it depends on, and
every instance in the body of a component behind all of that body that it depends on
(`Checker.dependencies_precede`). What else an order lists are variables without a written type that
an instance depends on: they may be bound to an instance, and are then taken for one
(`Checker.Accepted.mem_order_iff`). So orders and dependencies are about instances alone exactly if
no instance depends on such a variable (`Checker.listsInstances_iff`).
-/

namespace Provision

/-- Orders and dependencies are about instances alone: each order is one of the instances of its
body, and every name that an instance depends on is that of an instance. -/
structure CheckedProgram.ListsInstances (c : CheckedProgram) (p : Program) : Prop where
  order : c.order.Nodup ∧ c.order.Perm (Decl.instanceNames p.items)
  componentOrder : ∀ {decs name body span},
    .component decs name body span ∈ p.items →
      ∃ order, c.componentOrder? name.text = some order ∧ order.Nodup ∧
        order.Perm ((Decl.instanceNames body).map (qualifiedName (some name.text)))
  dependencies : ∀ {x y}, c.Depends x y → (c.instance? y).isSome ∧
    ∃ component n, y = qualifiedName component n ∧ p.DeclaresInstance component n

namespace Checker

variable {k : Checker} {p : Program} {c : CheckedProgram}

/-! ### What stands before an instance -/

namespace Accepted

variable (h : Accepted k p c) {component : Option String} {n y : String}
include h

theorem declares_of_kindAt {scope : ScopeId} (hb : (k.linked p).BodyAt scope component)
    (hn : ((k.linked p).scopes.kindAt scope n).isSome) :
    p.DeclaresInstance component n ∨ p.DeclaresVariable component n := by
  obtain ⟨comp', hb', hdecl⟩ := h.linking.kinds hn
  rwa [hb'.component_eq hb] at hdecl

/-- A dependency is an edge of the graph of the body, or leads from the body of a component to the
top level. -/
theorem depends_cases (hp : p.DotFree) (hn : p.DeclaresInstance component n)
    (hd : c.Depends (qualifiedName component n) y) :
    (∃ scope, (k.linked p).BodyAt scope component ∧
      (k.linked p).Edge scope (qualifiedName component n) y) ∨
      component ≠ none ∧ ∃ m, y = qualifiedName none m ∧ p.Declares none m := by
  obtain ⟨scope, comp', n', hb, hx, hn', hlink⟩ := h.linking.depends (h.depends_iff.mp hd)
  -- names without points say which declaration they belong to
  obtain ⟨rfl, rfl⟩ := p.qualifiedName_inj hp hn.declares hn'.declares hx
  rcases hlink with hedge | ⟨hne, m, hm, hkind⟩
  · exact Or.inl ⟨scope, hb, hedge⟩
  · have hdecl := h.declares_of_kindAt h.linking.top hkind
    exact Or.inr ⟨hne, m, hm, hdecl.elim (·.declares) (·.declares)⟩

theorem precedes_or_outside (hp : p.DotFree) (hn : p.DeclaresInstance component n)
    (hd : c.Depends (qualifiedName component n) y) :
    (∃ order, c.orderOf? component = some order ∧
      Precedes order y (qualifiedName component n)) ∨
      component ≠ none ∧ ∃ m, y = qualifiedName none m ∧ p.Declares none m := by
  refine (h.depends_cases hp hn hd).imp_left ?_
  rintro ⟨scope, hb, hedge⟩
  exact h.precedes_of_edge hb hedge

end Accepted

/-- Every instance of the top level stands behind all that it depends on. In the body of a component
every instance stands behind all of that body that it depends on. -/
theorem dependencies_precede (hp : p.DotFree) (h : k.check p = .ok c) :
    (∀ x ∈ Decl.instanceNames p.items, ∃ ds, c.dependencies? x = some ds ∧
      ∀ d ∈ ds, Precedes c.order d x) ∧
    ∀ decs name body span, .component decs name body span ∈ p.items →
      ∃ order, c.componentOrder? name.text = some order ∧
        ∀ y ∈ Decl.instanceNames body,
          ∃ ds, c.dependencies? (qualifiedName (some name.text) y) = some ds ∧
            ∀ e ∈ body, qualifiedName (some name.text) e.name.text ∈ ds →
              Precedes order (qualifiedName (some name.text) e.name.text)
                (qualifiedName (some name.text) y) := by
  have ha := accepted_of_check h
  constructor
  · intro x hx
    have hn : p.DeclaresInstance none x := ⟨p.items, .top, Decl.mem_instanceNames.mp hx⟩
    obtain ⟨ds, hds⟩ := (ha.entered hn).1
    refine ⟨ds, hds, fun d hd => ?_⟩
    rcases ha.precedes_or_outside hp hn ⟨ds, hds, hd⟩ with ⟨order, hord, hprec⟩ | ⟨hne, -⟩
    · cases hord
      exact hprec
    · exact absurd rfl hne
  · intro decs name body span hc
    obtain ⟨-, -, -, -, order, -, hord⟩ := ha.exists_body (.component hc)
    refine ⟨order, hord, fun y hy => ?_⟩
    have hn : p.DeclaresInstance (some name.text) y :=
      ⟨body, .component hc, Decl.mem_instanceNames.mp hy⟩
    obtain ⟨ds, hds⟩ := (ha.entered hn).1
    refine ⟨ds, hds, fun e he hd => ?_⟩
    rcases ha.precedes_or_outside hp hn ⟨ds, hds, hd⟩ with
      ⟨order', hord', hprec⟩ | ⟨-, m, hm, hdecl⟩
    · obtain rfl := Option.some.inj (hord.symm.trans hord')
      exact hprec
    · -- what the body declares is nothing of the top level
      have hins : p.Declares (some name.text) e.name.text := ⟨body, .component hc, e, he, rfl⟩
      obtain ⟨hnone, -⟩ := p.qualifiedName_inj hp hins hdecl hm
      cases hnone

/-- Instances that are declared before what they depend on. -/
def backwards : String :=
  "schema S \x7b any p \x7d
   component C \x7b resource S b \x7b p = a.p \x7d resource S a \x7b p = r.p \x7d \x7d
   component C w \x7b \x7d
   resource S r \x7b p = 1 \x7d"

instance : Program.Spelled backwards := set_option maxRecDepth 2000 in ⟨_, rfl⟩

theorem dependencies_precede_backwards :
    ∃ p c, Program.parse backwards = .ok p ∧ p.DotFree ∧ builtin.check p = .ok c ∧
      Precedes c.order "r" "w" ∧
      ∃ order, c.componentOrder? "C" = some order ∧ Precedes order "C.a" "C.b" := by
  have hrun : ((Program.parse backwards).toOption.any fun p =>
      (builtin.check p).toOption.any fun c => decide (
        "w" ∈ Decl.instanceNames p.items ∧ c.dependencies? "w" = some ["r"] ∧
        c.dependencies? "C.b" = some ["C.a"] ∧ ∃ d ∈ p.items, d.isComponent = true ∧
          d.name.text = "C" ∧ "b" ∈ Decl.instanceNames d.members ∧
            ∃ e ∈ d.members, e.name.text = "a")) = true := by
    decide +kernel
  obtain ⟨p, c, hprs, hc, hfacts⟩ := exists_of_run hrun
  obtain ⟨hw, hdep, hdep', d, hd, hcomp, hnm, hb, e, he, ha⟩ :=
    of_decide_eq_true hfacts
  have hp := Program.dotFree_of_parse hprs
  obtain ⟨htop, hbody⟩ := dependencies_precede hp hc
  refine ⟨p, c, hprs, hp, hc, ?_, ?_⟩
  · obtain ⟨ds, hds, hprec⟩ := htop "w" hw
    obtain rfl := Option.some.inj (hdep.symm.trans hds)
    exact hprec "r" (List.mem_singleton_self _)
  · cases d with
    | component decs name body span =>
      have hnm : name.text = "C" := hnm
      obtain ⟨order, hord, hbef⟩ := hbody _ _ _ _ hd
      rw [hnm] at hord hbef
      obtain ⟨ds, hds, hprec⟩ := hbef "b" hb
      obtain rfl := Option.some.inj (hdep'.symm.trans hds)
      have hab := hprec e he
      rw [ha] at hab
      exact ⟨order, hord, hab (List.mem_singleton_self _)⟩
    | _ => cases hcomp

/-! ### What orders list -/

namespace Accepted

variable (h : Accepted k p c) {component : Option String} {n x y : String}
include h

theorem declares_of_depends (hd : c.Depends x y) : ∃ component n, y = qualifiedName component n ∧
    (p.DeclaresInstance component n ∨ p.DeclaresVariable component n) := by
  obtain ⟨scope, component, n, hb, -, -, hlink⟩ := h.linking.depends (h.depends_iff.mp hd)
  rcases hlink with hedge | ⟨-, m, hm, hkind⟩
  · obtain ⟨-, -, m, hm, hkind⟩ := h.linking.edge hedge hb
    exact ⟨component, m, hm, h.declares_of_kindAt hb hkind⟩
  · exact ⟨none, m, hm, h.declares_of_kindAt h.linking.top hkind⟩

/-- An order lists the instances of its body, and the variables without a written type that one of
them depends on. -/
theorem mem_order_iff (hp : p.DotFree) {ds : List Decl} (hbody : p.Body component ds)
    {order : List String} (hord : c.orderOf? component = some order) :
    order.Nodup ∧ ∀ x, x ∈ order ↔
      (∃ n, x = qualifiedName component n ∧ p.DeclaresInstance component n) ∨
      ∃ v, x = qualifiedName component v ∧ p.DeclaresVariable component v ∧
        ∃ n, p.DeclaresInstance component n ∧ c.Depends (qualifiedName component n) x := by
  obtain ⟨scope, b, hb, rfl, order', hok, hord'⟩ := h.exists_body hbody
  obtain rfl := Option.some.inj (hord.symm.trans hord')
  have hbodyAt : (k.linked p).BodyAt scope b.component := ⟨b, hb, rfl⟩
  have hwf := h.linking.wellFormed hb
  refine ⟨DependencyGraph.order_nodup hwf hok, fun x => ?_⟩
  rw [(DependencyGraph.order_perm hwf hok).mem_iff]
  constructor
  · intro hx
    rcases h.linking.node hb hx with hinst | ⟨y, hedge⟩
    · exact Or.inl hinst
    · obtain ⟨hdep, ⟨n, rfl, hn⟩, m, rfl, hkind⟩ := h.linking.edge ⟨b, hb, hedge⟩ hbodyAt
      rcases h.declares_of_kindAt hbodyAt hkind with hm | hm
      · exact Or.inl ⟨m, rfl, hm⟩
      · exact Or.inr ⟨m, rfl, hm, n, hn, h.depends_iff.mpr hdep⟩
  · rintro (⟨n, rfl, hn⟩ | ⟨v, rfl, hv, n, hn, hdep⟩)
    · obtain ⟨-, scope', hb', b', hbody', hnode⟩ := h.entered hn
      obtain rfl := h.linking.unique hbodyAt hb'
      obtain rfl := Option.some.inj (hb.symm.trans hbody')
      exact hnode
    · rcases h.depends_cases hp hn hdep with
        ⟨scope', hb', b', hbody', hedge⟩ | ⟨hne, m, hm, hdecl⟩
      · obtain rfl := h.linking.unique hbodyAt hb'
        obtain rfl := Option.some.inj (hb.symm.trans hbody')
        exact hedge.mem_nodes.2
      · exact absurd (p.qualifiedName_inj hp hv.declares hdecl hm).1 hne

/-- The names of instances are not those of variables. -/
theorem not_declaresVariable (hn : p.DeclaresInstance component n) :
    ¬ p.DeclaresVariable component n := by
  rintro ⟨ds, hbody, d, hd, hnm⟩
  obtain ⟨s, hs⟩ := h.underway.exists_arrives (k := k) hbody hd
  have harr := h.underway.arrived hs
  have hfs := harr.lasts.findings (h.links.findings_eq_nil h.findings)
  obtain ⟨ds', hbody', d', hd', hn⟩ := hn
  obtain ⟨scope, hb, hready⟩ := h.prepared.ready hbody'
  obtain ⟨kind, hkind⟩ := (hready d' hd' (Decl.isMember_of_instanceName? hn)).2.kindAt hn
  -- the check comes to the variable in the scope that binds the instance already
  have hbodyAt : s.BodyAt s.body component := harr.component_eq ▸ harr.bodyAt
  obtain rfl := harr.unique (harr.bodies hb) hbodyAt
  rw [← harr.atBody] at hkind
  have hbd := harr.scopes.kindAt_eq_some hkind
  cases d with
  | var d =>
    rw [Decl.variableName?] at hnm
    split at hnm
    · next hty =>
      cases hnm
      rw [Session.checkDecl] at hfs
      have hnone := Session.unbound_of_checkVariable (Option.isNone_iff_eq_none.mp hty) hfs
      rw [Scopes.kindAt, hnone] at hbd
      cases hbd
    · cases hnm
  | _ => cases hnm

end Accepted

/-- If nothing depends on a variable, orders list instances and nothing else. -/
theorem Accepted.order_perm (h : Accepted k p c) (hp : p.DotFree)
    (hvar : ∀ x y, c.Depends x y →
      ¬ ∃ component v, y = qualifiedName component v ∧ p.DeclaresVariable component v)
    {component : Option String} {ds : List Decl} (hbody : p.Body component ds) {order : List String}
    (hord : c.orderOf? component = some order) :
    order.Nodup ∧ order.Perm ((Decl.instanceNames ds).map (qualifiedName component)) := by
  obtain ⟨hnd, hmem⟩ := h.mem_order_iff hp hbody hord
  have hdecl : ∀ n, p.DeclaresInstance component n ↔ n ∈ Decl.instanceNames ds := by
    intro n
    rw [Decl.mem_instanceNames]
    constructor
    · rintro ⟨ds', hbody', hn⟩
      rwa [h.prepared.body_unique hbody hbody']
    · exact fun hn => ⟨ds, hbody, hn⟩
  have hinj : ∀ n ∈ Decl.instanceNames ds, ∀ n' ∈ Decl.instanceNames ds,
      qualifiedName component n = qualifiedName component n' → n = n' := fun n hn n' hn' heq =>
    (p.qualifiedName_inj hp ((hdecl n).mpr hn).declares ((hdecl n').mpr hn').declares heq).2
  refine ⟨hnd, (List.perm_ext_iff_of_nodup hnd
    (List.Nodup.map_on hinj (h.prepared.nodup_instanceNames hbody))).mpr fun x => ?_⟩
  rw [hmem, List.mem_map]
  constructor
  · rintro (⟨n, rfl, hn⟩ | ⟨v, rfl, hv, n, -, hdep⟩)
    · exact ⟨n, (hdecl n).mp hn, rfl⟩
    · exact absurd ⟨component, v, rfl, hv⟩ (hvar _ _ hdep)
  · rintro ⟨n, hn, rfl⟩
    exact Or.inl ⟨n, rfl, (hdecl n).mpr hn⟩

/-- Orders and dependencies are about instances alone exactly if no instance depends on a variable
without a written type. -/
theorem listsInstances_iff (hp : p.DotFree) (h : k.check p = .ok c) :
    c.ListsInstances p ↔ ∀ x y, c.Depends x y →
      ¬ ∃ component v, y = qualifiedName component v ∧ p.DeclaresVariable component v := by
  have ha := accepted_of_check h
  constructor
  · rintro hls x y hdep ⟨component, v, rfl, hv⟩
    obtain ⟨-, comp', n, heq, hn⟩ := hls.dependencies hdep
    obtain ⟨rfl, rfl⟩ := p.qualifiedName_inj hp hv.declares hn.declares heq
    exact ha.not_declaresVariable hn hv
  · intro hvar
    constructor
    · obtain ⟨hnd, hperm⟩ := ha.order_perm hp hvar .top rfl
      rw [show qualifiedName none = id from rfl, List.map_id] at hperm
      exact ⟨hnd, hperm⟩
    · intro decs name body span hc
      obtain ⟨-, -, -, -, order, -, hord⟩ := ha.exists_body (.component hc)
      exact ⟨order, hord, ha.order_perm hp hvar (.component hc) hord⟩
    · intro x y hdep
      obtain ⟨component, n, rfl, hn | hv⟩ := ha.declares_of_depends hdep
      · obtain ⟨ds, hds⟩ := (ha.entered hn).1
        obtain ⟨i, hi, -⟩ := Option.map_eq_some_iff.mp hds
        exact ⟨by rw [hi]; rfl, component, n, rfl, hn⟩
      · exact absurd ⟨component, n, rfl, hv⟩ (hvar _ _ hdep)

/-- A variable that is bound to a resource, and a resource that reads it. -/
def throughVariable : String :=
  "schema S \x7b any p \x7d
   resource S r \x7b p = 1 \x7d
   var v = r
   resource S y \x7b p = v.p \x7d"

instance : Program.Spelled throughVariable := ⟨_, rfl⟩

/-- The variable is taken for an instance. -/
theorem not_listsInstances_throughVariable :
    ∃ p c, Program.parse throughVariable = .ok p ∧ p.DotFree ∧ builtin.check p = .ok c ∧
      ¬ c.ListsInstances p ∧ c.order = ["r", "v", "y"] := by
  have hrun : ((Program.parse throughVariable).toOption.any fun p =>
      (builtin.check p).toOption.any fun c => decide (c.order = ["r", "v", "y"] ∧
        c.dependencies? "y" = some ["v"] ∧
        ∃ d ∈ p.items, d.variableName? = some "v")) = true := by
    decide +kernel
  obtain ⟨p, c, hprs, hc, hfacts⟩ := exists_of_run hrun
  obtain ⟨hord, hdep, hv⟩ := of_decide_eq_true hfacts
  have hp := Program.dotFree_of_parse hprs
  refine ⟨p, c, hprs, hp, hc, fun hls => ?_, hord⟩
  exact (listsInstances_iff hp hc).mp hls "y" "v"
    ⟨["v"], hdep, List.mem_singleton_self _⟩ ⟨none, "v", rfl, p.items, .top, hv⟩

end Checker

end Provision
