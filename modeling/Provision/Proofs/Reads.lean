import Provision.Proofs.Checker

/-!
# What instances read

In an accepted program an instance depends on everything that its initialisers read, however deep
inside them, and on everything that a `@dependsOn` on it refers to
(`Checker.dependencies_complete`). What is read is told by the session in which the check comes to
the instance; there the name of another instance means what it means in the end
(`Checker.Accepted.resolve_of_means`).
-/

namespace Provision

open Session

variable {a : Decoration} {n : String} {ds : List Decl} {scope : ScopeId}

/-- An expression is `name` or `kind.name`. -/
abbrev Expr.LeadsTo (n : String) (e : Expr) : Prop :=
  ∃ path ∈ e.path?, path.map Ident.text = [n] ∨ path.tail.map Ident.text = [n]

/-- The argument of a decoration refers to a name, or it is an array with a reference to it. -/
inductive Decoration.RefersTo (n : String) (a : Decoration) : Prop
  | single {e : Expr} (hargs : a.args = .value e) (h : e.LeadsTo n) : RefersTo n a
  | among {items : List Expr} {span : Span} {e : Expr} (hargs : a.args = .value (.array items span))
      (he : e ∈ items) (h : e.LeadsTo n) : RefersTo n a

theorem Decoration.RefersTo.exists_element (h : a.RefersTo n) : ∃ arg, a.args = .value arg ∧
    ∃ e ∈ Decorator.DependsOn.elements arg, e.LeadsTo n := by
  cases h with
  | among hargs he h => exact ⟨_, hargs, _, he, h⟩
  | @single e hargs h =>
    refine ⟨e, hargs, e, ?_, h⟩
    -- an array is no path
    cases e with
    | array items span =>
      obtain ⟨path, hpath, -⟩ := h
      cases hpath
    | _ => exact List.mem_singleton_self _

/-- In a body a name means what a body declares, itself or another around it. -/
def CheckedProgram.Means (c : CheckedProgram) (component : Option String) (n : String)
    (comp' : Option String) : Prop :=
  ∃ scope ∈ c.scopeOf? component, ∃ found ∈ ((c.scopes.enter scope).resolve n).toOption,
    c.scopeOf? comp' = some found.1

instance (c : CheckedProgram) (component : Option String) (n : String)
    (comp' : Option String) : Decidable (c.Means component n comp') :=
  inferInstanceAs (Decidable (∃ scope ∈ c.scopeOf? component,
    ∃ found ∈ ((c.scopes.enter scope).resolve n).toOption,
      c.scopeOf? comp' = some found.1))

/-- A declaration mentions a name that a scope declares: one of its expressions reads it, or it is
an instance and a `@dependsOn` on it refers to that name. -/
inductive Session.Mentions (k : Checker) (s : Session) (d : Decl) : ScopeId → String → Prop
  | read {e : Expr} {scope : ScopeId} {n : String} (he : e ∈ d.exprs)
      (h : Reads k (s.readingIn d) e scope n) : Mentions k s d scope n
  | reference {a : Decoration} {scope : ScopeId} {n : String} {type : Ty}
      (hd : d.instanceName?.isSome) (ha : a ∈ d.decorations)
      (hdec : k.registry.get? a.name.text = some .dependsOn) (hn : a.RefersTo n)
      (h : s.scopes.resolve n = .ok (scope, type)) : Mentions k s d scope n

/-! ### References -/

theorem Decorator.DependsOn.checkTarget_eq_ok {site : Site} {refs : List Reference}
    (h : checkTarget a site = .ok refs) {arg : Expr} (harg : a.args.positional? = some arg) :
    refs = (elements arg).filterMap reference? := by
  unfold checkTarget at h
  rw [harg] at h
  cases htgt : spec.checkTarget a site with
  | error d =>
    rw [htgt] at h
    cases h
  | ok =>
    rw [htgt] at h
    exact (Except.ok.inj h).symm

namespace Session

theorem exists_reference {site : Site} {type : Ty} {refs : List Reference}
    (h : checkSite .dependsOn a site type = .ok refs) (hn : a.RefersTo n) :
    ∃ r ∈ refs, ∃ kind, splitReference r = .ok (kind, n) := by
  obtain ⟨arg, hargs, e, he, path, hpath, hlast⟩ := hn.exists_element
  have harg : a.args.positional? = some arg := by rw [hargs, Arguments.positional?]
  rw [Decorator.DependsOn.checkTarget_eq_ok (checkSite_eq_ok h).1 harg]
  have hmem : (⟨path, e.span⟩ : Reference) ∈
      (Decorator.DependsOn.elements arg).filterMap Decorator.DependsOn.reference? := by
    refine List.mem_filterMap.mpr ⟨e, he, ?_⟩
    rw [Decorator.DependsOn.reference?, hpath]
    rfl
  refine ⟨_, hmem, ?_⟩
  rcases hlast with hlast | hlast
  · obtain ⟨name, rfl, rfl⟩ := List.map_eq_singleton_iff.mp hlast
    exact ⟨none, rfl⟩
  · obtain ⟨name, htail, rfl⟩ := List.map_eq_singleton_iff.mp hlast
    obtain ⟨kind, rfl⟩ : ∃ kind, path = [kind, name] := by
      cases path with
      | nil => cases htail
      | cons kind rest => exact ⟨kind, congrArg (kind :: ·) htail⟩
    exact ⟨some kind.text, rfl⟩

end Session

namespace Checker

variable {k : Checker} {p : Program} {c : CheckedProgram}

/-! ### Where the check comes to a declaration -/

namespace Accepted

variable (h : Accepted k p c) {component : Option String} {d : Decl} {s : Session}
include h

theorem arrived (ha : k.Arrives p component d s) : Arrived k p component d s :=
  h.underway.arrived ha

theorem findings_checkDecl (ha : k.Arrives p component d s) :
    ((checkDecl k d).run s).2.findings = [] :=
  (h.arrived ha).lasts.findings (h.links.findings_eq_nil h.findings)

theorem depends_of_checkDecl (ha : k.Arrives p component d s) {x y : String}
    (hd : ((checkDecl k d).run s).2.Depends (s.qualified x) y) :
    c.Depends (qualifiedName component x) y := by
  have hs := h.arrived ha
  rw [hs.qualified, hs.component_eq] at hd
  exact h.depends_iff.mpr (h.links.depends (hs.lasts.depends hd))

/-- What a `@dependsOn` on an instance refers to is noted for the instance, and for the component
around it if it lies outside. -/
theorem noted_of_refersTo (ha : k.Arrives p component d s) (hbody : p.Body component ds)
    (hd : d ∈ ds) {x : String} (hx : d.instanceName? = some x) (hmem : a ∈ d.decorations)
    (hdec : k.registry.get? a.name.text = some .dependsOn) (hn : a.RefersTo n) {type : Ty}
    (hres : s.scopes.resolve n = .ok (scope, type)) :
    c.Depends (qualifiedName component x) (s.scopes.qualify scope n) ∧
      ∀ name, component = some name → scope = ScopeId.global → (k.checked p).Needs name n := by
  have hs := h.arrived ha
  obtain ⟨site, type', refs, hsite, hfollowed⟩ :=
    depends_checkDecl_reference hs.toWorking hs.awaits hx (hs.halted.trans h.halted)
      (h.shaped hbody d hd).own.known (h.findings_checkDecl ha) hmem hdec
  obtain ⟨r, hr, kind, hsplit⟩ := exists_reference hsite hn
  obtain ⟨scope', y, href, hdep, hneeds⟩ := hfollowed r hr
  -- the reference means what its last name stands for
  obtain ⟨kind', n', type'', hsplit', hres', -, rfl⟩ :=
    resolveReference_eq_ok href
  cases hsplit.symm.trans hsplit'
  cases hres.symm.trans hres'
  refine ⟨h.depends_of_checkDecl ha hdep, fun name hnm hgl => ?_⟩
  have hneeds := hs.lasts.needs (hneeds name (hs.component_eq.trans hnm) hgl)
  rwa [hgl, hs.qualify hs.top] at hneeds

theorem depends_of_mentions (ha : k.Arrives p component d s) (hbody : p.Body component ds)
    (hd : d ∈ ds) {x : String} (hx : d.instanceName? = some x)
    (hn : Mentions k s d scope n) :
    c.Depends (qualifiedName component x) (s.scopes.qualify scope n) := by
  have hs := h.arrived ha
  cases hn with
  | read he hread =>
    rw [readingIn_instance hx] at hread
    exact h.depends_of_checkDecl ha
      (depends_checkDecl hs.toWorking hs.awaits hx (h.findings_checkDecl ha) he hread).1
  | reference _ hmem hdec hn hres =>
    exact (h.noted_of_refersTo ha hbody hd hx hmem hdec hn hres).1

theorem needs_of_mentions {name : String} (ha : k.Arrives p (some name) d s)
    (hbody : p.Body (some name) ds) (hd : d ∈ ds)
    (hn : Mentions k s d ScopeId.global n) : (k.checked p).Needs name n := by
  have hs := h.arrived ha
  cases hn with
  | read he hread =>
    have hsettles := settles_checkDecl (k := k) hs.toWorking hs.awaits
      (hs.flat (Option.some_ne_none name))
    exact hs.lasts.needs (hsettles.needs (h.findings_checkDecl ha) _ he hread name hs.component_eq)
  | reference hx hmem hdec hn hres =>
    obtain ⟨x, hx⟩ := Option.isSome_iff_exists.mp hx
    exact (h.noted_of_refersTo ha hbody hd hx hmem hdec hn hres).2 name rfl rfl

theorem kindAt_of_declares (ha : k.Arrives p component d s) {comp' : Option String}
    (hn : p.DeclaresInstance comp' n) (hb : (k.linked p).BodyAt scope comp') :
    ∃ kind, s.scopes.kindAt scope n = some kind ∧ c.kindOf? comp' n = some kind := by
  obtain ⟨ds, hbody, e, he, hn⟩ := hn
  obtain ⟨scope', hb', hready⟩ := h.prepared.ready hbody
  obtain rfl := h.linking.unique hb (h.grows.bodyAt hb')
  obtain ⟨kind, hkind⟩ := (hready e he (Decl.isMember_of_instanceName? hn)).2.kindAt hn
  refine ⟨kind, (h.arrived ha).scopes.kindAt_eq_some hkind, ?_⟩
  rw [h.kindOf?_eq hb]
  exact h.grows.scopes.kindAt_eq_some hkind

/-- Where the check comes to a declaration, the name of an instance means what it means in the
end. -/
theorem resolve_of_means (ha : k.Arrives p component d s) {comp' : Option String}
    (hmeans : c.Means component n comp') (hn : p.DeclaresInstance comp' n) :
    ∃ scope type, s.scopes.resolve n = .ok (scope, type) ∧ c.scopeOf? comp' = some scope ∧
      type.kind? = c.kindOf? comp' n ∧ type.kind?.isSome ∧
      s.scopes.qualify scope n = qualifiedName comp' n := by
  obtain ⟨scope, hsc, ⟨scope', type⟩, hres, hmeant⟩ := hmeans
  rw [Option.mem_def, h.scopeOf?_iff] at hsc
  have hsc' := h.scopeOf?_iff.mp hmeant
  have hres : ((k.linked p).scopes.enter scope).resolve n = .ok (scope', type) := by
    rw [h.scopes] at hres
    cases hfound : ((k.linked p).scopes.enter scope).resolve n with
    | error e =>
      rw [hfound] at hres
      cases hres
    | ok found =>
      rw [hfound] at hres
      exact congrArg Except.ok (Option.some.inj hres)
  obtain ⟨-, hwhere⟩ := (h.linking.toPlaced.resolve_eq_ok_iff hsc).mp hres
  have hs := h.arrived ha
  have hat : ∀ {scope c}, (k.linked p).BodyAt scope c → s.BodyAt scope c :=
    fun hb => hs.bodies (h.checks.bodyAt_of (h.links.bodyAt_of hb))
  have hbody : s.BodyAt s.body component := hs.component_eq ▸ hs.bodyAt
  obtain rfl : scope = s.body := hs.unique (hat hsc) hbody
  obtain ⟨kind, hkind, hkindOf⟩ := h.kindAt_of_declares ha hn hsc'
  obtain ⟨type', hfind, hkind⟩ := Option.bind_eq_some_iff.mp hkind
  refine ⟨scope', type', ?_, hmeant, hkind.trans hkindOf.symm, Option.isSome_of_mem hkind,
    hs.qualify (hat hsc') n⟩
  have henter : s.scopes.enter s.body = s.scopes := by
    rw [← hs.atBody]
    rfl
  rw [← henter]
  refine (hs.toPlaced.resolve_eq_ok_iff hbody).mpr ⟨hfind, hwhere.imp_right ?_⟩
  rintro ⟨hne, hgl, hnone⟩
  refine ⟨hne, hgl, Option.not_isSome_iff_eq_none.mp fun hsome => ?_⟩
  -- what is bound in the body stays bound there
  have hlasts := (hs.advances.scopes.trans hs.lasts.scopes).trans h.links.scopes
  have hbd := hlasts.isSome_find? hsome
  rw [hnone] at hbd
  cases hbd

end Accepted

/-- An instance depends on whatever it mentions where the check comes to it, and there the name of
every instance means what it means in the end. -/
theorem dependencies_complete (h : k.check p = .ok c) {component : Option String} {ds : List Decl}
    {d : Decl} {x : String} (hbody : p.Body component ds) (hd : d ∈ ds)
    (hx : d.instanceName? = some x) :
    (∃ s, k.Arrives p component d s) ∧ ∀ s, k.Arrives p component d s →
      (∀ scope n, Session.Mentions k s d scope n →
        c.Depends (qualifiedName component x) (s.scopes.qualify scope n)) ∧
      ∀ comp' n, p.DeclaresInstance comp' n → c.Means component n comp' →
        ∃ scope type, s.scopes.resolve n = .ok (scope, type) ∧ c.scopeOf? comp' = some scope ∧
          type.kind? = c.kindOf? comp' n ∧ type.kind?.isSome ∧
          s.scopes.qualify scope n = qualifiedName comp' n := by
  have ha := accepted_of_check h
  refine ⟨ha.underway.exists_arrives hbody hd, fun s hs => ⟨fun scope n hn => ?_, ?_⟩⟩
  · exact ha.depends_of_mentions hs hbody hd hx hn
  · exact fun comp' n hn hmeans => ha.resolve_of_means hs hmeans hn

/-- Two instances in a component, one that reads an instance of the top level deep inside an
initialiser, and one that refers to it. -/
def mentionsOutside : String :=
  "schema S \x7b any p \x7d
   component C \x7b
     resource S x \x7b p = [1, \x7b q: a.p \x7d] \x7d
     @dependsOn([x, S.a]) resource S y \x7b p = 1 \x7d
   \x7d
   component C w \x7b \x7d
   resource S a \x7b p = 1 \x7d"

instance : Program.Spelled mentionsOutside := set_option maxRecDepth 2000 in ⟨_, rfl⟩

set_option synthInstance.maxSize 256 in
theorem dependencies_complete_mentionsOutside :
    ∃ p c, Program.parse mentionsOutside = .ok p ∧ builtin.check p = .ok c ∧ c.Depends "C.x" "a" ∧
      c.Depends "C.y" "a" := by
  have hrun : ((Program.parse mentionsOutside).toOption.any fun p =>
      (builtin.check p).toOption.any fun c => decide (
        "a" ∈ Decl.instanceNames p.items ∧ c.Means (some "C") "a" none ∧
        ∃ b ∈ p.items, b.isComponent = true ∧ b.name.text = "C" ∧
          (∃ d ∈ b.members, d.instanceName? = some "x" ∧
            ∃ e ∈ d.exprs, ∃ e₁ ∈ e.children, ∃ e₂ ∈ e₁.children, ∃ e₃ ∈ e₂.children,
              (e₃ matches .var ⟨"a", _⟩) = true) ∧
          ∃ d ∈ b.members, d.instanceName? = some "y" ∧
            ∃ a ∈ d.decorations, a.name.text = "dependsOn" ∧
              ∃ arg ∈ a.args.positional?.toList, (Decorator.DependsOn.elements arg).length = 2 ∧
                ∃ e ∈ Decorator.DependsOn.elements arg, ∃ path ∈ e.path?.toList,
                  path.tail.map Ident.text = ["a"])) = true := by
    decide +kernel
  obtain ⟨p, c, hprs, hc, hfacts⟩ := exists_of_run hrun
  obtain ⟨ha, hmeans, b, hb, hcomp, hnm, ⟨d, hd, hx, e, he, e₁, he₁, e₂, he₂, e₃, he₃, hvar⟩,
    d', hd', hy, a, ha', hdependsOn, arg, harg, hlen, r, hr, path, hpath, hlast⟩ :=
      of_decide_eq_true hfacts
  have hdecl : p.DeclaresInstance none "a" := ⟨p.items, .top, Decl.mem_instanceNames.mp ha⟩
  have hbody : p.Body (some "C") b.members := hnm ▸ Program.body_of_isComponent hb hcomp
  refine ⟨p, c, hprs, hc, ?_, ?_⟩
  · obtain ⟨⟨s, hs⟩, hdep⟩ := dependencies_complete hc hbody hd hx
    obtain ⟨hdep, hres⟩ := hdep s hs
    obtain ⟨scope, type, hresolve, -, -, hkind, hqual⟩ := hres none "a" hdecl hmeans
    rw [← show s.scopes.qualify scope "a" = "a" from hqual]
    refine hdep scope "a" (.read he (.inside he₁ (.inside he₂ (.inside he₃ ?_))))
    rw [Session.readingIn_instance hx]
    split at hvar
    · exact .var hresolve hkind
    · cases hvar
  · obtain ⟨⟨s, hs⟩, hdep⟩ := dependencies_complete hc hbody hd' hy
    obtain ⟨hdep, hres⟩ := hdep s hs
    obtain ⟨scope, type, hresolve, -, -, -, hqual⟩ := hres none "a" hdecl hmeans
    rw [← show s.scopes.qualify scope "a" = "a" from hqual]
    refine hdep scope "a" (.reference (Option.isSome_of_mem hy) ha' ?_ ?_ hresolve)
    · rw [hdependsOn]
      rfl
    · cases hargs : a.args with
      | value e =>
        rw [hargs] at harg
        obtain rfl := List.mem_singleton.mp harg
        cases arg with
        | array items span =>
          exact .among hargs hr ⟨path, Option.mem_toList.mp hpath, Or.inr hlast⟩
        | _ => cases hlen
      | _ => rw [hargs] at harg; cases harg

end Checker

end Provision
