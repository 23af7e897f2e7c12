import Provision.Proofs.Spans.Program
import Provision.Proofs.Session.Stages
import Provision.Proofs.Session.Mirror

/-!
# The instances of a program

The table of instances has one entry for each resource and each component instance that a body
declares, under its qualified name (`Checker.instances_of_check`). An entry is put into the table
when its declaration is registered, and from then on keeps its name, kind, component and span
(`Session.SameEntries`), so every entry is that of a declaration (`Session.Recorded`), and of the
kind that the declared name is bound to (`Session.Kinded`). That no entry takes the place of another
is a matter of names: those of components are distinct (`Session.nodup_componentNames`), and so are
those of the instances in one body.
-/

namespace Provision

open List Table Session Decl

/-! ### Declarations -/

namespace Program

/-- The bodies of a program: its top level, and those of its components. -/
def bodies (p : Program) : List (Option String × List Decl) :=
  (none, p.items) :: (p.items.filter isComponent).map fun d => (some d.name.text, d.members)

/-- The resources and component instances of a program, each with the component whose body declares
it. -/
def instances (p : Program) : List (Option String × Decl) :=
  p.bodies.flatMap fun b => (b.2.filter (·.instanceName?.isSome)).map (b.1, ·)

variable {p : Program} {c : Option String}

theorem mem_bodies {ds : List Decl} : (c, ds) ∈ p.bodies ↔ p.Body c ds := by
  simp only [bodies, mem_cons, mem_map, mem_filter, Prod.mk.injEq]
  constructor
  · rintro (⟨rfl, rfl⟩ | ⟨d, ⟨hd, hcomp⟩, rfl, rfl⟩)
    · exact .top
    · exact body_of_isComponent hd hcomp
  · rintro (_ | hmem)
    · exact Or.inl ⟨rfl, rfl⟩
    · exact Or.inr ⟨_, ⟨hmem, rfl⟩, rfl, rfl⟩

theorem mem_instances {d : Decl} :
    (c, d) ∈ p.instances ↔ ∃ ds, p.Body c ds ∧ d ∈ ds ∧ d.instanceName?.isSome := by
  simp only [instances, mem_flatMap, mem_map, mem_filter, Prod.mk.injEq]
  constructor
  · rintro ⟨⟨c', ds⟩, hbody, d', ⟨hd, hnm⟩, rfl, rfl⟩
    exact ⟨ds, mem_bodies.mp hbody, hd, hnm⟩
  · rintro ⟨ds, hbody, hd, hnm⟩
    exact ⟨(c, ds), mem_bodies.mpr hbody, d, ⟨hd, hnm⟩, rfl, rfl⟩

theorem declaresInstance_of_mem {d : Decl} (h : (c, d) ∈ p.instances) :
    p.DeclaresInstance c d.name.text := by
  obtain ⟨ds, hbody, hd, hnm⟩ := mem_instances.mp h
  obtain ⟨n, hn⟩ := Option.isSome_iff_exists.mp hnm
  exact ⟨ds, hbody, d, hd, hn.trans (congrArg some (name_of_instanceName? hn).symm)⟩

theorem nodup_bodies (h : (componentNames p.items).Nodup) : (p.bodies.map (·.1)).Nodup := by
  have hcomps : (p.bodies.map (·.1)) = none :: (componentNames p.items).map some := by
    simp only [bodies, componentNames, map_cons, map_map]
    rfl
  rw [hcomps, nodup_cons]
  exact ⟨by simp, h.map (Option.some_injective String)⟩

theorem Body.unique (h : (componentNames p.items).Nodup) {ds ds' : List Decl}
    (hds : p.Body c ds) (hds' : p.Body c ds') : ds = ds' :=
  congrArg Prod.snd (inj_on_of_nodup_map (nodup_bodies h) (mem_bodies.mpr hds)
    (mem_bodies.mpr hds') rfl)

end Program

theorem Decl.map_name_filter (ds : List Decl) :
    (ds.filter (·.instanceName?.isSome)).map (·.name.text) = instanceNames ds := by
  induction ds with
  | nil => rfl
  | cons d ds ih =>
    cases hn : d.instanceName? with
    | none => simpa [instanceNames, hn] using ih
    | some n => simpa [instanceNames, hn, name_of_instanceName? hn] using ih

structure Label where
  name : String
  /-- The component whose body declares it. -/
  component : Option String
  span : Span
deriving DecidableEq

/-- The name, the component and the span of an instance. -/
def InstanceInfo.label (i : InstanceInfo) : Label := ⟨i.name, i.component, i.span⟩

/-- An instance before anything was found out about it. -/
def InstanceInfo.initial (i : InstanceInfo) : InstanceInfo :=
  { name := i.name, kind := i.kind, component := i.component, span := i.span }

/-- What an instance that a body declares is known by. -/
def Decl.label (comp : Option String) (d : Decl) : Label :=
  ⟨qualifiedName comp d.name.text, comp, d.span⟩

namespace Session

variable {k : Checker} {p : Program} {s t : Session}

/-! ### Entries -/

/-- The instances in the table, as they were when they were registered. -/
def entries (s : Session) : Table InstanceInfo := s.instances.map fun i => (i.1, i.2.initial)

/-- The same instances are in the table, and they were the same when they were registered. -/
def SameEntries (s t : Session) : Prop := t.entries = s.entries

instance : IsPreorder Session SameEntries where
  refl _ := rfl
  trans _ _ _ h h' := Eq.trans h' h

theorem sameEntries_modifyInstance (x : String) {f : InstanceInfo → InstanceInfo}
    (hf : ∀ i, (f i).initial = i.initial) : Moves SameEntries (modifyInstance x f) :=
  fun s => map_modify_of_eq s.instances x hf

theorem noting_sameEntries : Noting SameEntries where
  edge _ _ _ _ _ := rfl
  external _ _ _ := rfl
  dependency x _ := sameEntries_modifyInstance x fun _ => rfl

theorem sameEntries_report (d : Diagnostic) : Moves SameEntries (report d) := fun _ => rfl

theorem sameEntries_declare (name : Ident) (type : Ty) :
    Moves SameEntries (declare name type) := fun s =>
  of_declare (P := SameEntries s) name (fun _ => rfl) fun d => sameEntries_report d s

theorem sameEntries_infer (e : Expr) (expected : Option Ty) :
    Moves SameEntries (infer k e expected).run := by
  refine (closed_moves (R := SameEntries) (fun {_} span {m} hm s => ?_) fun _ _ =>
    noting_sameEntries.noteRead _ _ _).infer e expected
  rw [run_nested]
  split
  · exact hm { s with depth := s.depth + 1 }
  · rfl

theorem traversed_sameEntries : Traversed k SameEntries where
  report := sameEntries_report
  infer := sameEntries_infer
  runDecorators := moves_runDecorators sameEntries_report fun _ _ _ _ _ => rfl
  depend := noting_sameEntries.depend
  record x _ := sameEntries_modifyInstance x fun _ => rfl
  declare := sameEntries_declare
  readingFor x _ hm s := hm (s.readingFor x)
  inChild hm s := hm s.inChild
  refine _ _ := rfl
  inBody comp scope _ hm s := hm (s.inside comp scope)

theorem binds_sameEntries : BindsTypes (fun _ => True) SameEntries where
  report := sameEntries_report
  bindAlias _ _ _ := rfl
  withSchema _ _ := rfl

theorem sameEntries_registerTypes (ds : List Decl) : Moves SameEntries (registerTypes ds) :=
  binds_sameEntries.registerTypes (fun _ _ _ => rfl) fun _ _ => trivial

theorem sameEntries_defineComponent (name : Ident) (body : List Decl) :
    Moves SameEntries (defineComponent name body) := by
  intro s
  have hsig : SameEntries s (s.afterSignature name body).2 :=
    (Moves.bind (sameEntries_registerTypes body) fun _ =>
      binds_sameEntries.signatureOf name.text {} body)
      (({ s with scopes := (s.scopes.newChild (some name.text)).2 } : Session).within
        s.scopes.all.length)
  rcases run_defineComponent s name body with ⟨-, hrun⟩ | ⟨d, hrun⟩
  · rw [hrun]
    exact hsig
  · rw [hrun]
    exact hsig

theorem sameEntries_defineComponents (ds : List Decl) :
    Moves SameEntries (defineComponents ds) := by
  induction ds with
  | nil => exact Moves.pure _
  | cons d ds ih =>
    cases d with
    | component _ name body _ =>
      exact Moves.bind (sameEntries_defineComponent name body) fun _ =>
        Moves.bind ih fun _ => Moves.pure _
    | _ => exact ih

/-! ### Registration -/

theorem entries_addInstance (name : Ident) (kind : InstanceKind) (span : Span)
    (hents : SameEntries s t) (hcomp : t.component = s.component)
    (hq : t.qualified name.text = s.qualified name.text) :
    ((addInstance name kind span).run t).2.entries = s.entries.insert (s.qualified name.text)
      { name := s.qualified name.text, kind, component := s.component, span } := by
  rw [← hents, ← hcomp, ← hq]
  exact map_insert _ _ _ InstanceInfo.initial

theorem qualified_modifyBindings (f : Table Ty → Table Ty) (n : String) (s : Session) :
    ({ s with scopes := s.scopes.modifyBindings f } : Session).qualified n = s.qualified n :=
  Scopes.qualify_congr Scopes.length_modifyBindings
    (fun scope => (s.scopes.name_parent_modifyBindings f scope).1)
    (fun scope => (s.scopes.name_parent_modifyBindings f scope).2) s.scopes.current n

/-- An instance that is registered gets an entry under its name, of the kind that the name is bound
to; nothing else gets one. -/
theorem entries_registerMember (d : Decl) (hlt : s.scopes.current < s.scopes.all.length) :
    SameEntries s ((registerMember d).run s).2 ∨ d.instanceName?.isSome ∧ ∃ kind,
      ((registerMember d).run s).2.scopes.kindAt s.scopes.current d.name.text = some kind ∧
      ((registerMember d).run s).2.entries = s.entries.insert (s.qualified d.name.text)
        { name := s.qualified d.name.text, kind, component := s.component, span := d.span } := by
  have htyd : ∀ name type, Moves SameEntries (registerTyped name type) := fun name type =>
    Moves.get_bind fun s => by
      split
      · exact sameEntries_declare _ _ s
      · exact sameEntries_report _ s
  have hset : ∀ type : Ty,
      (s.scopes.set d.name.text type).kindAt s.scopes.current d.name.text = type.kind? :=
    fun type => Scopes.kindAt_set.trans (if_pos ⟨rfl, hlt, rfl⟩)
  cases d with
  | function d =>
    refine Or.inl ?_
    rw [registerMember, registerFunction, run_get_bind]
    split
    · exact sameEntries_declare _ _ s
    · exact sameEntries_report _ s
  | input d => exact Or.inl (htyd _ _ s)
  | output d => exact Or.inl (htyd _ _ s)
  | var d =>
    refine Or.inl ?_
    rw [registerMember]
    split
    · exact htyd _ _ s
    · rfl
  | resource d =>
    rw [registerMember, registerResource, run_get_bind]
    split
    · next schema props _ _ =>
      rw [run_bind]
      rcases run_declare s d.name (.resource d.name.text schema props) with
        ⟨-, hrun⟩ | ⟨f, hrun⟩
      · rw [hrun]
        refine Or.inr ⟨rfl, .resource schema, ?_, ?_⟩
        · exact ((Scopes.keeps_modify (alike_addResource _ _)).kindAt _ _).trans (hset _)
        · -- neither the name nor what its schema gets to know changes how names are qualified
          exact entries_addInstance d.name (.resource schema) d.span rfl rfl
            ((qualified_modifyBindings _ d.name.text _).trans
              (qualified_modifyBindings _ d.name.text s))
      · rw [hrun]
        exact Or.inl rfl
    · exact Or.inl rfl
    · exact Or.inl rfl
  | inst d =>
    rw [registerMember, registerInstance, run_get_bind]
    split
    · next name inputs outputs nested _ =>
      rw [run_bind]
      rcases run_declare s d.name (.component name (some d.name.text) inputs outputs nested) with
        ⟨-, hrun⟩ | ⟨f, hrun⟩
      · rw [hrun, if_pos rfl, run_bind, run_get_bind]
        refine Or.inr ⟨rfl, .component name, ?_⟩
        -- telling a component about it changes no entry
        split
        all_goals exact ⟨hset _, entries_addInstance d.name (.component name) d.span rfl rfl
          (qualified_modifyBindings _ d.name.text s)⟩
      · rw [hrun]
        exact Or.inl rfl
    · exact Or.inl rfl
    · exact Or.inl rfl
  | _ => exact Or.inl rfl

/-- What registration keeps up of the entries and of what is bound: every member does. -/
structure Upheld (p : Program) (P : Session → Prop) : Prop where
  mono : ∀ {s t}, SameEntries s t → s.scopes.Persists t.scopes →
    (∀ {scope c}, s.BodyAt scope c → t.BodyAt scope c) → P s → P t
  enlist : ∀ {s d}, Registering p s → (d.instanceName?.isSome → (s.component, d) ∈ p.instances) →
    P s → P (s.enlist d)

namespace Upheld

variable {P : Session → Prop} (h : Upheld p P)
include h

theorem grows (hents : SameEntries s t) (hgr : Grows s t) : P s → P t :=
  h.mono hents hgr.scopes hgr.bodyAt

theorem registerMembers {ds : List Decl} (hs : Registering p s) (hbody : p.Body s.component ds)
    {earlier later : List Decl} (hds : ds = earlier ++ later) (hP : P s) :
    P ((registerMembers later).run s).2 := by
  induction later generalizing s earlier with
  | nil => exact hP
  | cons d later ih =>
    have hd : d ∈ ds := hds ▸ mem_append_right _ mem_cons_self
    have hone := registers_members [d] hs fun d' hd' n hn => by
      obtain rfl := mem_singleton.mp hd'
      exact ⟨ds, hbody, d', hd, hn⟩
    rw [run_registerMembers_cons]
    refine ih hone.registering ?_ (hds.trans (append_cons earlier d later))
      (h.enlist hs (fun hnm => Program.mem_instances.mpr ⟨ds, hbody, hd, hnm⟩) hP)
    have hcomp : (s.enlist d).component = s.component := hone.grows.component
    rwa [hcomp]

theorem registerBody {c : Defined} (hs : Registering p s) (hc : s.Knows c)
    (hbody : p.Body (some c.name.text) c.body) (hP : P s) : P ((registerBody c).run s).2 := by
  have hins : P (s.inside c.name.text c.scope) :=
    h.mono (s := s) rfl (Scopes.keeps_enter s.scopes c.scope).toPersists id hP
  have hmems := h.registerMembers (hs.inside hc) hbody (nil_append _).symm hins
  obtain ⟨nested, hrun⟩ := run_registerBody c s
  rw [hrun]
  refine h.mono (s := ((Session.registerMembers c.body).run (s.inside c.name.text c.scope)).2) rfl
    ?_ id hmems
  exact ((Scopes.keeps_enter _ s.scopes.current).trans
    (Scopes.keeps_modify (alike_withNested nested))).toPersists

theorem registerBodies {cs : List Defined} (hs : AtTop p s)
    (hcs : ∀ c ∈ cs, s.Knows c ∧ p.Body (some c.name.text) c.body) (hP : P s) :
    P ((registerBodies cs).run s).2 := by
  induction cs generalizing s with
  | nil => exact hP
  | cons c cs ih =>
    obtain ⟨hknows, hbody⟩ := hcs c mem_cons_self
    have hone := registers_body hs hknows hbody
    refine ih (hs.grows hone.grows hone.registering) (fun c' hc' => ?_)
      (h.registerBody hs.toRegistering hknows hbody hP)
    obtain ⟨hknows', hbody'⟩ := hcs c' (mem_cons_of_mem c hc')
    exact ⟨hknows'.grows hone.grows, hbody'⟩

theorem registerProgram (hs : AtTop p s) (hP : P s) : P ((registerProgram p.items).run s).2 := by
  have htyd : P (typed p s) :=
    h.grows (sameEntries_registerTypes p.items s) (hs.registerTypes p.items).1 hP
  have hdfn : P (defining p s).2 :=
    h.grows (sameEntries_defineComponents p.items _) (definesAll_defining hs).grows htyd
  obtain ⟨-, htop⟩ := atTop_bodied hs (Subset.refl (defining p s).1)
  rw [run_registerProgram]
  refine h.registerMembers htop.toRegistering (htop.component_none ▸ .top) (nil_append _).symm ?_
  exact h.registerBodies (atTop_defining hs) (fun c hc => knows_of_mem hs hc) hdfn

end Upheld

/-! ### Labels -/

def labels (s : Session) : Table Label := s.instances.map fun i => (i.1, i.2.label)

theorem labels_eq (s : Session) : s.labels = s.entries.map fun i => (i.1, i.2.label) := by
  rw [entries, map_map]
  rfl

/-- Every entry is that of a declaration. -/
structure Recorded (p : Program) (s : Session) : Prop where
  nodup : s.labels.names.Nodup
  declared : ∀ e ∈ s.labels, ∃ q ∈ p.instances, e = ((q.2.label q.1).name, q.2.label q.1)

theorem Recorded.of_sameEntries (h : Recorded p s) (hsame : SameEntries s t) : Recorded p t := by
  have hlbs : t.labels = s.labels := by rw [labels_eq, hsame, labels_eq]
  exact ⟨hlbs ▸ h.nodup, hlbs ▸ h.declared⟩

theorem upheld_recorded : Upheld p (Recorded p) where
  mono hsame _ _ h := h.of_sameEntries hsame
  enlist {s d} hs hd h := by
    obtain ⟨registered, heq⟩ := enlist_eq s d
    rcases entries_registerMember d hs.current_lt with hsame | ⟨hnm, kind, -, hents⟩
    · exact h.of_sameEntries (heq ▸ hsame)
    · have hq : s.qualified d.name.text = qualifiedName s.component d.name.text :=
        hs.qualify (hs.current ▸ hs.bodyAt) d.name.text
      have hlbs : (s.enlist d).labels =
          s.labels.insert (d.label s.component).name (d.label s.component) := by
        rw [heq, labels_eq, labels_eq, label, ← hq]
        exact (congrArg _ hents).trans (map_insert _ _ _ InstanceInfo.label)
      refine ⟨?_, fun e he => ?_⟩
      · rw [hlbs]
        exact nodup_names_insert h.nodup
      · rw [hlbs] at he
        rcases mem_insert he with rfl | he
        · exact ⟨(s.component, d), hd hnm, rfl⟩
        · exact h.declared e he

/-! ### Kinds -/

/-- Every entry is of the kind that the name of its declaration is bound to. -/
def Kinded (p : Program) (s : Session) : Prop :=
  ∀ ⦃x i⦄, find? s.entries x = some i → ∃ scope c n, x = qualifiedName c n ∧
    p.DeclaresInstance c n ∧ s.BodyAt scope c ∧ s.scopes.kindAt scope n = some i.kind

theorem Kinded.mono (h : Kinded p s) (hsame : SameEntries s t)
    (hper : s.scopes.Persists t.scopes)
    (hbds : ∀ {scope c}, s.BodyAt scope c → t.BodyAt scope c) : Kinded p t := by
  intro x i hi
  obtain ⟨scope, c, n, hx, hd, hb, hkind⟩ := h (hsame ▸ hi)
  exact ⟨scope, c, n, hx, hd, hbds hb, hper.kindAt_eq_some hkind⟩

/-- Registration enters an instance as what its name is bound to. -/
theorem upheld_kinded : Upheld p (Kinded p) where
  mono hsame hper hbds h := h.mono hsame hper hbds
  enlist {s d} hs hd h := by
    obtain ⟨registered, heq⟩ := enlist_eq s d
    have hgr : Grows s (s.enlist d) := (registers_members [d] hs fun d' hd' n hn => by
      obtain rfl := mem_singleton.mp hd'
      exact name_of_instanceName? hn ▸
        Program.declaresInstance_of_mem (hd (Option.isSome_of_eq_some hn))).grows
    rcases entries_registerMember d hs.current_lt with hsame | ⟨hnm, kind, hkind, hents⟩
    · exact h.mono (heq ▸ hsame) hgr.scopes hgr.bodyAt
    · intro x i hi
      have hcur : s.BodyAt s.scopes.current s.component := hs.current ▸ hs.bodyAt
      have hi : find? ((registerMember d).run s).2.entries x = some i := by
        rw [heq] at hi
        exact hi
      rw [hents, find?_insert] at hi
      split at hi
      · next hx =>
        cases hi
        exact ⟨s.scopes.current, s.component, d.name.text, hx.trans (hs.qualify hcur _),
          Program.declaresInstance_of_mem (hd hnm), hgr.bodyAt hcur, heq ▸ hkind⟩
      · obtain ⟨scope, c, n, hx, hd, hb, hkind⟩ := h hi
        exact ⟨scope, c, n, hx, hd, hgr.bodyAt hb, hgr.scopes.kindAt_eq_some hkind⟩

/-! ### Names -/

theorem Grows.unbound (h : Grows s t) {scope : ScopeId} {n : String}
    (hn : find? (t.scopes.bindings scope) n = none) :
    find? (s.scopes.bindings scope) n = none := by
  refine Option.eq_none_iff_forall_ne_some.mpr fun type hty => ?_
  obtain ⟨type', hty', -⟩ := h.scopes.bound scope n type hty
  rw [hn] at hty'
  cases hty'

/-- Components that are defined without findings have names of their own. -/
theorem nodup_componentNames (ds : List Decl) (hs : AtTop p s)
    (hnil : ((defineComponents ds).run s).2.findings = []) :
    (componentNames ds).Nodup ∧
      ∀ n ∈ componentNames ds, find? (s.scopes.bindings ScopeId.global) n = none := by
  induction ds generalizing s with
  | nil => exact ⟨nodup_nil, nofun⟩
  | cons d ds ih =>
    cases d with
    | component decs name body span =>
      have hone := defines_component hs name body
      have htop := hs.grows hone.grows hone.registering
      obtain ⟨hnd, hunb⟩ := ih htop hnil
      have hnil' : ((defineComponent name body).run s).2.findings = [] :=
        (defines_components ds htop).grows.findings_eq_nil hnil
      have hsig : Grows s (s.afterSignature name body).2 :=
        (types_afterSignature s name body hs.toRegular).1.grows
      have hfree : find? (s.scopes.bindings ScopeId.global) name.text = none := by
        rcases run_defineComponent s name body with ⟨hunb, -⟩ | ⟨f, hrun⟩
        · rw [hsig.current, hs.current_eq_global] at hunb
          exact hsig.unbound hunb
        · rw [hrun] at hnil'
          exact absurd hnil' (concat_ne_nil _ _)
      -- the component is bound by now, and the names of those that follow are not
      have hnew : name.text ∉ componentNames ds := by
        intro hmem
        obtain ⟨c, hc⟩ := Option.isSome_iff_exists.mp (hone.flat hnil').2
        have hbd := (hone.defined c hc).2.2.1.2
        rw [hunb name.text hmem] at hbd
        cases hbd
      refine ⟨nodup_cons.mpr ⟨hnew, hnd⟩, fun n hn => ?_⟩
      rcases mem_cons.mp hn with rfl | hn
      · exact hfree
      · exact hone.grows.unbound (hunb n hn)
    | _ => exact ih hs hnil

end Session

namespace Checker

variable {k : Checker} {p : Program} {c : CheckedProgram}

theorem sameEntries_linked (k : Checker) (p : Program) :
    SameEntries (k.registered p) (k.linked p) :=
  IsTrans.trans (r := SameEntries) _ _ _
    (traversed_sameEntries.checkDecls p.items _)
    (moves_linkComponents sameEntries_report noting_sameEntries _)

theorem registered_of_upheld {P : Session → Prop} (h : Upheld p P)
    (hsta : ∀ s : Session, s.instances = [] → P s) : P (k.registered p) :=
  h.registerProgram (atTop k p).1 (hsta _ (by rw [run_walkShapes]))

theorem recorded_linked (k : Checker) (p : Program) : Recorded p (k.linked p) := by
  have hreg : Recorded p (k.registered p) :=
    registered_of_upheld upheld_recorded fun s hs =>
      have hnil : s.labels = [] := by rw [labels, hs, map_nil]
      ⟨hnil ▸ nodup_nil, hnil ▸ forall_mem_nil _⟩
  exact hreg.of_sameEntries (sameEntries_linked k p)

theorem kinded_registered (k : Checker) (p : Program) : Kinded p (k.registered p) :=
  registered_of_upheld upheld_kinded fun s hs x i hi => by
    rw [entries, hs] at hi
    cases hi

theorem Accepted.exists_instance (h : Accepted k p c) (hp : p.DotFree) {comp : Option String}
    {n : String} (hn : p.DeclaresInstance comp n) {scope : ScopeId}
    (hb : (k.registered p).BodyAt scope comp) {kind : InstanceKind}
    (hkind : (k.registered p).scopes.kindAt scope n = some kind) :
    ∃ i, c.instance? (qualifiedName comp n) = some i ∧ i.kind = kind := by
  obtain ⟨ds, hds⟩ := (h.entered hn).1
  obtain ⟨i, hi, -⟩ := Option.map_eq_some_iff.mp hds
  refine ⟨i, hi, ?_⟩
  have hent : find? (k.registered p).entries (qualifiedName comp n) =
      some i.initial := by
    rw [← sameEntries_linked k p, entries, Table.find?_map, ← h.instances]
    exact congrArg (Option.map InstanceInfo.initial) hi
  -- no other declaration has this qualified name
  obtain ⟨scope', comp', n', hx, hn', hb', hkind'⟩ := kinded_registered k p hent
  obtain ⟨rfl, rfl⟩ := p.qualifiedName_inj hp hn.declares hn'.declares hx
  obtain rfl := h.prepared.unique hb hb'
  exact Option.some.inj (hkind'.symm.trans hkind)

/-- The components of an accepted program have names of their own. -/
theorem Accepted.nodup_componentNames (h : Accepted k p c) :
    (componentNames p.items).Nodup := by
  obtain ⟨hsta, -⟩ := atTop k p
  refine (Session.nodup_componentNames p.items (atTop_typed hsta) ?_).1
  exact ((Session.grows_registerProgram hsta).trans h.grows).findings_eq_nil h.findings

/-- Qualified names tell all instances of a program apart. -/
theorem Accepted.nodup_instances (h : Accepted k p c) (hp : p.DotFree) :
    (p.instances.map fun q => qualifiedName q.1 q.2.name.text).Nodup := by
  have hinj : ∀ q ∈ p.instances, ∀ q' ∈ p.instances,
      qualifiedName q.1 q.2.name.text = qualifiedName q'.1 q'.2.name.text →
        q.1 = q'.1 ∧ q.2.name.text = q'.2.name.text := fun q hq q' hq' heq =>
    p.qualifiedName_inj hp (Program.declaresInstance_of_mem hq).declares
      (Program.declaresInstance_of_mem hq').declares heq
  have hmem : ∀ b ∈ p.bodies, ∀ d ∈ b.2.filter (·.instanceName?.isSome), (b.1, d) ∈ p.instances :=
    fun b hb d hd => mem_flatMap.mpr ⟨b, hb, mem_map_of_mem hd⟩
  rw [Program.instances, map_flatMap]
  refine nodup_flatMap.mpr ⟨fun b hb => ?_, ?_⟩
  · -- in one body the names themselves are distinct
    have hnms := h.prepared.nodup_instanceNames (Program.mem_bodies.mp hb)
    rw [← map_name_filter] at hnms
    rw [map_map]
    exact Nodup.map_on (fun d hd d' hd' heq =>
      inj_on_of_nodup_map hnms hd hd'
        (hinj _ (hmem b hb d hd) _ (hmem b hb d' hd') heq).2) hnms.of_map
  · -- instances of different bodies are told apart by their components
    refine Pairwise.imp_of_mem (fun {b b'} hb hb' hne x hx hx' => ?_)
      (pairwise_map.mp (Program.nodup_bodies h.nodup_componentNames))
    obtain ⟨q, hq, rfl⟩ := mem_map.mp hx
    obtain ⟨q', hq', heq⟩ := mem_map.mp hx'
    obtain ⟨d, hd, rfl⟩ := mem_map.mp hq
    obtain ⟨d', hd', rfl⟩ := mem_map.mp hq'
    exact hne (hinj _ (hmem b hb d hd) _ (hmem b' hb' d' hd') heq.symm).1

/-- **Instances.** The resources and component instances of an accepted program and the entries of
its table correspond one to one by qualified names: no two declarations share one, these are the
names in the table, and under each stands the component and the span of its declaration. -/
theorem instances_of_check (hp : p.DotFree) (h : k.check p = .ok c) :
    (p.instances.map fun q => qualifiedName q.1 q.2.name.text).Nodup ∧
      (p.instances.map fun q => qualifiedName q.1 q.2.name.text).Perm c.instances.names ∧
      ∀ q ∈ p.instances, ∃ i, c.instance? (qualifiedName q.1 q.2.name.text) = some i ∧
        i.name = qualifiedName q.1 q.2.name.text ∧ i.component = q.1 ∧ i.span = q.2.span := by
  have ha := accepted_of_check h
  have hrec := recorded_linked k p
  have hnd := ha.nodup_instances hp
  have hnms : c.instances.names = (k.linked p).labels.names := by
    rw [ha.instances, Session.labels, Table.names, Table.names, List.map_map]
    rfl
  have hent : ∀ q ∈ p.instances, ∃ i,
      c.instance? (qualifiedName q.1 q.2.name.text) = some i ∧ i.label = q.2.label q.1 := by
    intro q hq
    obtain ⟨ds, hds⟩ := (ha.entered (Program.declaresInstance_of_mem hq)).1
    obtain ⟨i, hi, -⟩ := Option.map_eq_some_iff.mp hds
    refine ⟨i, hi, ?_⟩
    have hlb : Table.find? (k.linked p).labels (qualifiedName q.1 q.2.name.text) =
        some i.label := by
      rw [Session.labels, Table.find?_map, ← ha.instances]
      exact congrArg (Option.map InstanceInfo.label) hi
    obtain ⟨q', hq', heq⟩ :=
      hrec.declared _ ((Table.mem_iff_find? hrec.nodup).mpr hlb)
    obtain ⟨hnm, hlb⟩ := Prod.mk.inj heq
    rw [hlb, List.inj_on_of_nodup_map hnd hq hq' hnm]
  refine ⟨hnd, (List.perm_ext_iff_of_nodup hnd (hnms ▸ hrec.nodup)).mpr fun x => ?_,
    fun q hq => ?_⟩
  · rw [List.mem_map]
    constructor
    · rintro ⟨q, hq, rfl⟩
      obtain ⟨i, hi, -⟩ := hent q hq
      exact Table.mem_names_iff.mpr (Option.isSome_iff_exists.mpr ⟨i, hi⟩)
    · intro hx
      rw [hnms] at hx
      obtain ⟨e, he, rfl⟩ := List.mem_map.mp hx
      obtain ⟨q, hq, rfl⟩ := hrec.declared e he
      exact ⟨q, hq, rfl⟩
  · obtain ⟨i, hi, hlb⟩ := hent q hq
    obtain ⟨hnm, hcomp, hspan⟩ := Label.mk.inj hlb
    exact ⟨i, hi, hnm, hcomp, hspan⟩

/-- The same names at the top level and in the bodies of two components. -/
def sharesNames : String :=
  "schema S \x7b number p \x7d
   component C \x7b resource S r \x7b p = 2 \x7d \x7d
   component D \x7b
     resource S r \x7b p = 3 \x7d
     component C x \x7b \x7d
   \x7d
   resource S r \x7b p = 1 \x7d
   component D x \x7b \x7d"

instance : Program.Spelled sharesNames := set_option maxRecDepth 2000 in ⟨_, rfl⟩

theorem instances_of_check_sharesNames : ∃ p c, Program.parse sharesNames = .ok p ∧ p.DotFree ∧
    builtin.check p = .ok c ∧
    (p.instances.map fun q => (q.1, q.2.name.text)) =
      [(none, "r"), (none, "x"), (some "C", "r"), (some "D", "r"), (some "D", "x")] ∧
    (p.instances.map fun q => qualifiedName q.1 q.2.name.text).Perm c.instances.names ∧
    c.instances.names = ["C.r", "D.r", "D.x", "r", "x"] ∧
    ∀ q ∈ p.instances, ∃ i, c.instance? (qualifiedName q.1 q.2.name.text) = some i ∧
      i.component = q.1 ∧ i.span = q.2.span := by
  have hrun : ((Program.parse sharesNames).toOption.any fun p =>
      (builtin.check p).toOption.any fun c => decide (
        (p.instances.map fun q => (q.1, q.2.name.text)) =
          [(none, "r"), (none, "x"), (some "C", "r"), (some "D", "r"), (some "D", "x")] ∧
        c.instances.names = ["C.r", "D.r", "D.x", "r", "x"])) = true := by
    decide +kernel
  obtain ⟨p, c, hprs, hc, hfacts⟩ := exists_of_run hrun
  obtain ⟨hdecl, hnms⟩ := of_decide_eq_true hfacts
  have hp := Program.dotFree_of_parse hprs
  obtain ⟨-, hperm, hent⟩ := instances_of_check hp hc
  refine ⟨p, c, hprs, hp, hc, hdecl, hperm, hnms, fun q hq => ?_⟩
  obtain ⟨i, hi, -, hcomp, hspan⟩ := hent q hq
  exact ⟨i, hi, hcomp, hspan⟩

end Checker

end Provision
