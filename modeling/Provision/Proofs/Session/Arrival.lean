import Provision.Proofs.Session.Declarations
import Provision.Proofs.Session.Shape

/-!
# The way through a program

The check of a program comes to every declaration in turn, with a session in which the names mean
what they mean there (`Checker.Arrives`). It comes to every one of them
(`Session.Underway.exists_arrives`), and what it finds out about a declaration is still known at the
end (`Session.Underway.arrived`).
-/

namespace Provision

open List

variable {ds : List Decl}

def Checker.registered (k : Checker) (p : Program) : Session :=
  ((Session.registerProgram p.items).run ((Session.walkShapes k p.items).run {}).2).2

def Checker.checked (k : Checker) (p : Program) : Session :=
  ((Session.checkDecls k p.items).run (k.registered p)).2

namespace Session

variable {k : Checker} {p : Program} {s t : Session} {d : Decl}

/-! ### At the top level -/

/-- The check is at the top level, and every declaration waits for it or was checked already. -/
structure Underway (p : Program) (s : Session) : Prop extends Working p s where
  component_none : s.component = none
  reader_none : s.reader = none
  item : ∀ {d}, d ∈ p.items → Awaits p s s.body none d
  member : ∀ {decs name body span}, .component decs name body span ∈ p.items →
    s.isRegistered name ∧ ∃ info, Table.find? s.components name.text = some info ∧
      ∀ d ∈ body, Awaits p s info.scope (some name.text) d ∧ d.isComponent = false

theorem Underway.advances (hs : Underway p s) (h : Advances p s t) : Underway p t where
  toWorking := hs.toWorking.advances h
  component_none := h.component.trans hs.component_none
  reader_none := h.reader.trans hs.reader_none
  item hd := by
    rw [h.body]
    exact (hs.item hd).grows h.toGrows
  member hc := by
    obtain ⟨hreg, info, hinfo, hbody⟩ := hs.member hc
    obtain ⟨info', hinfo', -, hsc⟩ := h.component_find? hinfo
    refine ⟨isRegistered_mono h.toStays hreg, info', hinfo', fun d hd => ?_⟩
    obtain ⟨hawaits, hflat⟩ := hbody d hd
    exact ⟨hsc ▸ hawaits.grows h.toGrows, hflat⟩

theorem Prepared.awaits (hs : Prepared p s) {c : Option String} (hbody : p.Body c ds)
    {scope : ScopeId} (hb : s.BodyAt scope c) (hd : d ∈ ds) : Awaits p s scope c d := by
  obtain ⟨scope', hb', hready⟩ := hs.ready hbody
  obtain rfl := hs.unique hb hb'
  refine ⟨hready d hd, fun {n} hn => ⟨?_, ds, hbody, d, hd, hn⟩,
    fun {n} hn => ⟨ds, hbody, d, hd, hn⟩⟩
  obtain ⟨kind, hkind⟩ := (hready d hd (Decl.isMember_of_instanceName? hn)).2.kindAt hn
  exact (hs.entered hkind hb).dependencies?

theorem Prepared.underway (hs : Prepared p s) (hreader : s.reader = none) : Underway p s where
  toLinked := hs.toIndexed.linked
  bodyAt := hs.bodyAt
  current := Or.inl hs.current
  reader hr := by
    rw [hreader] at hr
    cases hr
  atBody := hs.current
  component_none := hs.component_none
  reader_none := hreader
  item hd := hs.awaits .top (hs.component_none ▸ hs.bodyAt) hd
  member {decs name body span} hc := by
    obtain ⟨scope, hb, -⟩ := hs.ready (.component hc)
    obtain ⟨info, hinfo, rfl⟩ := hs.hasComponent hb
    exact ⟨(hs.isDefined hc).1, info, hinfo,
      fun d hd => ⟨hs.awaits (.component hc) hb hd, hs.flat hc d hd⟩⟩

/-! ### In the body of a component -/

/-- The session at the start of the body of a component, after its decorators. -/
def atStart (k : Checker) (s : Session) (decs : List Decoration) (name : Ident)
    (scope : ScopeId) : Session :=
  ((runDecorators k decs ⟨.component, name.text, true⟩ (s.boundType name) none).run
    s).2.inside name.text scope

theorem run_checkDecl_component {decs : List Decoration} {name : Ident} {body : List Decl}
    {span : Span} {info : ComponentInfo} (hreg : s.isRegistered name)
    (hinfo : Table.find? s.components name.text = some info) :
    ((checkDecl k (.component decs name body span)).run s).2 =
      ((runDecorators k decs ⟨.component, name.text, true⟩ (s.boundType name) none).run
        s).2.outside ((checkDecls k body).run (s.atStart k decs name info.scope)).2 := by
  rw [checkDecl, run_ifRegistered name hreg, run_get_bind]
  rw [run_bind]
  have hinfo' : s.components.find? name.text = some info := hinfo
  rw [hinfo']
  rfl

theorem Advances.outside {comp : String} {scope : ScopeId}
    (h : Advances p (s.inside comp scope) t) (hin : Linking p (s.inside comp scope))
    (hnone : s.component = none) : Advances p s (s.outside t) := by
  have hgr := h.toGrows.outside hnone
  refine ⟨hgr, h.bodyAt_of, h.depends, fun hs => ?_⟩
  exact hs.of_linked ((h.linking hin).toLinked.agrees (agrees_outside s t)) hgr h.bodyAt_of

theorem Underway.inside (hs : Underway p s) {decs : List Decoration} {name : Ident}
    {body : List Decl} {span : Span} {info : ComponentInfo}
    (hc : .component decs name body span ∈ p.items)
    (hinfo : Table.find? s.components name.text = some info) :
    Working p (s.inside name.text info.scope) ∧
      ∀ d ∈ body, Awaits p (s.inside name.text info.scope) info.scope (some name.text) d ∧
        d.isComponent = false := by
  obtain ⟨-, info', hinfo', hbody⟩ := hs.member hc
  obtain rfl := Option.some.inj (hinfo.symm.trans hinfo')
  have hreader : ∀ {r}, (s.inside name.text info.scope).reader = some r →
      IsReader p (s.inside name.text info.scope) r := by
    intro r hr
    have hr' : s.reader = some r := hr
    rw [hs.reader_none] at hr'
    cases hr'
  have hlnk := hs.toLinked.agrees (agrees_inside s name.text info.scope)
  refine ⟨⟨⟨hlnk, hs.component hinfo, Or.inl rfl, hreader⟩, rfl⟩, fun d hd => ?_⟩
  obtain ⟨⟨hready, hlst, hdecl⟩, hflat⟩ := hbody d hd
  exact ⟨⟨hready, hlst, hdecl⟩, hflat⟩

section Component

variable {decs : List Decoration} {name : Ident} {body : List Decl} {span : Span}
  {info : ComponentInfo}

theorem Underway.atStart (hs : Underway p s) (hc : .component decs name body span ∈ p.items)
    (hinfo : Table.find? s.components name.text = some info) :
    Working p (s.atStart k decs name info.scope) ∧
      ∀ d ∈ body, Awaits p (s.atStart k decs name info.scope) info.scope (some name.text) d ∧
        d.isComponent = false := by
  have hfr := frame_runDecorators (k := k) decs ⟨.component, name.text, true⟩
    (s.boundType name) none s
  exact (hs.advances (.of_frame hfr)).inside hc (hfr.components ▸ hinfo)

theorem Underway.advances_component (hs : Underway p s)
    (hc : .component decs name body span ∈ p.items) :
    Advances p s ((checkDecl k (.component decs name body span)).run s).2 := by
  obtain ⟨hreg, info, hinfo, -⟩ := hs.member hc
  obtain ⟨hworking, hbody⟩ := hs.atStart (k := k) hc hinfo
  have hfr := frame_runDecorators (k := k) decs ⟨.component, name.text, true⟩
    (s.boundType name) none s
  have hmems := advances_members (k := k) hworking hbody
  rw [run_checkDecl_component hreg hinfo]
  exact (Advances.of_frame hfr).trans
    (hmems.outside hworking.toLinking (hfr.component.trans hs.component_none))

end Component

theorem Underway.advances_checkDecl (hs : Underway p s) (hd : d ∈ p.items) :
    Advances p s ((checkDecl k d).run s).2 := by
  cases hflat : d.isComponent with
  | false =>
    have hawaits : Awaits p s s.body s.component d := by
      rw [hs.component_none]
      exact hs.item hd
    exact (settles_checkDecl hs.toWorking hawaits hflat).advances
  | true =>
    cases d with
    | component decs name body span => exact hs.advances_component hd
    | _ => cases hflat

theorem Underway.advances_checkDecls (hs : Underway p s) (hds : ds ⊆ p.items) :
    Advances p s ((checkDecls k ds).run s).2 := by
  induction ds generalizing s with
  | nil =>
    rw [checkDecls, run_pure]
    exact Std.Refl.refl s
  | cons d ds ih =>
    rw [checkDecls, run_bind]
    have hfst : Advances p s ((checkDecl k d).run s).2 :=
      hs.advances_checkDecl (hds mem_cons_self)
    exact hfst.trans (ih (hs.advances hfst) fun d' hd' => hds (mem_cons_of_mem d hd'))

end Session

/-! ### Arrivals -/

/-- The check of a program comes to a declaration of a body in a session. -/
inductive Checker.Arrives (k : Checker) (p : Program) : Option String → Decl → Session → Prop
  | top {before after : List Decl} {d : Decl} (h : p.items = before ++ d :: after) :
      Arrives k p none d ((Session.checkDecls k before).run (k.registered p)).2
  | member {decs : List Decoration} {name : Ident} {body : List Decl} {span : Span}
      {s : Session} {info : ComponentInfo} {before after : List Decl} {d : Decl}
      (h : Arrives k p none (.component decs name body span) s)
      (hinfo : Table.find? s.components name.text = some info)
      (hbody : body = before ++ d :: after) :
      Arrives k p (some name.text) d
        ((Session.checkDecls k before).run (s.atStart k decs name info.scope)).2

namespace Session

variable {k : Checker} {p : Program} {s t u : Session} {d : Decl} {c : Option String}

/-- What is known in one session is known in another. -/
structure Lasts (s t : Session) : Prop where
  findings : t.findings = [] → s.findings = []
  scopes : s.scopes.Persists t.scopes
  depends : ∀ {x y}, s.Depends x y → t.Depends x y
  needs : ∀ {comp x}, s.Needs comp x → t.Needs comp x

theorem Advances.lasts (h : Advances p s t) : Lasts s t :=
  ⟨h.findings_eq_nil, h.scopes, h.depends, h.needs⟩

theorem Lasts.trans (h : Lasts s t) (h' : Lasts t u) : Lasts s u :=
  ⟨h.findings ∘ h'.findings, h.scopes.trans h'.scopes, h'.depends ∘ h.depends, h'.needs ∘ h.needs⟩

theorem lasts_outside (s t : Session) : Lasts t (s.outside t) :=
  ⟨id, (Scopes.keeps_enter _ _).toPersists, id, id⟩

/-- The check came to a declaration that waited for it, and what was found out lasts. -/
structure Arrived (k : Checker) (p : Program) (c : Option String) (d : Decl) (s : Session) :
    Prop extends Working p s where
  component_eq : s.component = c
  awaits : Awaits p s s.body s.component d
  halted : s.halted = (k.registered p).halted
  registered : (k.registered p).registered ⊆ s.registered
  scopes : (k.registered p).scopes.Persists s.scopes
  bodies : ∀ {scope c}, (k.registered p).BodyAt scope c → s.BodyAt scope c
  component_find? : ∀ {n i}, Table.find? (k.registered p).components n = some i →
    ∃ j, Table.find? s.components n = some j ∧ j.body = i.body
  flat : c ≠ none → d.isComponent = false
  advances : Advances p s ((checkDecl k d).run s).2
  lasts : Lasts ((checkDecl k d).run s).2 (k.checked p)

theorem Underway.atItem (hr : Underway p (k.registered p)) {before after : List Decl}
    (h : p.items = before ++ d :: after) :
    Advances p (k.registered p) ((checkDecls k before).run (k.registered p)).2 ∧
      Advances p ((checkDecl k d).run ((checkDecls k before).run (k.registered p)).2).2
        (k.checked p) := by
  have hbef : Advances p (k.registered p) ((checkDecls k before).run (k.registered p)).2 :=
    hr.advances_checkDecls fun d' hd' => h ▸ mem_append_left _ hd'
  have hs := hr.advances hbef
  have hd : Advances p _ ((checkDecl k d).run ((checkDecls k before).run (k.registered p)).2).2 :=
    hs.advances_checkDecl (h ▸ mem_append_right _ mem_cons_self)
  refine ⟨hbef, ?_⟩
  rw [Checker.checked, h, run_checkDecls_append, run_checkDecls_cons]
  exact (hs.advances hd).advances_checkDecls
    fun d' hd' => h ▸ mem_append_right _ (mem_cons_of_mem d hd')

/-- The check gets to each member, and from there to the end. -/
theorem Working.atMember (hs : Working p s) {before after : List Decl}
    (hds : ∀ d' ∈ before ++ d :: after, Awaits p s s.body s.component d' ∧ d'.isComponent = false) :
    Advances p s ((checkDecls k before).run s).2 ∧
      Advances p ((checkDecl k d).run ((checkDecls k before).run s).2).2
        ((checkDecls k (before ++ d :: after)).run s).2 := by
  have hbef : Advances p s ((checkDecls k before).run s).2 :=
    advances_members hs fun d' hd' => hds d' (mem_append_left _ hd')
  have hrest : ∀ {t}, Advances p s t → ∀ d' ∈ d :: after,
      Awaits p t t.body t.component d' ∧ d'.isComponent = false := by
    intro t ht d' hd'
    rw [ht.body, ht.component]
    obtain ⟨hawaits, hflat⟩ := hds d' (mem_append_right _ hd')
    exact ⟨hawaits.grows ht.toGrows, hflat⟩
  obtain ⟨hawaits, hflat⟩ := hrest hbef d mem_cons_self
  have hd := (settles_checkDecl (k := k) (hs.advances hbef) hawaits hflat).advances
  refine ⟨hbef, ?_⟩
  rw [run_checkDecls_append, run_checkDecls_cons]
  exact advances_members ((hs.advances hbef).advances hd)
    fun d' hd' => hrest (hbef.trans hd) d' (mem_cons_of_mem d hd')

/-- Whatever the check comes to has waited for it. -/
theorem Underway.arrived (hr : Underway p (k.registered p)) (h : k.Arrives p c d s) :
    Arrived k p c d s := by
  cases h with
  | top h =>
    obtain ⟨hbef, haft⟩ := hr.atItem h
    have hs := hr.advances hbef
    have hd : d ∈ p.items := h ▸ mem_append_right _ mem_cons_self
    refine ⟨hs.toWorking, hs.component_none, ?_, hbef.halted, hbef.registered,
      hbef.scopes, hbef.bodyAt, fun hi => ?_, fun hc => absurd rfl hc,
      hs.advances_checkDecl hd, haft.lasts⟩
    · rw [hs.component_none]
      exact hs.item hd
    · obtain ⟨j, hj, hsame, -⟩ := hbef.component_find? hi
      exact ⟨j, hj, hsame⟩
  | @member decs name body span _ info before after _ h hinfo hbody =>
    cases h with
    | @top before₀ after₀ _ h =>
      obtain ⟨hbef, haft⟩ := hr.atItem h
      have hs₀ := hr.advances hbef
      have hc : .component decs name body span ∈ p.items :=
        h ▸ mem_append_right _ mem_cons_self
      generalize ((checkDecls k before₀).run (k.registered p)).2 = s₀ at *
      rw [run_checkDecl_component (hs₀.member hc).1 hinfo] at haft
      have hfr := frame_runDecorators (k := k) decs ⟨.component, name.text, true⟩
        (s₀.boundType name) none s₀
      subst hbody
      obtain ⟨hworking, hawaits⟩ := hs₀.atStart (k := k) hc hinfo
      obtain ⟨hfst, hlast⟩ := hworking.atMember (k := k) hawaits
      obtain ⟨hd, hflat⟩ := hawaits d (mem_append_right _ mem_cons_self)
      have hscs : (k.registered p).scopes.Persists
          (s₀.atStart k decs name info.scope).scopes :=
        (hbef.scopes.trans hfr.grows.scopes).trans (Scopes.keeps_enter _ _).toPersists
      have hs := hworking.advances hfst
      have hawaits' : Awaits p
          ((checkDecls k before).run (s₀.atStart k decs name info.scope)).2
          ((checkDecls k before).run (s₀.atStart k decs name info.scope)).2.body
          ((checkDecls k before).run (s₀.atStart k decs name info.scope)).2.component d := by
        rw [hfst.body, hfst.component]
        exact hd.grows hfst.toGrows
      refine ⟨hs, hfst.component, hawaits',
        hfst.halted.trans (hfr.halted.trans hbef.halted),
        Subset.trans (Subset.trans hbef.registered hfr.registered)
          hfst.registered, hscs.trans hfst.scopes,
        fun hb => hfst.bodyAt (hfr.bodyAt.mpr (hbef.bodyAt hb)), fun hi => ?_,
        fun _ => hflat, (settles_checkDecl hs hawaits' hflat).advances,
        (hlast.lasts.trans (lasts_outside _ _)).trans haft.lasts⟩
      obtain ⟨i', hi', hsame, -⟩ := hbef.component_find? hi
      obtain ⟨j, hj, hsame', -⟩ := hfst.component_find? (hfr.components ▸ hi')
      exact ⟨j, hj, hsame'.trans hsame⟩

theorem Underway.exists_start (hr : Underway p (k.registered p))
    (hbody : p.Body c ds) : ∃ s, ∀ {before d after}, ds = before ++ d :: after →
      k.Arrives p c d ((checkDecls k before).run s).2 := by
  cases hbody with
  | top => exact ⟨k.registered p, .top⟩
  | component hc =>
    obtain ⟨before₀, after₀, h₀⟩ := append_of_mem hc
    obtain ⟨hbef, -⟩ := hr.atItem h₀
    obtain ⟨-, info, hinfo, -⟩ := (hr.advances hbef).member hc
    exact ⟨_, .member (.top h₀) hinfo⟩

theorem Underway.exists_arrives (hr : Underway p (k.registered p)) (hbody : p.Body c ds)
    (hd : d ∈ ds) : ∃ s, k.Arrives p c d s := by
  obtain ⟨s, hs⟩ := hr.exists_start (k := k) hbody
  obtain ⟨before, after, h⟩ := append_of_mem hd
  exact ⟨_, hs h⟩

end Session

end Provision
