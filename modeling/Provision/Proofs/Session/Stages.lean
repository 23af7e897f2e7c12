import Provision.Proofs.Session.Introduction
import Provision.Proofs.Session.Rounds

/-!
# The stages of registration

Registration binds the types of the top level, then defines the components one by one, then
registers the members of their bodies, and last those of the top level. `Session.Comes` gives the
session in which it comes to a member: it is coherent, and what the member is bound to then it stays
bound to (`Session.Comes.spec`).

Without findings all schemas and aliases are bound (`Session.isSome_of_mem_typeNames`): aliases are
bound round by round, and a round that binds none of them ends in a finding.
-/

namespace Provision.Session

open List

variable {p : Program} {s t : Session}

/-! ### Aliases -/

/-- A name that was free was bound to what a written type meant at that moment, and it still is. -/
def Assigned (s t : Session) (a : AliasDecl) : Prop :=
  ∃ u type type', u.Regular ∧ Retains s u ∧ u.resolveType a.type = .ok type ∧
    Table.find? (u.scopes.bindings s.scopes.current) a.name.text = none ∧
    Table.find? (t.scopes.bindings s.scopes.current) a.name.text = some type' ∧
    type'.properties? = type.properties? ∧ type'.core = type.core

theorem Assigned.mono {u v : Session} {a : AliasDecl} (hs : Retains s u) (h : Assigned u t a)
    (ht : Retains t v) : Assigned s v a := by
  obtain ⟨w, type, type', hw, huw, hty, hfree, hbd, hprops, hcore⟩ := h
  rw [hs.current] at hfree hbd
  obtain ⟨type'', hbd', hprops', hcore'⟩ := ht.bound hbd
  exact ⟨w, type, type'', hw, IsTrans.trans (r := Retains) _ _ _ hs huw, hty, hfree, hbd',
    hprops'.trans hprops, hcore'.trans hcore⟩

theorem assigned_of_grown (hs : s.Regular) {as : List AliasDecl} {bs : Table Ty}
    (h : Grown s as bs) :
    ∀ n ∈ bs.names, ∃ a ∈ as, a.name.text = n ∧ Assigned s (s.withAliases bs) a := by
  induction h with
  | nil => exact forall_mem_nil _
  | @cons a type bs h ha hfree hty ih =>
    have hrgl := (h.moves binds_types.toBinds hs).2
    have hrtn := h.moves binds_retains.toBinds
    have hstep : Retains (s.withAliases bs) (s.withAliases ((a.name.text, type) :: bs)) :=
      binds_retains.bindAlias trivial hty hfree
    have hbd : Table.find? ((s.withAliases ((a.name.text, type) :: bs)).scopes.bindings
        s.scopes.current) a.name.text = some type := by
      rw [← hrtn.current]
      exact Scopes.find?_bindings_set.trans (if_pos ⟨rfl, hrgl.current_lt, rfl⟩)
    refine forall_mem_cons.mpr ⟨⟨a, ha, rfl, _, type, type, hrgl, hrtn, hty, ?_,
      hbd, rfl, rfl⟩, fun n hn => ?_⟩
    · rw [← hrtn.current]
      exact hfree
    · obtain ⟨b, hb, hnm, hasg⟩ := ih n hn
      exact ⟨b, hb, hnm, hasg.mono (Std.Refl.refl s) hstep⟩

theorem assigned_registerAliases (hs : s.Regular) {rounds : Nat} {as : List AliasDecl}
    (hrounds : as.length < rounds)
    (hfs : ((registerAliases rounds as).run s).2.findings = []) :
    ∀ a ∈ as, Assigned s ((registerAliases rounds as).run s).2 a := by
  obtain ⟨bs, hrun, hgrown, hnms, hnd, -⟩ :=
    grown_registerAliases hs.current_lt hrounds hfs
  intro a ha
  obtain ⟨b, hb, hnm, hasg⟩ := assigned_of_grown hs hgrown a.name.text
    (hnms.mem_iff.mpr (mem_map_of_mem ha))
  rw [hrun]
  exact inj_on_of_nodup_map hnd hb ha hnm ▸ hasg

/-- Without findings the schemas and aliases among declarations are bound. -/
theorem isSome_of_mem_typeNames (hs : s.Regular) {ds : List Decl}
    (hfs : ((registerTypes ds).run s).2.findings = []) {n : String}
    (hn : n ∈ Decl.typeNames ds) :
    (Table.find? (((registerTypes ds).run s).2.scopes.bindings s.scopes.current) n).isSome := by
  obtain ⟨d, hd, hnm⟩ := Decl.mem_typeNames.mp hn
  cases d with
  | schema d =>
    cases hnm
    obtain ⟨type, -, hty, -⟩ := (filled_registerTypes hs hfs hd).bound
    exact Option.isSome_iff_exists.mpr ⟨type, hty⟩
  | «alias» a =>
    cases hnm
    obtain ⟨hfr, hrgl⟩ := types_declareSchemas ds s hs
    obtain ⟨-, hrgl'⟩ := types_registerAliases ((aliasesOf ds).length + 1) (aliasesOf ds) _
      hrgl
    obtain ⟨hfill, -⟩ := types_fillSchemas ds _ hrgl'
    obtain ⟨-, -, type, -, -, -, -, hbd, -⟩ := assigned_registerAliases hrgl
      (Nat.lt_succ_self _) (hfill.findings_eq_nil hfs) a (mem_aliasesOf.mpr hd)
    rw [hfr.current] at hbd
    exact hfill.scopes.toPersists.isSome_find? (Option.isSome_iff_exists.mpr ⟨type, hbd⟩)
  | _ => cases hnm

/-! ### Coming to a member -/

/-- The session after the types of the top level are bound. -/
def typed (p : Program) (s : Session) : Session := ((registerTypes p.items).run s).2

/-- The components of a program, and the session after they are defined. -/
def defining (p : Program) (s : Session) : List Defined × Session :=
  (defineComponents p.items).run (typed p s)

/-- The session after some components have had their bodies registered. -/
def bodied (p : Program) (s : Session) (cs : List Defined) : Session :=
  ((registerBodies cs).run (defining p s).2).2

/-- The registration of a program comes to a member of a body, some others before it. -/
inductive Comes (p : Program) (s : Session) : Option String → List Decl → Decl → Session → Prop
  | top {earlier later : List Decl} {d : Decl} (h : p.items = earlier ++ d :: later) :
      Comes p s none earlier d ((registerMembers earlier).run (bodied p s (defining p s).1)).2
  | member {c : Defined} {cs cs' : List Defined} {earlier later : List Decl} {d : Decl}
      (hcs : (defining p s).1 = cs ++ c :: cs') (h : c.body = earlier ++ d :: later) :
      Comes p s (some c.name.text) earlier d
        ((registerMembers earlier).run ((bodied p s cs).inside c.name.text c.scope)).2

theorem run_registerProgram (p : Program) (s : Session) :
    ((registerProgram p.items).run s).2 =
      ((registerMembers p.items).run (bodied p s (defining p s).1)).2 := rfl

theorem run_registerBodies_append (cs cs' : List Defined) (s : Session) :
    ((registerBodies (cs ++ cs')).run s).2 =
      ((registerBodies cs').run ((registerBodies cs).run s).2).2 := by
  induction cs generalizing s with
  | nil => rfl
  | cons c cs ih =>
    rw [cons_append, registerBodies, run_bind, ih, registerBodies, run_bind]

/-- What is bound in one session is bound in another, a schema with its properties. -/
def Lasting (s t : Session) : Prop :=
  ∀ ⦃scope n type⦄, Table.find? (s.scopes.bindings scope) n = some type →
    ∃ type', Table.find? (t.scopes.bindings scope) n = some type' ∧
      type'.properties? = type.properties? ∧ type'.core = type.core

/-- Registration comes to a member in a session that is fit for it, and what the member is bound to
then lasts. -/
structure Coming (p : Program) (t : Session) (c : Option String) (d : Decl) (s : Session) :
    Prop extends Registering p s where
  coherent : s.Coherent
  component_eq : s.component = c
  atBody : t.BodyAt s.body c
  findings : (s.enlist d).findings = []
  lasting : Lasting (s.enlist d) t

theorem Retains.lasting (h : Retains s t) : Lasting s t := fun _ _ _ => h.bound

theorem Lasting.trans {u : Session} (h : Lasting s t) (h' : Lasting t u) : Lasting s u := by
  intro scope n type hbd
  obtain ⟨type', hty', hprops, hcore⟩ := h hbd
  obtain ⟨type'', hty'', hprops', hcore'⟩ := h' hty'
  exact ⟨type'', hty'', hprops'.trans hprops, hcore'.trans hcore⟩

/-- A member is bound when registration comes to it, for good. -/
theorem coming_of_registerMembers (earlier later : List Decl) (d : Decl) (hs : Registering p s)
    (hcoh : s.Coherent)
    (hds : ∀ d' ∈ earlier ++ d :: later, ∀ n, d'.instanceName? = some n →
      p.DeclaresInstance s.component n)
    (hnil : ((registerMembers (earlier ++ d :: later)).run s).2.findings = [])
    (ht : Lasting ((registerMembers (earlier ++ d :: later)).run s).2 t)
    (hbody : t.BodyAt s.body s.component) :
    Coming p t s.component d ((registerMembers earlier).run s).2 := by
  have hearl := registers_members earlier hs fun d' hd' => hds d' (mem_append_left _ hd')
  have hrest : ∀ d' ∈ d :: later, ∀ n, d'.instanceName? = some n →
      p.DeclaresInstance ((registerMembers earlier).run s).2.component n := fun d' hd' n hn =>
    hearl.grows.component ▸ hds d' (mem_append_right _ hd') n hn
  have hone := registers_members [d] hearl.registering fun d' hd' =>
    hrest d' (mem_singleton.mp hd' ▸ mem_cons_self)
  have hlater := registers_members later hone.registering fun d' hd' n hn =>
    hone.grows.component ▸ hrest d' (mem_cons_of_mem d hd') n hn
  rw [run_registerMembers_append, run_registerMembers_cons] at hnil ht
  obtain ⟨-, hcoh'⟩ := introducing_registerMembers (W := fun _ _ => True)
    (A := fun _ => False) earlier (fun _ _ => trivial) s rfl hcoh
  exact { hearl.registering with
    coherent := hcoh'
    component_eq := hearl.grows.component
    atBody := hearl.grows.body ▸ hbody
    findings := hlater.grows.findings_eq_nil hnil
    lasting := (retains_registerMembers later _).lasting.trans ht }

theorem lasting_registerBody (c : Defined) (s : Session) :
    Lasting ((registerMembers c.body).run (s.inside c.name.text c.scope)).2
      ((registerBody c).run s).2 := by
  obtain ⟨nested, hrun⟩ := run_registerBody c s
  have hsame : ∀ type, (withNested nested type).properties? = type.properties? ∧
      (withNested nested type).core = type.core := fun type => by
    cases type <;> exact ⟨rfl, rfl⟩
  rw [hrun]
  exact (retains_modify c.name.text hsame (s.outside ((registerMembers c.body).run
    (s.inside c.name.text c.scope)).2)).lasting

section Coming

variable (hs : AtTop p s)
include hs

theorem atTop_typed : AtTop p (typed p s) := (hs.registerTypes p.items).2

theorem definesAll_defining : DefinesAll p (typed p s) p.items (defining p s) :=
  defines_components p.items (atTop_typed hs)

theorem atTop_defining : AtTop p (defining p s).2 :=
  (atTop_typed hs).grows (definesAll_defining hs).grows (definesAll_defining hs).registering

theorem knows_of_mem {c : Defined} (hc : c ∈ (defining p s).1) :
    (defining p s).2.Knows c ∧ p.Body (some c.name.text) c.body := by
  obtain ⟨⟨decs, span, hmem⟩, hknows⟩ := (definesAll_defining hs).defined c hc
  exact ⟨hknows, .component hmem⟩

theorem scope_lt_of_mem_defining {c : Defined} (hc : c ∈ (defining p s).1) :
    c.scope < (defining p s).2.scopes.all.length := by
  obtain ⟨⟨i, hi, -, hsc⟩, -⟩ := knows_of_mem hs hc
  exact hsc ▸ (atTop_defining hs).lt ((atTop_defining hs).component hi).1

theorem atTop_bodied {cs : List Defined} (hcs : cs ⊆ (defining p s).1) :
    Grows (defining p s).2 (bodied p s cs) ∧ AtTop p (bodied p s cs) := by
  obtain ⟨hgr, hregs, -⟩ := registers_bodies cs (atTop_defining hs)
    fun c hc => knows_of_mem hs (hcs hc)
  exact ⟨hgr, (atTop_defining hs).grows hgr hregs⟩

theorem grows_registerProgram :
    Grows (defining p s).2 ((registerProgram p.items).run s).2 := by
  obtain ⟨hgr, hall⟩ := atTop_bodied hs (Subset.refl (defining p s).1)
  exact hgr.trans (hall.registerMembers (Subset.refl p.items)).grows

theorem bodyAt_global : ((registerProgram p.items).run s).2.BodyAt ScopeId.global none :=
  (grows_registerProgram hs).bodyAt (atTop_defining hs).top

theorem coherent_bodied (hcoh : s.Coherent) {cs : List Defined}
    (hcs : cs ⊆ (defining p s).1) : (bodied p s cs).Coherent := by
  obtain ⟨-, htyd⟩ := introducing_registerTypes (W := fun _ _ => True) (A := fun _ => True)
    p.items (fun _ _ => trivial) trivial s rfl hcoh
  obtain ⟨-, hdfn⟩ := introduces_defineComponents (W := fun _ _ => True)
    (A := fun _ => True) p.items htyd (atTop_typed hs).current_eq_global
    (fun _ _ => ⟨trivial, fun _ => trivial⟩) fun _ _ => trivial
  exact (introduces_registerBodies (W := fun _ _ => True) (A := fun _ => True) hdfn
    (fun _ hc => scope_lt_of_mem_defining hs (hcs hc)) fun _ _ _ _ => trivial).2

/-- Registration is fit for every member that it comes to. -/
theorem Comes.spec (hcoh : s.Coherent)
    (hnil : ((registerProgram p.items).run s).2.findings = []) {comp : Option String}
    {earlier : List Decl} {d : Decl} {u : Session} (h : Comes p s comp earlier d u) :
    Coming p ((registerProgram p.items).run s).2 comp d u := by
  obtain ⟨-, hall⟩ := atTop_bodied hs (Subset.refl (defining p s).1)
  have hmems := hall.registerMembers (Subset.refl p.items)
  cases h with
  | @top earlier later d h =>
    have hcoming := coming_of_registerMembers (t := ((registerProgram p.items).run s).2)
      earlier later d hall.toRegistering
      (coherent_bodied hs hcoh (Subset.refl _))
      (fun d' hd' n hn => ⟨p.items, hall.component_none ▸ .top, d', h ▸ hd', hn⟩)
      (h ▸ hnil) ((retains_of_scopes (by rw [run_registerProgram, h])).lasting)
      (hmems.grows.bodyAt hall.bodyAt)
    rwa [hall.component_none] at hcoming
  | @member c cs cs' earlier later d hcs h =>
    have hbef : cs ⊆ (defining p s).1 := hcs ▸ subset_append_left cs (c :: cs')
    have hc : c ∈ (defining p s).1 := hcs ▸ mem_append_right _ mem_cons_self
    obtain ⟨hgr, htop⟩ := atTop_bodied hs hbef
    obtain ⟨hknows, hbody⟩ := knows_of_mem hs hc
    have hins := htop.inside (hknows.grows hgr)
    have hcoh' := coherent_bodied hs hcoh hbef
    -- from the body of this component to the end
    have hone := registers_body htop (hknows.grows hgr) hbody
    obtain ⟨hrest, -, -⟩ := registers_bodies cs'
      (htop.grows hone.grows hone.registering) fun c' hc' => by
        obtain ⟨hknows', hbody'⟩ := knows_of_mem hs
          (hcs ▸ mem_append_right cs (mem_cons_of_mem c hc'))
        exact ⟨(hknows'.grows hgr).grows hone.grows, hbody'⟩
    have hlast : bodied p s (defining p s).1 =
        ((registerBodies cs').run ((registerBody c).run (bodied p s cs)).2).2 := by
      rw [bodied, hcs, run_registerBodies_append, registerBodies, run_bind]
      rfl
    have hnil' : ((registerMembers c.body).run
        ((bodied p s cs).inside c.name.text c.scope)).2.findings = [] :=
      hrest.findings_eq_nil (hlast ▸ hmems.grows.findings_eq_nil hnil)
    have hlasting : Lasting ((registerMembers c.body).run
        ((bodied p s cs).inside c.name.text c.scope)).2 ((registerProgram p.items).run s).2 := by
      refine (lasting_registerBody c _).trans ((retains_registerBodies cs' _).lasting.trans ?_)
      rw [← hlast, run_registerProgram]
      exact (retains_registerMembers p.items _).lasting
    rw [h] at hnil' hlasting
    refine coming_of_registerMembers earlier later d hins
      ⟨hins.current_lt, hcoh'.alias_flat, hcoh'.conforms⟩
      (fun d' hd' n hn => ⟨c.body, hbody, d', h ▸ hd', hn⟩) hnil' hlasting ?_
    rw [run_registerProgram]
    exact hmems.grows.bodyAt (hlast ▸ (hone.grows.trans hrest).bodyAt hins.bodyAt)

end Coming

end Provision.Session
