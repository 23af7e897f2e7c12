import Provision.Proofs.Instances
import Provision.Proofs.Session.Typing
import Provision.Proofs.Signatures
import Provision.Proofs.Stability

/-!
# Which types can be seen from a body

In the body of a component a name of the top level can be used until the body binds it itself. When
one of its members is registered, the body has bound its types and the members before it
(`Session.exists_comes_visible`). When the member is checked, it has bound all its members, and
besides the variables before it that have no written type
(`Checker.Accepted.exists_arrives_visible`).
-/

namespace Provision

open List Table

namespace Decl

/-- The names that a body has bound when registration comes to the first declaration of `later`. -/
def namesAtRegistration (earlier later : List Decl) : List String :=
  typeNames (earlier ++ later) ++ memberNames earlier

/-- The names that it has bound when the check comes to it. -/
def namesAtCheck (earlier later : List Decl) : List String :=
  typeNames (earlier ++ later) ++ memberNames (earlier ++ later) ++ earlier.filterMap variableName?

end Decl

/-- From the body of `c` one sees the names of the body itself, and those of the top level that it
has not taken. -/
def Visible (c : Option String) (taken : List String) (home : Option String) (n : String) : Prop :=
  home = c ∨ home = none ∧ n ∉ taken

namespace Session

variable {k : Checker} {p : Program} {s t u x : Session} {σ : ScopeId} {c home : Option String}
  {d : Decl} {earlier later : List Decl}

/-! ### When a member is registered -/

section Registration

variable (hs : AtTop p s) (hcoh : s.Coherent)
  (hempty : ∀ scope n, find? (s.scopes.bindings scope) n = none)
  (hnil : ((registerProgram p.items).run s).2.findings = [])
include hs hnil

theorem nodup_componentNames_of_registerProgram : (Decl.componentNames p.items).Nodup :=
  (nodup_componentNames p.items (atTop_typed hs)
    ((grows_registerProgram hs).findings_eq_nil hnil)).1

include hcoh hempty

/-- Registration comes to a member of a body in a session that finds a visible type in the scope of
the body that declares it. -/
theorem exists_comes_visible (hbody : p.Body c (earlier ++ d :: later)) :
    ∃ u, Comes p s c earlier d u ∧ ∀ {home ds n scope type}, p.Body home ds →
      n ∈ Decl.typeNames ds → Visible c (Decl.namesAtRegistration earlier (d :: later)) home n →
        u.scopes.resolve n = .ok (scope, type) →
          ((registerProgram p.items).run s).2.BodyAt scope home := by
  generalize hds : earlier ++ d :: later = body at hbody
  cases hbody with
  | top =>
    have hcomes : Comes p s none earlier d _ := .top hds.symm
    have hcoming := hcomes.spec hs hcoh hnil
    refine ⟨_, hcomes, fun {home ds n scope type} _ _ hvisible hres => ?_⟩
    -- at the top level there is nowhere else to look
    have hgl := AtTop.current_eq_global ⟨hcoming.toRegistering, hcoming.component_eq⟩
    obtain ⟨hsc, -⟩ := Scopes.mem_chain_of_resolve hres
    rw [hgl, Scopes.chain_global (Nat.zero_lt_of_lt hcoming.current_lt)
      (hcoming.parent hcoming.top)] at hsc
    obtain rfl := mem_singleton.mp hsc
    obtain rfl : home = none := hvisible.elim id And.left
    rw [← hgl, hcoming.current]
    exact hcoming.atBody
  | @component decs name _ span hmem =>
    obtain ⟨before, after, hits⟩ := append_of_mem hmem
    obtain ⟨σ, u, x, h⟩ := exists_signing hs hcoh hempty hnil hits
    have hmb := h.introduces_member earlier
    have hnst := h.nested.introduces hmb
    refine ⟨_, h.comes hds.symm, fun {home ds n scope type} hhome hn hvisible hres => ?_⟩
    obtain ⟨hsc, hbd⟩ := Scopes.mem_chain_of_resolve hres
    rw [hnst.chain] at hsc
    rcases mem_cons.mp hsc with rfl | hsc
    · rcases hvisible with rfl | ⟨-, htaken⟩
      · exact h.atBody
      · -- what the scope of the body binds was taken
        refine absurd ?_ htaken
        rw [Decl.namesAtRegistration, hds, mem_append, ← h.types]
        exact (hmb.fresh (Option.isSome_iff_exists.mpr ⟨type, hbd⟩)).imp id fun hW => hW rfl
    · obtain rfl := mem_singleton.mp hsc
      rcases hvisible with rfl | ⟨rfl, -⟩
      · -- a type of the body itself would have been found there
        obtain rfl := Program.Body.unique (nodup_componentNames_of_registerProgram hs hnil)
          hhome (.component hmem)
        have hunb := Scopes.unbound_of_resolve (by rw [hnst.current]; exact hnst.lt)
          hres (by rw [hnst.current]; exact hnst.ne_global.symm)
        rw [hnst.current] at hunb
        have hsome := hmb.persists.isSome_find? ((h.types n).mpr hn)
        rw [hunb] at hsome
        cases hsome
      · exact bodyAt_global hs

end Registration

/-! ### When a declaration is checked -/

theorem traversed_sameSchemas : Traversed k SameSchemas where
  report _ _ := rfl
  infer e expected s := by
    obtain ⟨_, _, _, h⟩ := books_infer (k := k) e expected s
    rw [SameSchemas, h]
  runDecorators := moves_runDecorators (fun _ _ => rfl) fun _ _ _ _ _ => rfl
  depend x scope y kind s := by
    obtain ⟨_, _, _, h⟩ := books_depend x scope y kind s
    rw [SameSchemas, h]
  record _ _ _ := rfl
  declare := sameSchemas_declare
  readingFor x _ hm s := hm (s.readingFor x)
  inChild hm s := hm s.inChild
  refine _ _ := rfl
  inBody comp scope _ hm s := hm (s.inside comp scope)

end Session

open Session

namespace Checker

variable {k : Checker} {p : Program} {s : Session} {c : Option String} {d : Decl}

/-- What registration has bound is bound when the check comes to a declaration, and the same schemas
are noted. -/
theorem Arrives.lasting (h : k.Arrives p c d s) :
    Lasting (k.registered p) s ∧ SameSchemas (k.registered p) s := by
  induction h with
  | @top before _ _ _ =>
    exact ⟨(traversed_retains.checkDecls before _).lasting,
      traversed_sameSchemas.checkDecls before _⟩
  | @member decs name _ _ s info before _ _ _ _ _ ih =>
    obtain ⟨hlasting, hsame⟩ := ih
    have hsta : Lasting s (s.atStart k decs name info.scope) :=
      (traversed_retains.runDecorators decs ⟨.component, name.text, true⟩
        (s.boundType name) none s).lasting
    have hsame' : SameSchemas s (s.atStart k decs name info.scope) :=
      traversed_sameSchemas.runDecorators decs ⟨.component, name.text, true⟩
        (s.boundType name) none s
    exact ⟨hlasting.trans (hsta.trans (traversed_retains.checkDecls before _).lasting),
      IsTrans.trans (r := SameSchemas) _ _ _ hsame (IsTrans.trans (r := SameSchemas) _ _ _ hsame'
        (traversed_sameSchemas.checkDecls before _))⟩

/-- A name that the check has bound is that of a variable without a type. -/
theorem Arrives.pending (h : k.Arrives p c d s) {scope : ScopeId} {n : String}
    (hlt : scope < (k.registered p).scopes.all.length)
    (hnone : find? ((k.registered p).scopes.bindings scope) n = none)
    (hsome : (find? (s.scopes.bindings scope) n).isSome) :
    Pending p (k.registered p) scope n := by
  have hpassing := passing_registered k p
  cases h with
  | @top before _ _ h =>
    have hfrozen := frozen_checkDecls (k := k) (p := p) before hpassing fun d' hd' =>
      .item (h ▸ mem_append_left _ hd')
    exact hfrozen.added hlt hnone hsome
  | @member decs name body span s₀ info before _ _ h hinfo hbody =>
    cases h with
    | @top before₀ _ _ h =>
      have hfrozen₀ := frozen_checkDecls (k := k) (p := p) before₀ hpassing fun d' hd' =>
        .item (h ▸ mem_append_left _ hd')
      have hc : p.Holds none (.component decs name body span) :=
        .item (h ▸ mem_append_right _ mem_cons_self)
      have hpassing₀ := hpassing.frozen hfrozen₀
      generalize ((checkDecls k before₀).run (k.registered p)).2 = s₀ at *
      have hfrozen := frozen_checkDecls (k := k) (p := p) before
        (hpassing₀.atStart (k := k) decs hinfo) fun d' hd' =>
          .member hc (hbody ▸ mem_append_left _ hd')
      have hall : (s₀.atStart k decs name info.scope).scopes.all = s₀.scopes.all := by
        have hscs := (still_runDecorators (k := k) decs ⟨.component, name.text, true⟩
          (s₀.boundType name) none s₀).scopes
        have hall := congrArg Scopes.all hscs
        exact hall
      -- the name comes in before the component is entered, or behind that
      by_cases hbef : find? (s₀.scopes.bindings scope) n = none
      · refine hfrozen.added ?_ ?_ hsome
        · rw [hall]
          exact hlt.trans_le hfrozen₀.length_le
        · rw [Scopes.bindings, Scopes.scope, hall]
          exact hbef
      · exact hfrozen₀.added hlt hnone (Option.isSome_iff_ne_none.mpr hbef)

variable {checkedProgram : CheckedProgram} (h : Accepted k p checkedProgram)
include h

theorem Accepted.exists_body_of_holds (hd : p.Holds c d) : ∃ ds, p.Body c ds ∧ d ∈ ds := by
  induction hd with
  | item hd => exact ⟨p.items, .top, hd⟩
  | @member c decs name body span d _ hd ih =>
    obtain ⟨ds, hds, hmem⟩ := ih
    cases hds with
    | top => exact ⟨body, .component hmem, hd⟩
    | component hc =>
      obtain ⟨-, _, -, hflat⟩ := h.underway.member hc
      cases (hflat _ hmem).2

theorem Accepted.exists_names {name : String} {body : List Decl}
    (hbody : p.Body (some name) body) :
    ∃ σ, (k.registered p).BodyAt σ (some name) ∧
      ∀ n, (find? ((k.registered p).scopes.bindings σ) n).isSome →
        n ∈ Decl.typeNames body ∨ n ∈ Decl.memberNames body := by
  obtain ⟨hsta, -⟩ := atTop k p
  obtain ⟨hcoh, hempty⟩ := walked k p
  cases hbody with
  | component hmem =>
    obtain ⟨before, after, hits⟩ := append_of_mem hmem
    obtain ⟨σ, u, x, hsigning⟩ := exists_signing hsta hcoh hempty
      h.findings_registered hits
    exact ⟨σ, hsigning.atBody, hsigning.names⟩

section Arrival

variable {earlier later : List Decl} {x : Session}
  (hx : ∀ {before e after}, earlier ++ d :: later = before ++ e :: after →
    k.Arrives p c e ((checkDecls k before).run x).2)
include hx

theorem Accepted.unbound_variable {v : VarDecl} (hty : v.type = none)
    (hv : .var v ∈ d :: later) : find? (((checkDecls k earlier).run x).2.scopes.bindings
      ((checkDecls k earlier).run x).2.scopes.current) v.name.text = none := by
  obtain ⟨before, after, hsplit⟩ := append_of_mem hv
  have harrives : k.Arrives p c (.var v) ((checkDecls k (earlier ++ before)).run x).2 :=
    hx (by rw [hsplit, append_assoc])
  have harr := h.underway.arrived harrives
  have hnil := harr.lasts.findings (h.links.findings_eq_nil h.findings)
  rw [checkDecl] at hnil
  have hunb := unbound_of_checkVariable hty hnil
  rw [run_checkDecls_append] at hunb
  -- had it been bound before, it would still be
  have hrtn := traversed_retains.checkDecls (k := k) before ((checkDecls k earlier).run x).2
  refine Option.eq_none_iff_forall_ne_some.mpr fun type hfind => ?_
  obtain ⟨type', hty', -⟩ := hrtn.bound hfind
  rw [hrtn.current, hty'] at hunb
  cases hunb

/-- The scope of a body binds no names but its own. -/
theorem Accepted.unbound_of_not_mem (hbody : p.Body c (earlier ++ d :: later)) (hc : c ≠ none)
    {n : String} (hn : n ∉ Decl.namesAtCheck earlier (d :: later)) :
    find? (((checkDecls k earlier).run x).2.scopes.bindings
      ((checkDecls k earlier).run x).2.scopes.current) n = none := by
  obtain ⟨name, rfl⟩ := Option.ne_none_iff_exists'.mp hc
  have harrives := hx rfl
  have harr := h.underway.arrived harrives
  obtain ⟨σ, hb, hnms⟩ := h.exists_names hbody
  -- the check is in the scope of the component
  obtain rfl : σ = ((checkDecls k earlier).run x).2.scopes.current := by
    rw [harr.atBody]
    refine harr.unique (harr.bodies hb) ?_
    rw [← harr.component_eq]
    exact harr.bodyAt
  rw [Decl.namesAtCheck, mem_append, mem_append, not_or, not_or] at hn
  by_contra hsome
  by_cases hbef : find? ((k.registered p).scopes.bindings
      ((checkDecls k earlier).run x).2.scopes.current) n = none
  · -- it is bound since, so it is a variable, and one that stands before
    obtain ⟨c', v, hb', hholds, hty, rfl⟩ := harrives.pending (h.prepared.lt hb) hbef
      (Option.isSome_iff_ne_none.mpr hsome)
    obtain rfl := hb'.component_eq hb
    obtain ⟨ds, hds, hv⟩ := h.exists_body_of_holds hholds
    obtain rfl := Program.Body.unique h.nodup_componentNames hds hbody
    rcases mem_append.mp hv with hv | hv
    · refine hn.2 (mem_filterMap.mpr ⟨_, hv, ?_⟩)
      rw [Decl.variableName?, hty]
      rfl
    · exact hsome (h.unbound_variable hx hty hv)
  · exact (hnms n (Option.isSome_iff_ne_none.mpr hbef)).elim hn.1.1 hn.1.2

end Arrival

/-- The check comes to a declaration in a session that finds visible names where they are
declared. -/
theorem Accepted.exists_arrives_visible {earlier later : List Decl}
    (hbody : p.Body c (earlier ++ d :: later)) : ∃ s, k.Arrives p c d s ∧
      ∀ {home scope n type}, (k.registered p).BodyAt scope home →
        Visible c (Decl.namesAtCheck earlier (d :: later)) home n →
          find? (s.scopes.bindings scope) n = some type →
            s.scopes.resolve n = .ok (scope, type) := by
  obtain ⟨x, hx⟩ := h.underway.exists_start (k := k) hbody
  have harrives : k.Arrives p c d ((checkDecls k earlier).run x).2 := hx rfl
  have harr := h.underway.arrived harrives
  refine ⟨_, harrives, fun {home scope n type} hsc hvisible hbd => ?_⟩
  have hb : ((checkDecls k earlier).run x).2.BodyAt
      ((checkDecls k earlier).run x).2.scopes.current c := by
    rw [harr.atBody, ← harr.component_eq]
    exact harr.bodyAt
  refine (harr.toPlaced.resolve_eq_ok_iff hb).mpr ⟨hbd, ?_⟩
  rcases hvisible with rfl | ⟨rfl, htaken⟩
  · exact Or.inl (harr.unique (harr.bodies hsc) hb)
  · cases c with
    | none => exact Or.inl (harr.unique (harr.bodies hsc) hb)
    | some name =>
      refine Or.inr ⟨Option.some_ne_none name, ?_, ?_⟩
      · exact harr.unique (harr.bodies hsc) harr.top
      · exact h.unbound_of_not_mem hx hbody (Option.some_ne_none name) htaken

end Checker

end Provision
