import Provision.Proofs.Session.Contribution

/-!
# Where a check comes to a list of decorations

The check of a declaration reaches it, and the members of a component that is registered
(`Session.Reaches`). A list of decorations contributes where its declaration is visited, and nothing
if the check does not get to it (`Session.Contribution`). So a check without the list goes the same
way, and lacks just that (`Session.Exceeds.contributionIn`).
-/

namespace Provision

open List Decoration

variable {decs : List Decoration}

theorem Decoration.ne_of_nodup_marks {ls ms : List (List Decoration)} {l m : List Decoration}
    {mark : Span} (h : (marks (ls ++ ms)).Nodup) (hl : l ∈ ls) (hm : m ∈ ms)
    (hmark : mark? l = some mark) : mark? m ≠ some mark := by
  intro hmark'
  rw [marks, filterMap_append] at h
  exact disjoint_of_nodup_append h (mem_filterMap.mpr ⟨l, hl, hmark⟩)
    (mem_filterMap.mpr ⟨m, hm, hmark'⟩)

theorem Decoration.nodup_marks_of_sublist {ls ms : List (List Decoration)} (h : (marks ms).Nodup)
    (hls : ls.Sublist ms) : (marks ls).Nodup :=
  h.sublist (hls.filterMap mark?)

theorem Decoration.ne_of_nodup_middle {before after : List (List Decoration)} {l : List Decoration}
    {mark : Span} (h : (marks (before ++ l :: after)).Nodup) (hmark : mark? l = some mark) :
    ∀ m ∈ before ++ after, mark? m ≠ some mark := by
  rw [marks, filterMap_append, filterMap_cons_some hmark, nodup_middle, ← filterMap_append] at h
  exact fun m hm hmark' => (nodup_cons.mp h).1 (mem_filterMap.mpr ⟨m, hm, hmark'⟩)

namespace Session

variable {k : Checker} {s t u : Session} {d e : Decl} {ds : List Decl} {l : List Decoration}
  {mark : Span}

/-! ### What a check reaches -/

/-- The check of a declaration comes to a declaration in a session: to itself, and to the members of
a component. -/
inductive Reaches (k : Checker) : Decl → Session → Decl → Session → Prop
  | here {d : Decl} {s : Session} : Reaches k d s d s
  | inside {decs : List Decoration} {name : Ident} {body : List Decl} {span : Span}
      {s : Session} {info : ComponentInfo} {before after : List Decl} {d e : Decl} {u : Session}
      (hreg : s.isRegistered name)
      (hinfo : Table.find? s.components name.text = some info)
      (hbody : body = before ++ d :: after)
      (h : Reaches k d
        ((checkDecls k before).run (s.atStart k decs name info.scope)).2 e u) :
      Reaches k (.component decs name body span) s e u

/-- The check of some declarations comes to a declaration in a session. -/
def ReachesIn (k : Checker) (ds : List Decl) (s : Session) (e : Decl) (u : Session) : Prop :=
  ∃ before d after, ds = before ++ d :: after ∧
    Reaches k d ((checkDecls k before).run s).2 e u

theorem Reaches.mem_lists (h : Reaches k d s e u) (hl : l ∈ e.ownLists) : l ∈ d.lists := by
  induction h with
  | here => exact Decl.mem_lists.mpr (Or.inl hl)
  | inside _ _ hbody _ ih =>
    refine Decl.mem_lists.mpr (Or.inr (Decl.mem_listsAll.mpr ⟨_, ?_, ih hl⟩))
    rw [Decl.members, hbody]
    exact mem_append_right _ mem_cons_self

/-- What a list of decorations contributes to a check with some visits. -/
inductive Contribution (k : Checker) (visits : Decl → Session → Prop) (l : List Decoration) :
    List Diagnostic → List DeferredCheck → Bool → Prop
  /-- The check gets to the list. -/
  | visited {d : Decl} {u : Session} {findings : List Diagnostic} {deferred : List DeferredCheck}
      {linked : Bool} (hvis : visits d u) (hl : l ∈ d.ownLists) (hchk : u.Checks k d)
      (hout : Outcome k u d l findings deferred linked) :
      Contribution k visits l findings deferred linked
  /-- The check does not get to the list. -/
  | unvisited (h : ∀ d u, visits d u → l ∈ d.ownLists → ¬u.Checks k d) :
      Contribution k visits l [] [] false

theorem Contribution.of_visits {visits visits' : Decl → Session → Prop} {findings : List Diagnostic}
    {deferred : List DeferredCheck} {linked : Bool}
    (h : Contribution k visits l findings deferred linked)
    (hvisits : ∀ d u, l ∈ d.ownLists → (visits d u ↔ visits' d u)) :
    Contribution k visits' l findings deferred linked := by
  cases h with
  | visited hvis hl hchk hout =>
    exact .visited ((hvisits _ _ hl).mp hvis) hl hchk hout
  | unvisited h => exact .unvisited fun d u hvis hl => h d u ((hvisits d u hl).mpr hvis) hl

/-! ### The list right at a declaration -/

/-- The list contributes its outcome, be it of the declaration or of a property. -/
theorem Exceeds.contributes (h : Exceeds (.none mark) s t) (hchk : s.Checks k d)
    (hl : l ∈ d.ownLists) (hmark : mark? l = some mark)
    (hsh : shapeFinding? k l = none) (hnd : (marks d.lists).Nodup) :
    Contributes k mark l d s t := by
  have hrest : (marks ([d.decorations] ++
      (d.properties.map (·.decorations) ++ Decl.listsAll d.members))).Nodup :=
    d.lists_eq_append ▸ hnd
  rcases mem_cons.mp hl with rfl | hl'
  · cases hpl : d.place? with
    | none =>
      cases d with
      | «alias» d => exact h.outcome_alias hmark
      | _ => cases hpl
    | some place =>
      rw [← Decl.decorations_of_place? hpl] at hmark hsh ⊢
      refine h.outcome_own hpl hchk hmark hsh fun m hm => ?_
      rw [Decl.decorations_of_place? hpl] at hmark
      exact ne_of_nodup_marks hrest mem_cons_self hm hmark
  · cases d with
    | schema d =>
      obtain ⟨q, hq, rfl⟩ := mem_map.mp hl'
      obtain ⟨before, after, hprops⟩ := append_of_mem hq
      have hmarks : (marks ((d.decorations :: before.map (·.decorations)) ++
          q.decorations :: after.map (·.decorations))).Nodup := by
        rw [cons_append, ← map_cons, ← map_append, ← hprops]
        exact hnd
      have hoth := ne_of_nodup_middle hmarks hmark
      refine h.outcome_property hchk hprops hmark hsh ?_ ?_ ?_
      · exact hoth _ mem_cons_self
      · exact fun r hr => hoth _ (mem_cons_of_mem _ (mem_append_left _ (mem_map_of_mem hr)))
      · exact fun r hr => hoth _ (mem_cons_of_mem _ (mem_append_right _ (mem_map_of_mem hr)))
    | _ => cases hl'

theorem Exceeds.skips (h : Exceeds (.none mark) s t) (hchk : ¬s.Checks k d) :
    Exceeds (.none mark) ((checkDecl k d).run s).2 ((checkDecl k (d.without mark)).run t).2 := by
  have hchk' : ¬t.Checks k (d.without mark) := fun hchk' => hchk (h.checks_iff.mp hchk')
  rw [run_checkDecl_of_not_checks hchk, run_checkDecl_of_not_checks hchk']
  exact (h.afterValue d).2

/-! ### The way to the list -/

theorem Exceeds.atStart {x : Excess} (h : Exceeds x s t) (hsilent : x.Silent decs)
    (name : Ident) (scope : ScopeId) :
    Exceeds x (s.atStart k decs name scope)
      (t.atStart k (without x.mark decs) name scope) := by
  have hrun := h.run (beside_runDecorators (k := k) hsilent ⟨.component, name.text, true⟩
    (s.boundType name) Option.none)
  unfold Session.atStart
  rw [← h.boundType]
  exact { hrun with
    scopes := congrArg (Scopes.enter · scope) hrun.scopes
    body := rfl
    component := rfl }

theorem Exceeds.outside {x y : Excess} {s' t' : Session} (h : Exceeds x s t)
    (h' : Exceeds y s' t') : Exceeds y (s.outside s') (t.outside t') :=
  { h' with
    scopes := by
      show s'.scopes.enter s.scopes.current = t'.scopes.enter t.scopes.current
      rw [h.scopes, h'.scopes]
    body := h.body
    component := rfl }

/-- The check of a declaration has what a list contributes more than the check without it. -/
def Accounts (k : Checker) (mark : Span) (l : List Decoration) (d : Decl) : Prop :=
  ∀ s t, Exceeds (.none mark) s t → ∃ findings deferred linked,
    Contribution k (Reaches k d s) l findings deferred linked ∧
    Exceeds ⟨mark, findings, deferred, linked, false⟩ ((checkDecl k d).run s).2
      ((checkDecl k (d.without mark)).run t).2

/-- One declaration has the list, and the others are checked as without it. -/
theorem Exceeds.contributionIn (h : Exceeds (.none mark) s t)
    (hnd : (marks (Decl.listsAll ds)).Nodup) (hl : l ∈ Decl.listsAll ds)
    (hmark : mark? l = some mark)
    (haccounts : ∀ d ∈ ds, (marks d.lists).Nodup → l ∈ d.lists → Accounts k mark l d) :
    ∃ findings deferred linked, Contribution k (ReachesIn k ds s) l findings deferred linked ∧
      Exceeds ⟨mark, findings, deferred, linked, false⟩ ((checkDecls k ds).run s).2
        ((checkDecls k (Decl.withoutAll mark ds)).run t).2 := by
  induction ds generalizing s t with
  | nil => cases hl
  | cons d ds ih =>
    have hnd : (marks (d.lists ++ Decl.listsAll ds)).Nodup := hnd
    obtain ⟨haccount, haccounts⟩ := forall_mem_cons.mp haccounts
    rw [Decl.withoutAll, run_checkDecls_cons, run_checkDecls_cons]
    rcases mem_append.mp hl with hl | hl
    · -- the rest of the declarations has nothing to say
      have hrest : ∀ e ∈ ds, e.EveryList fun m => mark? m ≠ some mark := fun e he m hm =>
        ne_of_nodup_marks hnd hl (Decl.mem_listsAll.mpr ⟨e, he, hm⟩) hmark
      obtain ⟨findings, deferred, linked, hcon, hexc⟩ := haccount
        (nodup_marks_of_sublist hnd (sublist_append_left _ _)) hl s t h
      refine ⟨findings, deferred, linked, hcon.of_visits fun e u he => ?_,
        hexc.run (beside_checkDecls fun e he m hm => Excess.silent_of_ne (hrest e he m hm))⟩
      constructor
      · exact fun hrch => ⟨[], d, ds, rfl, hrch⟩
      · rintro ⟨before, d', after, hds, hrch⟩
        cases before with
        | nil =>
          obtain ⟨rfl, rfl⟩ := cons.inj hds
          exact hrch
        | cons b before =>
          obtain ⟨rfl, rfl⟩ := cons.inj hds
          exact absurd hmark (hrest d' (mem_append_right _ mem_cons_self) l
            (hrch.mem_lists he))
    · -- the first declaration has nothing to say
      have hfst : d.EveryList fun m => mark? m ≠ some mark := fun m hm hmark' =>
        ne_of_nodup_marks hnd hm hl hmark' hmark
      obtain ⟨findings, deferred, linked, hcon, hexc⟩ :=
        ih (h.run (beside_checkDecl fun m hm => Excess.silent_of_ne (hfst m hm)))
          (nodup_marks_of_sublist hnd (sublist_append_right _ _)) hl haccounts
      refine ⟨findings, deferred, linked, hcon.of_visits fun e u he => ?_, hexc⟩
      constructor
      · rintro ⟨before, d', after, rfl, hrch⟩
        refine ⟨d :: before, d', after, rfl, ?_⟩
        rw [run_checkDecls_cons]
        exact hrch
      · rintro ⟨before, d', after, hds, hrch⟩
        cases before with
        | nil =>
          obtain ⟨rfl, rfl⟩ := cons.inj hds
          exact absurd hmark (hfst l (hrch.mem_lists he))
        | cons b before =>
          obtain ⟨rfl, rfl⟩ := cons.inj hds
          rw [run_checkDecls_cons] at hrch
          exact ⟨before, d', after, rfl, hrch⟩

theorem run_checkDecl_unknown {name : Ident} {body : List Decl} {span : Span}
    (hreg : s.isRegistered name) (hnone : Table.find? s.components name.text = none) :
    ((checkDecl k (.component decs name body span)).run s).2 =
      ((runDecorators k decs ⟨.component, name.text, true⟩ (s.boundType name) none).run
        s).2 := by
  rw [checkDecl, run_ifRegistered name hreg, run_get_bind]
  have hnone' : s.components.find? name.text = none := hnone
  rw [run_bind, hnone']
  rfl

/-- A list inside a component counts if the component is registered. -/
theorem accounts_component {name : Ident} {body : List Decl} {span : Span}
    (hnd : (marks ([decs] ++ Decl.listsAll body)).Nodup)
    (hl : l ∈ Decl.listsAll body) (hmark : mark? l = some mark)
    (haccounts : ∀ d ∈ body, (marks d.lists).Nodup → l ∈ d.lists → Accounts k mark l d) :
    Accounts k mark l (.component decs name body span) := by
  intro s t h
  have hown : mark? decs ≠ some mark := fun hown =>
    ne_of_nodup_marks hnd mem_cons_self hl hown hmark
  -- the list is not the component's own, so that only a member has it
  have hhere : ∀ {e : Decl} {u : Session}, Reaches k (.component decs name body span) s e u →
      l ∈ e.ownLists → s.isRegistered name ∧
        ∃ info, Table.find? s.components name.text = some info ∧
          ReachesIn k body (s.atStart k decs name info.scope) e u := by
    intro e u hrch he
    cases hrch with
    | here => exact absurd hmark (mem_singleton.mp he ▸ hown)
    | inside hreg hinfo hbody hrch =>
      exact ⟨hreg, _, hinfo, _, _, _, hbody, hrch⟩
  by_cases hreg : s.isRegistered name
  · have hreg' : t.isRegistered name := h.isRegistered name ▸ hreg
    have hface := h.face name.text
    cases hinfo : Table.find? s.components name.text with
    | none =>
      refine ⟨[], [], false, .unvisited fun e u hrch he => ?_, ?_⟩
      · obtain ⟨-, info, hfound, -⟩ := hhere hrch he
        rw [hinfo] at hfound
        cases hfound
      · rw [hinfo] at hface
        rw [Decl.without, run_checkDecl_unknown hreg hinfo,
          run_checkDecl_unknown hreg' (Option.map_eq_none_iff.mp hface.symm), ← h.boundType]
        exact h.run (beside_runDecorators (Excess.silent_of_ne hown) _ _ _)
    | some info =>
      rw [hinfo] at hface
      obtain ⟨info', hinfo', hsame⟩ := Option.map_eq_some_iff.mp hface.symm
      have hsc : info'.scope = info.scope := congrArg Prod.fst hsame
      have hsta := h.atStart (k := k) (Excess.silent_of_ne hown) name info.scope
      obtain ⟨findings, deferred, linked, hcon, hexc⟩ := hsta.contributionIn
        (nodup_marks_of_sublist hnd (sublist_append_right _ _)) hl hmark
        haccounts
      refine ⟨findings, deferred, linked, hcon.of_visits fun e u he => ⟨?_, ?_⟩, ?_⟩
      · rintro ⟨before, d, after, hbody, hrch⟩
        exact .inside hreg hinfo hbody hrch
      · intro hrch
        obtain ⟨-, info₀, hinfo₀, hin⟩ := hhere hrch he
        obtain rfl := Option.some.inj (hinfo₀.symm.trans hinfo)
        exact hin
      · rw [Decl.without, run_checkDecl_component hreg hinfo,
          run_checkDecl_component hreg' hinfo', hsc, ← h.boundType]
        exact (h.run (beside_runDecorators (Excess.silent_of_ne hown) _ _ _)).outside hexc
  · refine ⟨[], [], false, .unvisited fun e u hrch he => ?_, h.skips hreg⟩
    exact absurd (hhere hrch he).1 hreg

theorem accounts_of_members (hmark : mark? l = some mark)
    (hsh : shapeFinding? k l = none) (hnd : (marks d.lists).Nodup)
    (hl : l ∈ d.lists) (haccounts : ∀ e ∈ d.members, (marks e.lists).Nodup →
      l ∈ e.lists → Accounts k mark l e) : Accounts k mark l d := by
  rcases Decl.mem_lists.mp hl with hown | hmems
  · intro s t h
    by_cases hchk : s.Checks k d
    · obtain ⟨findings, deferred, linked, hout, hexc⟩ :=
        h.contributes hchk hown hmark hsh hnd
      exact ⟨findings, deferred, linked, .visited .here hown hchk hout, hexc⟩
    · refine ⟨[], [], false, .unvisited fun e u hrch he => ?_, h.skips hchk⟩
      cases hrch with
      | here => exact hchk
      | inside hreg _ _ _ => exact absurd hreg hchk
  · cases d with
    | component decs name body span =>
      exact accounts_component hnd hmems hmark haccounts
    | _ => cases hmems

theorem accounts (hmark : mark? l = some mark) (hsh : shapeFinding? k l = none)
    (d : Decl) : (marks d.lists).Nodup → l ∈ d.lists → Accounts k mark l d := by
  induction d using Decl.members_induction with
  | h d ih => exact fun hnd hl => accounts_of_members hmark hsh hnd hl ih

end Session

end Provision
