import Provision.Proofs.Session.Exchange
import Provision.Proofs.Session.Orders

/-!
# Twins come to the same end

What happens after the declarations reads the look of a session and its notes, and nothing else.
Components hand on what they need in the same order, since they use the same ones; instances of the
top level take it over (`Session.Twin.linkComponents`). A body has a cycle if its edges have one,
so that twins report cycles together (`Session.Twin.orderProgram`).
-/

namespace Provision.Session

open List

variable {s t : Session}

/-! ### Handing on what components need -/

theorem Mirrors.usage (h : Mirrors s t) : t.usage = s.usage := by
  have hotl : ∀ u : Session, u.usage =
      (u.components.map fun c => (c.1, c.2.outline)).foldl (fun g c =>
        c.2.2.2.foldl (fun g used => g.addEdge c.1 used .implicit) (g.addNode c.1).2) {} := by
    intro u
    rw [foldl_map]
    rfl
  rw [hotl, hotl, h.components]

theorem Mirrors.uses_iff (h : Mirrors s t) {c d : String} : t.Uses c d ↔ s.Uses c d := by
  have hotl : ∀ u : Session, u.Uses c d ↔
      ∃ o, (Table.find? u.components c).map ComponentInfo.outline = some o ∧ d ∈ o.2.2 := by
    intro u
    simp only [Uses, Option.map_eq_some_iff]
    constructor
    · rintro ⟨i, hi, hd⟩
      exact ⟨i.outline, ⟨i, hi, rfl⟩, hd⟩
    · rintro ⟨_, ⟨i, hi, rfl⟩, hd⟩
      exact ⟨i, hi, hd⟩
  rw [hotl, hotl, h.outline]

theorem Twin.mem_inherited (h : Twin s t) {name x : String} :
    x ∈ t.inherited name ↔ x ∈ s.inherited name := by
  rw [Session.mem_inherited, Session.mem_inherited]
  exact exists_congr fun used => and_congr h.uses_iff (h.has_iff (.external used x))

theorem Twin.inherit (h : Twin s t) (name : String) : Twin (s.inherit name) (t.inherit name) := by
  have hs : Mirrors s (s.inherit name) := rests_addExternals name (s.inherited name) s h.sound
  have ht : Mirrors t (t.inherit name) := rests_addExternals name (t.inherited name) t h.sound'
  refine ⟨(hs.symm.trans h.toMirrors).trans ht, ?_⟩
  rw [Session.inherit, Session.inherit, notes_add_externals, notes_add_externals, h.notes,
    h.isSome_component]
  simp only [h.mem_inherited]

theorem Twin.inheritExternals (h : Twin s t) (names : List String) :
    Twin ((inheritExternals names).run s).2 ((Session.inheritExternals names).run t).2 := by
  induction names generalizing s t with
  | nil => exact h
  | cons name names ih =>
    rw [run_inheritExternals_cons, run_inheritExternals_cons]
    exact ih (h.inherit name)

/-! ### Instances of the top level -/

/-- What is noted if an instance of the top level comes to depend on another. -/
def linkNotes (s : Session) (l : String × String) : Set Note :=
  {n | n = .edge ScopeId.global l.1 l.2 ∧ (s.body? ScopeId.global).isSome ∨
    n = .dependency l.1 l.2 ∧ (s.dependencies? l.1).isSome}

theorem Mirrors.linkNotes (h : Mirrors s t) (l : String × String) :
    t.linkNotes l = s.linkNotes l := by
  rw [Session.linkNotes, Session.linkNotes, h.isSome_body, h.instances]

theorem rests_link (l : String × String) :
    Moves Rests (link l.1 l.2 .implicit ScopeId.global) :=
  Moves.bind (rests_addEdge l.1 l.2 .implicit ScopeId.global) fun _ => rests_modifyInstance l.1 _

theorem notes_add_link (hs : Sound s) (l : String × String) :
    ((link l.1 l.2 .implicit ScopeId.global).run s).2.notes = s.notes ∪ s.linkNotes l := by
  have hedge := notes_add_edge hs l.1 l.2 .implicit ScopeId.global
  have hdependency := notes_add_dependency l.1 l.2
    ((modifyGraph (fun g => g.addEdge l.1 l.2 .implicit) ScopeId.global).run s).2
  rw [hedge, Set.union_assoc] at hdependency
  exact hdependency

theorem notes_add_links (hs : Sound s) (ls : List (String × String)) :
    Mirrors s ((linkExternals ls).run s).2 ∧
      ((linkExternals ls).run s).2.notes = s.notes ∪ {n | ∃ l ∈ ls, n ∈ s.linkNotes l} := by
  induction ls generalizing s with
  | nil =>
    refine ⟨.refl hs, ?_⟩
    simp only [not_mem_nil, false_and, exists_false, Set.ofPred_false, Set.union_empty]
    rfl
  | cons l ls ih =>
    have hlink : Mirrors s ((link l.1 l.2 .implicit ScopeId.global).run s).2 := rests_link l s hs
    obtain ⟨hmir, hnotes⟩ := ih hlink.sound'
    rw [run_linkExternals_cons]
    refine ⟨hlink.trans hmir, ?_⟩
    rw [hnotes, notes_add_link hs, Set.union_assoc]
    congr 1
    ext n
    simp only [hlink.linkNotes, Set.mem_union, Set.mem_ofPred_eq, mem_cons, exists_eq_or_imp]

theorem Twin.linkExternals (h : Twin s t) {ls ls' : List (String × String)}
    (hls : ∀ l, l ∈ ls' ↔ l ∈ ls) :
    Twin ((linkExternals ls).run s).2 ((Session.linkExternals ls').run t).2 := by
  obtain ⟨hs, hnotes⟩ := notes_add_links h.sound ls
  obtain ⟨ht, hnotes'⟩ := notes_add_links h.sound' ls'
  refine ⟨(hs.symm.trans h.toMirrors).trans ht, ?_⟩
  rw [hnotes, hnotes', h.notes]
  simp only [hls, h.linkNotes]

theorem Twin.mem_externalLinks (h : Twin s t) (l : String × String) :
    l ∈ t.externalLinks ↔ l ∈ s.externalLinks := by
  obtain ⟨w, x⟩ := l
  rw [Session.mem_externalLinks h.sound.names, Session.mem_externalLinks h.sound'.names]
  exact exists_congr fun c => and_congr (h.has_iff (.member c w)) (h.has_iff (.external c x))

theorem Twin.linkComponents (h : Twin s t) :
    Twin (linkComponents.run s).2 (Session.linkComponents.run t).2 := by
  unfold Session.linkComponents
  rw [run_bind, run_get_bind, run_get]
  rw [h.usage]
  cases s.usage.order with
  | error path =>
    -- what was noted for the top level is linked all the same
    have hrep := h.couples (couples_report (d := .cycle path) rfl)
    exact hrep.linkExternals hrep.mem_externalLinks
  | ok names =>
    have hinherit := h.inheritExternals names
    exact hinherit.linkExternals hinherit.mem_externalLinks

/-! ### Cycles -/

def cycleFinding? (b : ScopeId × Body) : Option Diagnostic :=
  match b.2.graph.order with
  | .ok _ => none
  | .error path => some (.cycle path)

theorem run_orderBodies (o : Orders) (bs : List (ScopeId × Body)) :
    ((orderBodies o bs).run s).2 =
      { s with findings := s.findings ++ bs.filterMap cycleFinding? } := by
  induction bs generalizing s o with
  | nil =>
    rw [filterMap_nil, append_nil]
    rfl
  | cons b bs ih =>
    obtain ⟨scope, b⟩ := b
    rw [orderBodies, filterMap_cons, cycleFinding?]
    cases b.graph.order with
    | ok order => exact ih _
    | error path =>
      rw [run_bind, ih, append_cons]
      rfl

/-- A cycle is reported just if edges of a body run in one. -/
theorem exists_cycleFinding?_iff (hs : Sound s) : (∃ d, d ∈ s.bodies.filterMap cycleFinding?) ↔
    ∃ scope a, Relation.TransGen (s.Edge scope) a a := by
  have hbody : ∀ {scope b}, s.body? scope = some b →
      ((cycleFinding? (scope, b)).isSome ↔ ∃ a, Relation.TransGen (s.Edge scope) a a) := by
    intro scope b hb
    have hedge : s.Edge scope = b.graph.HasEdge := by
      funext x y
      simp [Edge, hb]
    rw [hedge, ← DependencyGraph.findCycle?_isSome_iff (hs.wellFormed hb), cycleFinding?,
      DependencyGraph.order]
    cases b.graph.findCycle? <;> simp
  constructor
  · rintro ⟨d, hd⟩
    obtain ⟨⟨scope, b⟩, hb, hd⟩ := mem_filterMap.mp hd
    exact ⟨scope, (hbody (hs.mem_bodies.mp hb)).mp (Option.isSome_of_mem hd)⟩
  · rintro ⟨scope, a, ha⟩
    -- whatever has an edge is a body
    obtain ⟨b, hb⟩ : ∃ b, s.body? scope = some b := by
      cases ha with
      | single h => exact ⟨h.choose, h.choose_spec.1⟩
      | tail _ h => exact ⟨h.choose, h.choose_spec.1⟩
    obtain ⟨d, hd⟩ := Option.isSome_iff_exists.mp ((hbody hb).mpr ⟨a, ha⟩)
    exact ⟨d, mem_filterMap.mpr ⟨(scope, b), hs.mem_bodies.mpr hb, hd⟩⟩

theorem notes_add_orderBodies (hs : Sound s) (o : Orders) :
    ((orderBodies o s.bodies).run s).2.notes = s.notes ∪
      {n | (n = .finding ∨ n = .cycle) ∧ ∃ scope a, Relation.TransGen (s.Edge scope) a a} := by
  have hfnd : s.bodies.filterMap cycleFinding? ≠ [] ↔
      ∃ d, d ∈ s.bodies.filterMap cycleFinding? :=
    ⟨exists_mem_of_ne_nil _, fun ⟨_, hd⟩ => ne_nil_of_mem hd⟩
  -- all of them are cycles
  have hcyc : (∃ d ∈ s.bodies.filterMap cycleFinding?, d.isCycle) ↔
      ∃ d, d ∈ s.bodies.filterMap cycleFinding? := by
    refine exists_congr fun d => and_iff_left_of_imp fun hd => ?_
    obtain ⟨b, -, hb⟩ := mem_filterMap.mp hd
    unfold cycleFinding? at hb
    split at hb <;> cases hb
    rfl
  rw [run_orderBodies, notes_add_findings, hfnd, hcyc, exists_cycleFinding?_iff hs]
  simp only [or_and_right]

theorem Twin.orderBodies (h : Twin s t) (o o' : Orders) :
    Twin ((orderBodies o s.bodies).run s).2 ((Session.orderBodies o' t.bodies).run t).2 := by
  have hedge : t.Edge = s.Edge := by
    funext scope x y
    exact propext (h.has_iff (.edge scope x y))
  refine ⟨?_, ?_⟩
  · rw [run_orderBodies, run_orderBodies]
    exact { h.toMirrors with }
  · rw [notes_add_orderBodies h.sound, notes_add_orderBodies h.sound', h.notes, hedge]

theorem Twin.orderProgram (h : Twin s t) :
    Twin (orderProgram.run s).2 (Session.orderProgram.run t).2 :=
  h.linkComponents.orderBodies {} {}

end Provision.Session
