import Provision.Proofs.Session.Links
import Provision.Session.Orders

/-!
# Externals and orders

Handing on what components need in one sweep is enough, since a component stands after those that
it uses (`Session.needs_inheritExternals`). So an instance of the top level depends on whatever a
component that is reachable from its own needs (`Session.linkComponents_spec`). In the end there is
an order for every body (`Session.orderBodies_spec`).
-/

namespace Provision.Session

open List

variable {p : Program} {s t : Session} {names : List String}

/-! ### Which component uses which -/

theorem foldl_addEdge {g : DependencyGraph} (hg : g.WellFormed) (a : String) (bs : List String) :
    (bs.foldl (fun g b => g.addEdge a b .implicit) g).WellFormed ∧
      ∀ x y, (bs.foldl (fun g b => g.addEdge a b .implicit) g).HasEdge x y ↔
        g.HasEdge x y ∨ x = a ∧ y ∈ bs := by
  induction bs generalizing g with
  | nil => exact ⟨hg, fun x y => by simp⟩
  | cons b bs ih =>
    obtain ⟨hwf, hedge⟩ := ih (hg.addEdge a b .implicit)
    refine ⟨hwf, fun x y => ?_⟩
    rw [foldl_cons, hedge, DependencyGraph.hasEdge_addEdge hg, mem_cons]
    tauto

theorem foldl_usage {g : DependencyGraph} (hg : g.WellFormed) (cs : Table ComponentInfo) :
    (cs.foldl (fun g c => c.2.uses.foldl (fun g used => g.addEdge c.1 used .implicit)
      (g.addNode c.1).2) g).WellFormed ∧
      ∀ x y, (cs.foldl (fun g c => c.2.uses.foldl (fun g used => g.addEdge c.1 used .implicit)
        (g.addNode c.1).2) g).HasEdge x y ↔ g.HasEdge x y ∨ ∃ i, (x, i) ∈ cs ∧ y ∈ i.uses := by
  induction cs generalizing g with
  | nil => exact ⟨hg, fun x y => by simp⟩
  | cons c cs ih =>
    obtain ⟨hwf, hedge⟩ := foldl_addEdge (hg.addNode c.1) c.1 c.2.uses
    obtain ⟨hwf', hedge'⟩ := ih hwf
    refine ⟨hwf', fun x y => ?_⟩
    rw [foldl_cons, hedge', hedge, DependencyGraph.hasEdge_addNode hg]
    constructor
    · rintro ((hx | ⟨rfl, hy⟩) | ⟨i, hi, hy⟩)
      · exact Or.inl hx
      · exact Or.inr ⟨c.2, mem_cons_self, hy⟩
      · exact Or.inr ⟨i, mem_cons_of_mem c hi, hy⟩
    · rintro (hx | ⟨i, hi, hy⟩)
      · exact Or.inl (Or.inl hx)
      · rcases mem_cons.mp hi with rfl | hi
        · exact Or.inl (Or.inr ⟨rfl, hy⟩)
        · exact Or.inr ⟨i, hi, hy⟩

theorem wellFormed_usage (s : Session) : s.usage.WellFormed :=
  (foldl_usage DependencyGraph.wellFormed_empty s.components).1

theorem hasEdge_usage (h : s.components.names.Nodup) {c d : String} :
    s.usage.HasEdge c d ↔ s.Uses c d := by
  have hempty : ¬ DependencyGraph.HasEdge {} c d := by
    rintro ⟨e, he, -⟩
    exact not_mem_nil he
  rw [usage, (foldl_usage DependencyGraph.wellFormed_empty s.components).2 c d, or_iff_right hempty]
  exact exists_congr fun i => and_congr_left fun _ => Table.mem_iff_find? h

/-! ### Handing on what components need -/

/-- One component takes over what those that it uses need. -/
def inherit (s : Session) (name : String) : Session :=
  ((modifyComponent name fun c =>
    { c with externals := (s.inherited name).foldl addOnce c.externals }).run s).2

theorem run_inheritExternals_cons (name : String) (names : List String) :
    (inheritExternals (name :: names)).run s = (inheritExternals names).run (s.inherit name) := rfl

theorem mem_inherited {name x : String} :
    x ∈ s.inherited name ↔ ∃ used, s.Uses name used ∧ s.Needs used x := by
  unfold inherited Uses Needs
  cases s.components.find? name with
  | none => simp
  | some c =>
    rw [mem_flatMap]
    refine exists_congr fun used => and_congr (by simp) ?_
    cases s.components.find? used <;> simp

theorem grows_inherit (s : Session) (name : String) : Grows s (s.inherit name) := by
  have henlarges : Enlarges fun c =>
      { c with externals := (s.inherited name).foldl addOnce c.externals } :=
    ⟨fun _ => rfl, fun _ => rfl, fun _ => Subset.refl _,
      fun _ _ hx => mem_foldl_addOnce.mpr (Or.inl hx), fun _ => Subset.refl _⟩
  exact grows_modifyComponent name henlarges s

theorem advances_inherit (s : Session) (name : String) : Advances p s (s.inherit name) := by
  have hgr := grows_inherit s name
  refine ⟨hgr, id, id, fun hs => hs.of_linked ?_ hgr id⟩
  refine hs.toLinked.modifyExternals name
    (f := fun l => (s.inherited name).foldl addOnce l) fun i hi x hx => ?_
  rcases mem_foldl_addOnce.mp hx with hx | hx
  · exact hs.needs ⟨i, hi, hx⟩
  · obtain ⟨used, -, hneeds⟩ := mem_inherited.mp hx
    exact hs.needs hneeds

theorem uses_inherit {name c d : String} : (s.inherit name).Uses c d ↔ s.Uses c d := by
  unfold Uses inherit
  rw [find?_modifyComponent]
  split
  · simp
  · rfl

theorem needs_inherit {name used x : String} (huses : s.Uses name used) (hneeds : s.Needs used x) :
    (s.inherit name).Needs name x := by
  obtain ⟨i, hi, -⟩ := id huses
  have hfind : Table.find? (s.inherit name).components name =
      some { i with externals := (s.inherited name).foldl addOnce i.externals } := by
    rw [inherit, find?_modifyComponent, if_pos rfl, hi]
    rfl
  exact ⟨_, hfind, mem_foldl_addOnce.mpr (Or.inr (mem_inherited.mpr ⟨used, huses, hneeds⟩))⟩

theorem needs_inherit_of_ne {name c x : String} (h : c ≠ name) :
    (s.inherit name).Needs c x ↔ s.Needs c x := by
  unfold Needs inherit
  rw [find?_modifyComponent, if_neg h]

theorem grows_inheritExternals (names : List String) : Moves Grows (inheritExternals names) := by
  induction names with
  | nil => exact Moves.pure _
  | cons name names ih =>
    intro s
    rw [run_inheritExternals_cons]
    exact (grows_inherit s name).trans (ih _)

theorem advances_inheritExternals (names : List String) :
    Moves (Advances p) (inheritExternals names) := by
  induction names with
  | nil => exact Moves.pure _
  | cons name names ih =>
    intro s
    rw [run_inheritExternals_cons]
    exact (advances_inherit s name).trans (ih _)

theorem needs_inheritExternals_of_not_mem {c x : String} (h : c ∉ names) :
    ((inheritExternals names).run s).2.Needs c x ↔ s.Needs c x := by
  induction names generalizing s with
  | nil => rfl
  | cons name names ih =>
    rw [mem_cons, not_or] at h
    rw [run_inheritExternals_cons, ih h.2, needs_inherit_of_ne h.1]

/-- If no component stands before one that it uses, then one sweep hands everything on. -/
theorem needs_inheritExternals (hord : names.Pairwise fun c d => ¬ s.Uses c d)
    (hself : ∀ c ∈ names, ¬ s.Uses c c) {c d x : String} (hc : c ∈ names) (huses : s.Uses c d)
    (hneeds : ((inheritExternals names).run s).2.Needs d x) :
    ((inheritExternals names).run s).2.Needs c x := by
  induction names generalizing s with
  | nil => exact (not_mem_nil hc).elim
  | cons name names ih =>
    obtain ⟨hfst, hrest⟩ := pairwise_cons.mp hord
    rw [run_inheritExternals_cons] at hneeds ⊢
    rcases mem_cons.mp hc with rfl | hc
    · -- what it uses was finished before, so nothing of that changes any more
      have hd : d ∉ c :: names := by
        rintro hd
        rcases mem_cons.mp hd with rfl | hd
        · exact hself d mem_cons_self huses
        · exact hfst d hd huses
      rw [mem_cons, not_or] at hd
      rw [needs_inheritExternals_of_not_mem hd.2, needs_inherit_of_ne hd.1] at hneeds
      exact (grows_inheritExternals names _).needs (needs_inherit huses hneeds)
    · exact ih (hrest.imp uses_inherit.not.mpr)
        (fun c hc => uses_inherit.not.mpr (hself c (mem_cons_of_mem name hc))) hc
        (uses_inherit.mpr huses) hneeds

/-! ### Instances of the top level -/

theorem mem_externalLinks (h : s.components.names.Nodup) {w x : String} :
    (w, x) ∈ s.externalLinks ↔ ∃ c, s.HasInstance c w ∧ s.Needs c x := by
  unfold externalLinks HasInstance Needs
  rw [mem_flatMap]
  constructor
  · rintro ⟨⟨c, i⟩, hc, hlink⟩
    obtain ⟨w', hw, hx⟩ := mem_flatMap.mp hlink
    obtain ⟨x', hx, heq⟩ := mem_map.mp hx
    cases heq
    have hfind := (Table.mem_iff_find? h).mp hc
    exact ⟨c, ⟨i, hfind, hw⟩, i, hfind, hx⟩
  · rintro ⟨c, ⟨i, hi, hw⟩, j, hj, hx⟩
    obtain rfl := Option.some.inj (hi.symm.trans hj)
    exact ⟨(c, i), (Table.mem_iff_find? h).mpr hi,
      mem_flatMap.mpr ⟨w, hw, mem_map.mpr ⟨x, hx, rfl⟩⟩⟩

/-- A dependency of an instance of the top level on another. -/
structure IsLink (p : Program) (s : Session) (l : String × String) : Prop where
  declared : p.DeclaresInstance none l.1
  isListed : (s.dependencies? l.1).isSome
  readable : ∃ m, l.2 = qualifiedName none m ∧ (s.scopes.kindAt ScopeId.global m).isSome

theorem run_linkExternals_cons (l : String × String) (ls : List (String × String)) :
    (linkExternals (l :: ls)).run s =
      (linkExternals ls).run ((link l.1 l.2 .implicit ScopeId.global).run s).2 := rfl

theorem IsLink.link {l : String × String} (h : IsLink p s l) (x y : String) :
    IsLink p ((Session.link x y .implicit ScopeId.global).run s).2 l :=
  ⟨h.declared, (isSome_link _).trans h.isListed, h.readable⟩

theorem IsLink.advances {l : String × String} (h : IsLink p s l) :
    Advances p s ((Session.link l.1 l.2 .implicit ScopeId.global).run s).2 := by
  obtain ⟨hdecl, hlst, m, hm, hkind⟩ := h
  refine ⟨grows_link s, bodyAt_link.mp, fun hd => depends_link.mpr (Or.inl hd), fun hs => ?_⟩
  exact hs.of_linked (hs.toLinked.link hs.top rfl hdecl hlst hm hkind) (grows_link s)
    bodyAt_link.mp

theorem advances_linkExternals {ls : List (String × String)} (hls : ∀ l ∈ ls, IsLink p s l) :
    Advances p s ((linkExternals ls).run s).2 := by
  induction ls generalizing s with
  | nil => exact Std.Refl.refl s
  | cons l ls ih =>
    rw [run_linkExternals_cons]
    exact (hls l mem_cons_self).advances.trans
      (ih fun l' hl' => (hls l' (mem_cons_of_mem l hl')).link _ _)

theorem edge_linkExternals {ls : List (String × String)} (hs : Linking p s)
    (hls : ∀ l ∈ ls, IsLink p s l) {a b : String} :
    ((linkExternals ls).run s).2.Edge ScopeId.global a b ↔
      s.Edge ScopeId.global a b ∨ (a, b) ∈ ls := by
  induction ls generalizing s with
  | nil => exact (or_iff_left not_mem_nil).symm
  | cons l ls ih =>
    obtain ⟨x, y⟩ := l
    have hlink := (hls (x, y) mem_cons_self).advances
    have hrest : ∀ l ∈ ls, IsLink p ((link x y .implicit ScopeId.global).run s).2 l :=
      fun l hl => (hls l (mem_cons_of_mem _ hl)).link _ _
    have htop : (s.body? ScopeId.global).isSome := by
      obtain ⟨b, hb, -⟩ := hs.top
      exact Option.isSome_of_mem hb
    rw [run_linkExternals_cons, ih (hlink.linking hs) hrest, edge_link hs.toLinked, mem_cons,
      Prod.mk.injEq]
    tauto

/-! ### All components -/

theorem pairwise_of_precedes {l : List String} (hnd : l.Nodup) {r : String → String → Prop}
    (h : ∀ {a b}, r a b → Precedes l b a) : l.Pairwise fun a b => ¬ r a b := by
  rw [pairwise_iff_getElem]
  intro i j hi hj hij hr
  obtain ⟨-, -, hlt⟩ := h hr
  rw [hnd.idxOf_getElem i hi, hnd.idxOf_getElem j hj] at hlt
  exact lt_asymm hij hlt

theorem needs_of_reachable (hs : s.components.names.Nodup) (hord : s.usage.order = .ok names)
    {c d x : String} (hreach : Relation.ReflTransGen s.Uses c d) (hneeds : s.Needs d x) :
    ((inheritExternals names).run s).2.Needs c x := by
  have hwf := wellFormed_usage s
  have hprec : ∀ {c d}, s.Uses c d → Precedes names d c := fun huses =>
    DependencyGraph.order_precedes hwf hord ((hasEdge_usage hs).mpr huses)
  have hnd := DependencyGraph.order_nodup hwf hord
  induction hreach using Relation.ReflTransGen.head_induction_on with
  | refl => exact (grows_inheritExternals names s).needs hneeds
  | head huses _ ih =>
    refine needs_inheritExternals (pairwise_of_precedes hnd hprec) (fun c _ hself => ?_)
      (hprec huses).2.1 huses ih
    exact lt_irrefl _ (hprec hself).2.2

/-- Components never use each other in a cycle, and in the graph of the top level an instance waits
for all that is needed by the components that are reachable from its own. -/
theorem linkComponents_spec (hs : Linking p s)
    (hfs : (linkComponents.run s).2.findings = []) :
    Advances p s (linkComponents.run s).2 ∧ (∀ c, ¬ Relation.TransGen s.Uses c c) ∧
      ∀ {c d w x}, Relation.ReflTransGen s.Uses c d → s.HasInstance c w → s.Needs d x →
        (linkComponents.run s).2.Edge ScopeId.global w x := by
  have hlinks : ∀ {t}, Linking p t → ∀ l ∈ t.externalLinks, IsLink p t l := by
    rintro t ht ⟨w, x⟩ hl
    obtain ⟨c, hw, hx⟩ := (mem_externalLinks ht.names).mp hl
    exact ⟨(ht.hasInstance hw).1, (ht.hasInstance hw).2, ht.needs hx⟩
  unfold linkComponents at hfs ⊢
  rw [run_get_bind] at hfs ⊢
  cases hord : s.usage.order with
  | error path =>
    rw [hord] at hfs
    have hrep : Advances p s ((report (.cycle path)).run s).2 := .of_frame (frame_report _ s)
    have hlast := advances_linkExternals (hlinks (hrep.linking hs))
    have hnil := hlast.findings_eq_nil hfs
    exact absurd hnil (concat_ne_nil _ _)
  | ok names =>
    rw [run_bind, run_get_bind]
    have hinherit : Advances p s ((inheritExternals names).run s).2 :=
      advances_inheritExternals names s
    have ht := hinherit.linking hs
    refine ⟨hinherit.trans (advances_linkExternals (hlinks ht)), fun c hcyc => ?_,
      fun hreach hw hx => ?_⟩
    · refine DependencyGraph.acyclic_of_order (wellFormed_usage s) hord c ?_
      exact Relation.TransGen.mono (fun _ _ => (hasEdge_usage hs.names).mpr) _ _ hcyc
    · have hneeds := needs_of_reachable hs.names hord hreach hx
      exact (edge_linkExternals ht (hlinks ht)).mpr
        (Or.inr ((mem_externalLinks ht.names).mpr ⟨_, hinherit.hasInstance hw, hneeds⟩))

/-! ### The order of each body -/

def Orders.get? (o : Orders) : Option String → Option (List String)
  | none => some o.top
  | some name => Table.find? o.components name

theorem Orders.get?_add (o : Orders) (b : Body) (order : List String) (c : Option String) :
    (o.add b order).get? c = if c = b.component then some order else o.get? c := by
  unfold Orders.add
  cases hb : b.component with
  | none => cases c <;> rfl
  | some name =>
    cases c with
    | none => rfl
    | some n =>
      simp only [Orders.get?, Table.find?_insert, Option.some.injEq]

/-- Putting bodies in order adds their orders to those before them, and changes no others. -/
theorem orderBodies_spec {bs : List (ScopeId × Body)} {o : Orders}
    (hnd : (bs.map (·.2.component)).Nodup)
    (hfs : ((orderBodies o bs).run s).2.findings = []) :
    ((orderBodies o bs).run s).2 = s ∧
      (∀ b ∈ bs, ∃ order, b.2.graph.order = .ok order ∧
        ((orderBodies o bs).run s).1.get? b.2.component = some order) ∧
      ∀ c, c ∉ bs.map (·.2.component) → ((orderBodies o bs).run s).1.get? c = o.get? c := by
  induction bs generalizing s o with
  | nil => exact ⟨rfl, fun b hb => (not_mem_nil hb).elim, fun c _ => rfl⟩
  | cons b bs ih =>
    obtain ⟨scope, b⟩ := b
    obtain ⟨hb, hnd⟩ := nodup_cons.mp hnd
    rw [orderBodies] at hfs ⊢
    cases hord : b.graph.order with
    | error path =>
      rw [hord] at hfs
      have hsame := (ih (o := o) (s := ((report (.cycle path)).run s).2) hnd hfs).1
      rw [run_bind, hsame] at hfs
      exact absurd hfs (concat_ne_nil _ _)
    | ok order =>
      rw [hord] at hfs
      obtain ⟨hsame, horders, hoth⟩ := ih hnd hfs
      refine ⟨hsame, fun b' hb' => ?_, fun c hc => ?_⟩
      · rcases mem_cons.mp hb' with rfl | hb'
        · exact ⟨order, hord, by rw [hoth _ hb, Orders.get?_add, if_pos rfl]⟩
        · exact horders b' hb'
      · rw [map_cons, mem_cons, not_or] at hc
        rw [hoth c hc.2, Orders.get?_add, if_neg hc.1]

theorem Placed.nodup_components (hs : Placed s) : (s.bodies.map (·.2.component)).Nodup := by
  have hinj : ∀ b ∈ s.bodies, ∀ b' ∈ s.bodies, b.2.component = b'.2.component → b = b' := by
    rintro ⟨scope, b⟩ hb ⟨scope', b'⟩ hb' heq
    have hbody := hs.mem_bodies.mp hb
    have hbody' := hs.mem_bodies.mp hb'
    obtain rfl : scope = scope' := hs.unique ⟨b, hbody, heq⟩ ⟨b', hbody', rfl⟩
    rw [Option.some.inj (hbody.symm.trans hbody')]
  exact Nodup.map_on hinj (Nodup.of_map _ hs.nodup)

end Provision.Session
