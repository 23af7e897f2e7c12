import Provision.Proofs.Dependency

/-!
# Cycles of dependency graphs

`DependencyGraph.findCycle?` gives a cycle exactly if there is one, and what it gives is a cycle of
the graph (`findCycle?_build`).

A walk that ends without a cycle leaves the visited nodes in a list in which all targets of a node
stand behind it (`Descending`, `visitAll_descending`): a node joins the list in front, after the
walk has put its targets there. The distance from the end of that list is a rank that falls along
edges, so no edges lead back to where they start (`acyclic_of_findCycle?`). A walk that stops stands
at the end of a path of edges over distinct nodes, and the edge that it meets leads back onto that
path (`visit_cycle`), so the part of the path from there on is a cycle (`isNodeCycle_closeCycle`).
-/

namespace Provision

open List

variable {path cycle : List Nat}

/-- A path along a relation that ends where it starts and meets nothing else twice. -/
structure IsCycle {α : Type} (r : α → α → Prop) (path : List α) : Prop where
  two_le_length : 2 ≤ path.length
  head?_eq_getLast? : path.head? = path.getLast?
  nodup_dropLast : path.dropLast.Nodup
  isChain : path.IsChain r

namespace DependencyGraph

variable {g : DependencyGraph} {a b : String}

/-! ### Walks without a cycle -/

/-- The targets of every node of a list stand behind it. -/
def Descending (g : DependencyGraph) : List Nat → Prop
  | [] => True
  | i :: rest => (∀ j ∈ g.targets i, j ∈ rest) ∧ g.Descending rest

/-- What a step of a walk that meets no cycle does: it keeps the list of visited nodes descending,
and its node is in the list then. -/
def Visits (g : DependencyGraph) (node : Nat) (done done' : List Nat) : Prop :=
  g.Descending done → g.Descending done' ∧ node ∈ done' ∧ done ⊆ done'

theorem visits_of_contains {node : Nat} {done : List Nat} (h : done.contains node = true) :
    g.Visits node done done :=
  fun hd => ⟨hd, contains_iff_mem.mp h, Subset.refl _⟩

theorem foldlM_visits {f : List Nat → Nat → Except (List Nat) (List Nat)} :
    ∀ (nodes done done' : List Nat),
      (∀ node ∈ nodes, ∀ d d', f d node = .ok d' → g.Visits node d d') →
      nodes.foldlM f done = .ok done' → g.Descending done →
      g.Descending done' ∧ nodes ⊆ done' ∧ done ⊆ done' := by
  intro nodes
  induction nodes with
  | nil =>
    intro done done' _ h hd
    obtain rfl : done = done' := by simpa [pure, Except.pure] using h
    exact ⟨hd, by simp, fun _ h => h⟩
  | cons node rest ih =>
    intro done done' hf h hd
    rw [foldlM_cons] at h
    cases hstep : f done node with
    | error path => rw [hstep] at h; cases h
    | ok mid =>
      rw [hstep] at h
      obtain ⟨hmid, hnode, hsub⟩ := hf node (mem_cons_self ..) _ _ hstep hd
      obtain ⟨hd', hrest, hsub'⟩ :=
        ih mid done' (fun n hn => hf n (mem_cons_of_mem _ hn)) h hmid
      exact ⟨hd', cons_subset.mpr ⟨hsub' hnode, hrest⟩, fun x hx => hsub' (hsub hx)⟩

theorem length_le_of_walk (hnd : path.Nodup)
    (hlt : ∀ i ∈ path, i < g.nodes.length) : path.length ≤ g.nodes.length := by
  have hsub : path ⊆ range g.nodes.length := fun i hi => mem_range.mpr (hlt i hi)
  have h := hnd.length_le_of_subset hsub
  rwa [length_range] at h

/-- A walk that meets no cycle keeps the nodes that were visited descending. -/
theorem visit_descending (hg : g.WellFormed) : ∀ (steps : Nat) (path done : List Nat) (node : Nat)
    (done' : List Nat), (node :: path).Nodup → (∀ i ∈ node :: path, i < g.nodes.length) →
      g.nodes.length ≤ path.length + steps → g.visit steps path done node = .ok done' →
      g.Visits node done done' := by
  intro steps
  induction steps with
  | zero =>
    -- a walk without steps left is longer than there are nodes
    intro path done node done' hnd hlt hsteps
    have hlen := length_le_of_walk hnd hlt
    rw [length_cons] at hlen
    omega
  | succ steps ih =>
    intro path done node done' hnd hlt hsteps h hd
    rw [visit] at h
    cases hfold : (g.targets node).foldlM (fun done next =>
        if (node :: path).contains next then .error (closeCycle (node :: path) next)
        else if done.contains next then .ok done
        else g.visit steps (node :: path) done next) done with
    | error cycle => simp only [hfold] at h; cases h
    | ok mid =>
      simp only [hfold] at h
      -- the node is put in front of the list only now, when its targets are all in it
      obtain rfl : node :: mid = done' := Except.ok.inj h
      obtain ⟨hmid, htgts, hsub⟩ := foldlM_visits (g.targets node) done mid (by
        intro next hnext d d' hstep
        have hin : next < g.nodes.length := hg.target_lt hnext
        by_cases hpath : (node :: path).contains next = true
        -- a target on the path would have been a cycle
        · rw [if_pos hpath] at hstep; cases hstep
        · rw [if_neg hpath] at hstep
          have hnew : next ∉ node :: path := fun hm => hpath (contains_iff_mem.mpr hm)
          by_cases hdone : d.contains next = true
          · rw [if_pos hdone] at hstep
            obtain rfl := Except.ok.inj hstep
            exact visits_of_contains hdone
          · -- the walk goes on, over one node more
            rw [if_neg hdone] at hstep
            refine ih (node :: path) d next d' (nodup_cons.mpr ⟨hnew, hnd⟩) ?_ ?_ hstep
            · exact forall_mem_cons.mpr ⟨hin, hlt⟩
            · rw [length_cons]; omega) hfold hd
      exact ⟨⟨fun j hj => htgts hj, hmid⟩, mem_cons_self ..,
        fun x hx => mem_cons_of_mem _ (hsub hx)⟩

/-- A walk over the whole graph that meets no cycle lists every node before its targets. -/
theorem visitAll_descending (hg : g.WellFormed) {done : List Nat} (h : g.visitAll = .ok done) :
    g.Descending done ∧ ∀ i < g.nodes.length, i ∈ done := by
  obtain ⟨hd, hall, -⟩ := foldlM_visits (g := g) (range g.nodes.length) [] done (by
    intro node hnode d d' hstep
    by_cases hdone : d.contains node = true
    · rw [if_pos hdone] at hstep
      obtain rfl := Except.ok.inj hstep
      exact visits_of_contains hdone
    · rw [if_neg hdone] at hstep
      refine visit_descending hg _ [] d node d' (nodup_singleton _) ?_ (by simp) hstep
      intro i hi
      rw [mem_singleton.mp hi]
      exact mem_range.mp hnode) h trivial
  exact ⟨hd, fun i hi => hall (mem_range.mpr hi)⟩

/-- How far the last place of a node is from the end of a list. -/
def rank (l : List Nat) (i : Nat) : Nat := l.reverse.idxOf i

theorem Descending.rank_lt {l : List Nat} (h : g.Descending l) {i j : Nat} (hi : i ∈ l)
    (hj : j ∈ g.targets i) : rank l j < rank l i := by
  induction l with
  | nil => simp at hi
  | cons k rest ih =>
    obtain ⟨hk, hrest⟩ := h
    unfold rank at ih ⊢
    rw [reverse_cons]
    -- a node that comes again further on has its rank from there
    by_cases hir : i ∈ rest
    · have hlt := ih hrest hir
      have hbd : rest.reverse.idxOf i < rest.reverse.length :=
        idxOf_lt_length_of_mem (mem_reverse.mpr hir)
      have hjr : j ∈ rest.reverse := idxOf_lt_length_iff.mp (hlt.trans hbd)
      rwa [idxOf_append_of_mem (mem_reverse.mpr hir), idxOf_append_of_mem hjr]
    · obtain rfl : i = k := (mem_cons.mp hi).resolve_right hir
      have hjr : j ∈ rest.reverse := mem_reverse.mpr (hk j hj)
      rw [idxOf_append_of_notMem (mt mem_reverse.mp hir), idxOf_append_of_mem hjr]
      have := idxOf_lt_length_of_mem hjr
      omega

/-! ### Walks that meet a cycle -/

/-- The nodes of a walk, the last one first: they differ, and an edge leads from each to the one
before it in the list. -/
structure IsWalk (g : DependencyGraph) (path : List Nat) : Prop where
  nodup : path.Nodup
  lt_length : ∀ i ∈ path, i < g.nodes.length
  isChain : path.IsChain fun j i => j ∈ g.targets i

theorem IsWalk.cons (hg : g.WellFormed) {node next : Nat} (h : g.IsWalk (node :: path))
    (hnext : next ∈ g.targets node) (hnew : next ∉ node :: path) :
    g.IsWalk (next :: node :: path) where
  nodup := nodup_cons.mpr ⟨hnew, h.nodup⟩
  lt_length := forall_mem_cons.mpr ⟨hg.target_lt hnext, h.lt_length⟩
  isChain := isChain_cons_cons.mpr ⟨hnext, h.isChain⟩

/-- A cycle by the numbers of its nodes. -/
structure IsNodeCycle (g : DependencyGraph) (path : List Nat) : Prop
    extends IsCycle (fun i j => j ∈ g.targets i) path where
  lt_length : ∀ i ∈ path, i < g.nodes.length

/-- An edge from the end of a walk back onto it closes a cycle. -/
theorem isNodeCycle_closeCycle {node back : Nat} (h : g.IsWalk (node :: path))
    (hback : back ∈ g.targets node) (hmem : back ∈ node :: path) :
    g.IsNodeCycle (closeCycle (node :: path) back) := by
  obtain ⟨later, earlier, hpath, hlater⟩ := eq_append_cons_of_mem hmem
  have htake : (node :: path).takeWhile (· != back) = later := by
    rw [hpath, takeWhile_append_of_pos, takeWhile_cons_of_neg] <;> simp
    rintro i hi rfl
    exact hlater hi
  have hclose : closeCycle (node :: path) back = back :: (later.reverse ++ [back]) := by
    rw [closeCycle, htake]
  have hsub : later ++ [back] <+: node :: path := ⟨earlier, by simp [hpath]⟩
  have hnd : (later ++ [back]).Nodup := h.nodup.sublist hsub.sublist
  rw [hclose]
  refine { two_le_length := by simp, head?_eq_getLast? := ?_, nodup_dropLast := ?_,
           isChain := ?_, lt_length := ?_ }
  · rw [← cons_append, getLast?_concat]
    rfl
  · have hdrop : (back :: (later.reverse ++ [back])).dropLast = (later ++ [back]).reverse := by
      rw [← cons_append, dropLast_concat, reverse_append]
      rfl
    rw [hdrop]
    exact nodup_reverse.mpr hnd
  · -- backwards the cycle is the walk down to where the edge leads, behind that node
    have hrev : back :: (later.reverse ++ [back]) = (back :: (later ++ [back])).reverse := by simp
    rw [hrev, isChain_reverse, isChain_cons]
    refine ⟨?_, h.isChain.prefix hsub⟩
    intro i hi
    obtain rfl : i = node := by
      obtain ⟨rest, hrest⟩ := hsub
      cases later with
      | nil => simp_all
      | cons j later => simp_all
    exact hback
  · intro i hi
    refine h.lt_length i (hsub.subset ?_)
    simpa [or_comm] using hi

theorem exists_of_foldlM_error {f : List Nat → Nat → Except (List Nat) (List Nat)} :
    ∀ (nodes done : List Nat), nodes.foldlM f done = .error cycle →
      ∃ node ∈ nodes, ∃ d, f d node = .error cycle := by
  intro nodes
  induction nodes with
  | nil => intro done h; cases h
  | cons node rest ih =>
    intro done h
    rw [foldlM_cons] at h
    cases hstep : f done node with
    | error path =>
      rw [hstep] at h
      obtain rfl : path = cycle := Except.error.inj h
      exact ⟨node, mem_cons_self .., done, hstep⟩
    | ok mid =>
      rw [hstep] at h
      obtain ⟨n, hn, hd⟩ := ih mid h
      exact ⟨n, mem_cons_of_mem _ hn, hd⟩

/-- What a walk reports is a cycle. -/
theorem visit_cycle (hg : g.WellFormed) : ∀ (steps : Nat) (path done : List Nat) (node : Nat)
    (cycle : List Nat), g.IsWalk (node :: path) → g.visit steps path done node = .error cycle →
      g.IsNodeCycle cycle := by
  intro steps
  induction steps with
  | zero => intro path done node cycle _ h; cases h
  | succ steps ih =>
    intro path done node cycle hwalk h
    rw [visit] at h
    cases hfold : (g.targets node).foldlM (fun done next =>
        if (node :: path).contains next then .error (closeCycle (node :: path) next)
        else if done.contains next then .ok done
        else g.visit steps (node :: path) done next) done with
    | ok mid => simp only [hfold] at h; cases h
    | error found =>
      simp only [hfold] at h
      obtain rfl : found = cycle := Except.error.inj h
      obtain ⟨next, hnext, d, hstep⟩ := exists_of_foldlM_error _ _ hfold
      by_cases hpath : (node :: path).contains next = true
      · rw [if_pos hpath] at hstep
        rw [← Except.error.inj hstep]
        exact isNodeCycle_closeCycle hwalk hnext (contains_iff_mem.mp hpath)
      · rw [if_neg hpath] at hstep
        have hnew : next ∉ node :: path := fun hm => hpath (contains_iff_mem.mpr hm)
        by_cases hdone : d.contains next = true
        · rw [if_pos hdone] at hstep; cases hstep
        · rw [if_neg hdone] at hstep
          exact ih _ _ _ _ (hwalk.cons hg hnext hnew) hstep

theorem visitAll_cycle (hg : g.WellFormed) (h : g.visitAll = .error cycle) :
    g.IsNodeCycle cycle := by
  obtain ⟨node, hnode, d, hstep⟩ := exists_of_foldlM_error _ _ h
  by_cases hdone : d.contains node = true
  · rw [if_pos hdone] at hstep; cases hstep
  · rw [if_neg hdone] at hstep
    refine visit_cycle hg _ _ _ _ _ ⟨nodup_singleton _, ?_, isChain_singleton _⟩ hstep
    intro i hi
    rw [mem_singleton.mp hi]
    exact mem_range.mp hnode

/-! ### Names -/

theorem getElem?_name {i : Nat} (hi : i < g.nodes.length) : g.nodes[i]? = some (g.name i) := by
  rw [name, getElem?_eq_getElem hi, Option.getD_some]

theorem exists_name (ha : a ∈ g.nodes) : ∃ i < g.nodes.length, g.name i = a := by
  obtain ⟨i, hi, rfl⟩ := getElem_of_mem ha
  exact ⟨i, hi, by rw [name, getElem?_eq_getElem hi, Option.getD_some]⟩

theorem WellFormed.idxOf_name (hg : g.WellFormed) {i : Nat} (hi : i < g.nodes.length) :
    g.nodes.idxOf (g.name i) = i := by
  rw [name, getElem?_eq_getElem hi, Option.getD_some]
  exact hg.nodup.idxOf_getElem i hi

theorem WellFormed.name_inj (hg : g.WellFormed) {i j : Nat} (hi : i < g.nodes.length)
    (hj : j < g.nodes.length) (h : g.name i = g.name j) : i = j := by
  rw [← hg.idxOf_name hi, h, hg.idxOf_name hj]

theorem HasEdge.exists_nodes (hg : g.WellFormed) (h : g.HasEdge a b) :
    ∃ i j, i < g.nodes.length ∧ j ∈ g.targets i ∧ g.name i = a ∧ g.name j = b := by
  obtain ⟨e, he, ha, hb⟩ := h
  refine ⟨e.source, e.target, (hg.bounds e he).1, mem_targets.mpr ⟨e, he, rfl, rfl⟩, ?_, ?_⟩
  · rw [name, ha, Option.getD_some]
  · rw [name, hb, Option.getD_some]

theorem hasEdge_name (hg : g.WellFormed) {i j : Nat} (h : j ∈ g.targets i) :
    g.HasEdge (g.name i) (g.name j) := by
  obtain ⟨e, he, rfl, rfl⟩ := mem_targets.mp h
  obtain ⟨hsrc, htgt⟩ := hg.bounds e he
  exact ⟨e, he, getElem?_name hsrc, getElem?_name htgt⟩

/-! ### Cycles -/

theorem IsNodeCycle.map_name (hg : g.WellFormed) (h : g.IsNodeCycle cycle) :
    IsCycle g.HasEdge (cycle.map g.name) where
  two_le_length := by
    rw [length_map]
    exact h.two_le_length
  head?_eq_getLast? := by
    rw [head?_map, getLast?_map, h.head?_eq_getLast?]
  nodup_dropLast := by
    rw [← map_dropLast]
    refine Nodup.map_on (fun i hi j hj hij => ?_) h.nodup_dropLast
    exact hg.name_inj (h.lt_length i (mem_of_mem_dropLast hi))
      (h.lt_length j (mem_of_mem_dropLast hj)) hij
  isChain := by
    rw [isChain_map]
    exact h.isChain.imp fun i j hij => hasEdge_name hg hij

theorem exists_transGen_of_isCycle {r : String → String → Prop} {path : List String}
    (h : IsCycle r path) : ∃ a, Relation.TransGen r a a := by
  obtain ⟨hlen, hclosed, -, hchain⟩ := h
  match path with
  | [] | [_] => simp at hlen
  | a :: b :: rest =>
    obtain ⟨hab, hrest⟩ := isChain_cons_cons.mp hchain
    refine ⟨a, .head' hab (relationReflTransGen_of_exists_isChain_cons rest hrest ?_)⟩
    simpa [getLast?_eq_some_getLast, eq_comm] using hclosed

theorem acyclic_of_findCycle? (hg : g.WellFormed) (h : g.findCycle? = none) (a : String) :
    ¬ Relation.TransGen g.HasEdge a a := by
  unfold findCycle? at h
  cases hvis : g.visitAll with
  | error path => rw [hvis] at h; cases h
  | ok done =>
    obtain ⟨hdesc, hall⟩ := visitAll_descending hg hvis
    -- a name has the rank of its node
    have hlt : ∀ b, Relation.TransGen g.HasEdge a b →
        rank done (g.nodes.idxOf b) < rank done (g.nodes.idxOf a) := by
      have hstep : ∀ x y, g.HasEdge x y →
          rank done (g.nodes.idxOf y) < rank done (g.nodes.idxOf x) := by
        intro x y hxy
        obtain ⟨i, j, hi, hj, rfl, rfl⟩ := hxy.exists_nodes hg
        rw [hg.idxOf_name hi, hg.idxOf_name (hg.target_lt hj)]
        exact hdesc.rank_lt (hall i hi) hj
      intro b hab
      induction hab with
      | single hab => exact hstep _ _ hab
      | tail _ hbc ih => exact (hstep _ _ hbc).trans ih
    exact fun haa => (hlt a haa).false

theorem isCycle_of_findCycle? (hg : g.WellFormed) {path : List String}
    (h : g.findCycle? = some path) : IsCycle g.HasEdge path := by
  unfold findCycle? at h
  cases hvis : g.visitAll with
  | ok done => rw [hvis] at h; cases h
  | error cycle =>
    rw [hvis] at h
    rw [← Option.some.inj h]
    exact (visitAll_cycle hg hvis).map_name hg

theorem findCycle?_isSome_iff (hg : g.WellFormed) :
    g.findCycle?.isSome ↔ ∃ a, Relation.TransGen g.HasEdge a a := by
  cases h : g.findCycle? with
  | none => simpa using acyclic_of_findCycle? hg h
  | some path => simpa using exists_transGen_of_isCycle (isCycle_of_findCycle? hg h)

/-- Whatever was registered, a cycle is found exactly if there is one, and what is found is a
cycle. -/
theorem findCycle?_build (rs : List Registration) :
    ((build rs).findCycle?.isSome ↔ ∃ a, Relation.TransGen (build rs).HasEdge a a) ∧
      ∀ path, (build rs).findCycle? = some path → IsCycle (build rs).HasEdge path :=
  ⟨findCycle?_isSome_iff (wellFormed_build rs),
    fun _ h => isCycle_of_findCycle? (wellFormed_build rs) h⟩

/-- A name that leads into a cycle is no part of it. -/
theorem findCycle?_build_entry :
    let rs : List Registration :=
      [.edge "entry" "a" .implicit, .edge "a" "b" .explicit, .node "c", .edge "b" "a" .implicit]
    (build rs).findCycle? = some ["a", "b", "a"] ∧
      (∃ a, Relation.TransGen (build rs).HasEdge a a) ∧
      IsCycle (build rs).HasEdge ["a", "b", "a"] := by
  intro rs
  have hfind : (build rs).findCycle? = some ["a", "b", "a"] := by decide +kernel
  obtain ⟨hiff, hcyc⟩ := findCycle?_build rs
  exact ⟨hfind, hiff.mp (by rw [hfind]; rfl), hcyc _ hfind⟩

end DependencyGraph

end Provision
