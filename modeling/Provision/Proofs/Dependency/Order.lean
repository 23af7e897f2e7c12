import Provision.Proofs.Dependency.Cycles

/-!
# Orders of dependency graphs

`DependencyGraph.order` lists the names of a graph without a cycle, each once and behind all that it
depends on; of all such lists it is the least by the numbers of the names (`order_build`). A graph
with an order has no cycle (`acyclic_of_order`).

While nodes are listed, the count of a node is the number of its targets that are not listed yet,
and the ready nodes are those whose targets all are (`Agenda.Follows`). Listing the least ready node
keeps that (`Agenda.Follows.step`): a target is counted down by the nodes that depend on it, as
often as it is theirs, so no count falls below zero. What comes out takes at every place the first
name that could stand there (`Greedy`, `orderFrom_greedy`), and nothing is left once no node is
ready, as the walk without a cycle ranks the nodes. Any other order differs first at a place where
it takes a name that was registered later (`Greedy.earlier`).
-/

namespace Provision.DependencyGraph

open List

variable {g : DependencyGraph} {a b : String} {ag : Agenda} {i : Nat} {listed : List Nat}

/-! ### Counts -/

def Agenda.count (ag : Agenda) (i : Nat) : Nat := ag.pending[i]?.getD 0

/-- The ready nodes differ and wait for none. -/
structure Agenda.Tidy (ag : Agenda) : Prop where
  nodup : ag.ready.Nodup
  count_eq_zero : ∀ i ∈ ag.ready, ag.count i = 0

theorem Agenda.countDown_eq (h : 0 < ag.count i) :
    ∃ ag', ag.countDown i = some ag' ∧
      (∀ j, ag'.count j = if j = i then ag.count i - 1 else ag.count j) ∧
      ag'.ready = if ag.count i = 1 then i :: ag.ready else ag.ready := by
  unfold Agenda.count at h
  cases hi : ag.pending[i]? with
  | none => simp [hi] at h
  | some n =>
    obtain ⟨m, rfl⟩ : ∃ m, n = m + 1 := ⟨n - 1, by simp [hi] at h; omega⟩
    have hlt : i < ag.pending.length := (List.getElem?_eq_some_iff.mp hi).1
    refine ⟨_, by simp only [Agenda.countDown, hi]; rfl, fun j => ?_, ?_⟩
    · by_cases hj : j = i
      · subst hj
        rw [if_pos rfl, Agenda.count, Agenda.count, getElem?_set_self hlt, hi]
        rfl
      · simp [Agenda.count, getElem?_set_ne (Ne.symm hj), hj]
    · simp [Agenda.count, hi]

theorem Agenda.Tidy.countDown {ag' : Agenda} (h : ag.Tidy) (hi : 0 < ag.count i)
    (hcnt : ∀ j, ag'.count j = if j = i then ag.count i - 1 else ag.count j)
    (hready : ag'.ready = if ag.count i = 1 then i :: ag.ready else ag.ready) : ag'.Tidy := by
  -- the node was not ready, since it had a count
  have hnew : i ∉ ag.ready := fun hmem => by
    have := h.count_eq_zero i hmem
    omega
  constructor
  · rw [hready]
    split
    · exact nodup_cons.mpr ⟨hnew, h.nodup⟩
    · exact h.nodup
  · intro j hj
    rw [hcnt j]
    by_cases hji : j = i
    · subst hji
      rw [if_pos rfl]
      rw [hready] at hj
      split at hj
      · omega
      · exact absurd hj hnew
    · rw [if_neg hji]
      refine h.count_eq_zero j ?_
      rw [hready] at hj
      split at hj
      · exact (mem_cons.mp hj).resolve_left hji
      · exact hj

/-- Counting nodes down, each at most as often as its count: the nodes that were counted down to
none become ready. -/
theorem Agenda.Tidy.foldlM_countDown : ∀ (is : List Nat) {ag : Agenda}, ag.Tidy →
    (∀ i, is.count i ≤ ag.count i) →
    ∃ ag', is.foldlM Agenda.countDown ag = some ag' ∧ ag'.Tidy ∧
      (∀ i, ag'.count i = ag.count i - is.count i) ∧
      ∀ i, i ∈ ag'.ready ↔ i ∈ ag.ready ∨ (i ∈ is ∧ ag'.count i = 0) := by
  intro is
  induction is with
  | nil => intro ag h _; exact ⟨ag, rfl, h, by simp, by simp⟩
  | cons i rest ih =>
    intro ag h hle
    have hi : 0 < ag.count i := by
      have := hle i
      rw [count_cons_self] at this
      omega
    obtain ⟨mid, hmid, hcnt, hready⟩ := Agenda.countDown_eq hi
    have hrest : ∀ j, rest.count j ≤ mid.count j := by
      intro j
      have hj := hle j
      rw [hcnt j]
      by_cases hji : j = i
      · subst hji
        rw [count_cons_self] at hj
        rw [if_pos rfl]
        omega
      · rw [if_neg hji]
        rwa [count_cons_of_ne (Ne.symm hji)] at hj
    obtain ⟨ag', hfold, htidy, hcnt', hready'⟩ := ih (h.countDown hi hcnt hready) hrest
    refine ⟨ag', ?_, htidy, fun j => ?_, fun j => ?_⟩
    · rw [foldlM_cons, hmid]
      exact hfold
    · rw [hcnt' j, hcnt j]
      by_cases hji : j = i
      · subst hji
        rw [if_pos rfl, count_cons_self]
        omega
      · rw [if_neg hji, count_cons_of_ne (Ne.symm hji)]
    · rw [hready' j, hready]
      by_cases hji : j = i
      · subst hji
        -- a node that comes again is ready only when it is counted down for the last time
        have hcj := hcnt' j
        rw [hcnt j, if_pos rfl] at hcj
        have hzero := List.count_eq_zero (a := j) (l := rest)
        by_cases hmem : j ∈ rest
        · have hpos := count_pos_iff.mpr hmem
          have hle' := hrest j
          rw [hcnt j, if_pos rfl] at hle'
          rw [if_neg (by omega)]
          simp [hmem]
        · have hrest0 := hzero.mpr hmem
          by_cases hone : ag.count j = 1
          · rw [if_pos hone]
            simp [hcj, hone]
          · rw [if_neg hone]
            have : ag'.count j ≠ 0 := by omega
            simp [hmem, this]
      · split <;> simp [hji]

/-! ### Listing nodes -/

/-- How many targets of a node are not listed, counted as often as there are edges to them. -/
def missing (g : DependencyGraph) (listed : List Nat) (i : Nat) : Nat :=
  (g.targets i).countP (· ∉ listed)

def Free (g : DependencyGraph) (listed : List Nat) (i : Nat) : Prop :=
  i < g.nodes.length ∧ i ∉ listed ∧ ∀ j ∈ g.targets i, j ∈ listed

/-- What is left to do when some nodes are listed. -/
structure Agenda.Follows (ag : Agenda) (g : DependencyGraph) (listed : List Nat) : Prop where
  nodup : ag.ready.Nodup
  count_eq : ∀ i, ag.count i = g.missing listed i
  mem_ready : ∀ i, i ∈ ag.ready ↔ g.Free listed i
  lt_length : ∀ i ∈ listed, i < g.nodes.length
  closed : ∀ i ∈ listed, ∀ j ∈ g.targets i, j ∈ listed

theorem missing_eq_zero : g.missing listed i = 0 ↔ ∀ j ∈ g.targets i, j ∈ listed := by
  simp [missing]

theorem missing_concat {node : Nat} (hnew : node ∉ listed) (i : Nat) :
    g.missing (listed ++ [node]) i + (g.targets i).count node = g.missing listed i := by
  unfold missing
  induction g.targets i with
  | nil => rfl
  | cons j rest ih =>
    rw [countP_cons, countP_cons, count_cons, ← ih]
    by_cases hj : j = node
    · subst hj
      simp [hnew]
      omega
    · simp [hj]
      omega

theorem count_sources (g : DependencyGraph) (i node : Nat) :
    (g.sources node).count i = (g.targets i).count node := by
  rw [sources, targets, (mergeSort_perm _ _).count, count_eq_countP,
    count_eq_countP, countP_map, countP_map, countP_filter, countP_filter]
  exact countP_congr fun e _ => by simp [and_comm]

theorem targets_eq_nil (hg : g.WellFormed) (hi : g.nodes.length ≤ i) : g.targets i = [] := by
  refine eq_nil_iff_forall_not_mem.mpr fun j hj => ?_
  obtain ⟨e, he, rfl, -⟩ := mem_targets.mp hj
  have := (hg.bounds e he).1
  omega

theorem follows_agenda (hg : g.WellFormed) : g.agenda.Follows g [] := by
  have hcnt : ∀ i, g.agenda.count i = g.missing [] i := by
    intro i
    have hmissing : g.missing [] i = (g.targets i).length := by simp [missing]
    rw [hmissing]
    unfold Agenda.count agenda
    by_cases hi : i < g.nodes.length
    · simp [hi]
    · simp [hi, targets_eq_nil hg (Nat.le_of_not_lt hi)]
  refine ⟨nodup_range.filter _, hcnt, fun i => ?_, by simp, by simp⟩
  simp only [agenda, Free, mem_filter, mem_range, not_mem_nil, not_false_eq_true,
    true_and, beq_iff_eq, imp_false]
  refine and_congr_right fun hi => ?_
  simp [hi, eq_nil_iff_forall_not_mem]

/-- Listing the least ready node: no count falls below zero, and what is left follows. -/
theorem Agenda.Follows.step {node : Nat} (h : ag.Follows g listed) (hg : g.WellFormed)
    (hnode : g.Free listed node) :
    ∃ ag', (g.sources node).foldlM Agenda.countDown { ag with ready := ag.ready.erase node } =
      some ag' ∧ ag'.Follows g (listed ++ [node]) := by
  obtain ⟨hlt, hnew, htgts⟩ := hnode
  have hmissing := missing_concat (g := g) hnew
  have htidy : Agenda.Tidy { ag with ready := ag.ready.erase node } := by
    refine ⟨h.nodup.erase node, fun i hi => ?_⟩
    have hready := (h.mem_ready i).mp (mem_of_mem_erase hi)
    exact (h.count_eq i).trans (missing_eq_zero.mpr hready.2.2)
  obtain ⟨ag', hfold, htidy', hcnt, hready⟩ :=
    htidy.foldlM_countDown (g.sources node) fun i => by
      have hi := h.count_eq i
      unfold Agenda.count at hi ⊢
      rw [count_sources, hi, ← hmissing i]
      omega
  have hcnt' : ∀ i, ag'.count i = g.missing (listed ++ [node]) i := by
    intro i
    have hi : Agenda.count { ag with ready := ag.ready.erase node } i = g.missing listed i :=
      h.count_eq i
    rw [hcnt i, hi, count_sources, ← hmissing i]
    omega
  -- nothing that is listed depends on the node
  have hself : ∀ i ∈ listed ++ [node], node ∉ g.targets i := by
    intro i hi hmem
    rcases mem_append.mp hi with hi | hi
    · exact hnew (h.closed i hi node hmem)
    · rw [mem_singleton.mp hi] at hmem
      exact hnew (htgts node hmem)
  refine ⟨ag', hfold, htidy'.nodup, hcnt', fun i => ?_, ?_, ?_⟩
  · rw [hready i, hcnt' i, missing_eq_zero, h.nodup.mem_erase_iff, h.mem_ready i, mem_sources]
    constructor
    · rintro (⟨hne, hi, hi', hall⟩ | ⟨hsrc, hall⟩)
      · exact ⟨hi, by simp [hi', hne], fun j hj => mem_append_left _ (hall j hj)⟩
      · refine ⟨?_, fun hi => hself i hi hsrc, hall⟩
        obtain ⟨e, he, rfl, -⟩ := mem_targets.mp hsrc
        exact (hg.bounds e he).1
    · rintro ⟨hi, hi', hall⟩
      by_cases hsrc : node ∈ g.targets i
      · exact Or.inr ⟨hsrc, hall⟩
      · refine Or.inl ⟨?_, hi, ?_, fun j hj => ?_⟩
        · rintro rfl; simp at hi'
        · exact fun hmem => hi' (mem_append_left _ hmem)
        · rcases mem_append.mp (hall j hj) with hj' | hj'
          · exact hj'
          · exact absurd (mem_singleton.mp hj' ▸ hj) hsrc
  · intro i hi
    rcases mem_append.mp hi with hi | hi
    · exact h.lt_length i hi
    · rw [mem_singleton.mp hi]
      exact hlt
  · intro i hi j hj
    rcases mem_append.mp hi with hi | hi
    · exact mem_append_left _ (h.closed i hi j hj)
    · rw [mem_singleton.mp hi] at hj
      exact mem_append_left _ (htgts j hj)

/-! ### Greedy lists -/

/-- A name could come next: it is not listed, but all that it depends on is. -/
def Available (g : DependencyGraph) (listed : List String) (a : String) : Prop :=
  a ∈ g.nodes ∧ a ∉ listed ∧ ∀ b, g.HasEdge a b → b ∈ listed

/-- Of the names that could come next a name was registered first. -/
def IsNext (g : DependencyGraph) (listed : List String) (a : String) : Prop :=
  g.Available listed a ∧ ∀ b, g.Available listed b → g.nodes.idxOf a ≤ g.nodes.idxOf b

/-- After the listed names a list takes at every place the name that is next. -/
def Greedy (g : DependencyGraph) : (listed rest : List String) → Prop
  | _, [] => True
  | listed, a :: rest => g.IsNext listed a ∧ g.Greedy (listed ++ [a]) rest

theorem available_name (hg : g.WellFormed) (hlst : ∀ i ∈ listed, i < g.nodes.length)
    (hi : i < g.nodes.length) : g.Available (listed.map g.name) (g.name i) ↔ g.Free listed i := by
  have hmem : ∀ j < g.nodes.length, (g.name j ∈ listed.map g.name ↔ j ∈ listed) := by
    intro j hj
    refine ⟨fun h => ?_, mem_map_of_mem⟩
    obtain ⟨k, hk, hnm⟩ := mem_map.mp h
    exact hg.name_inj (hlst k hk) hj hnm ▸ hk
  unfold Available Free
  rw [hmem i hi]
  refine and_congr (iff_of_true (mem_of_getElem? (getElem?_name hi)) hi)
    (and_congr_right fun _ => ⟨?_, ?_⟩)
  · intro h j hj
    exact (hmem j (hg.target_lt hj)).mp (h _ (hasEdge_name hg hj))
  · intro h b hb
    obtain ⟨i', j, hi', hj, hnm, rfl⟩ := hb.exists_nodes hg
    obtain rfl := hg.name_inj hi' hi hnm
    exact mem_map_of_mem (h j hj)

theorem isNext_name (hg : g.WellFormed) (h : ag.Follows g listed) {node : Nat}
    (hmin : ag.ready.min? = some node) : g.IsNext (listed.map g.name) (g.name node) := by
  obtain ⟨hmem, hle⟩ := min?_eq_some_iff.mp hmin
  have hfree := (h.mem_ready node).mp hmem
  refine ⟨(available_name hg h.lt_length hfree.1).mpr hfree, fun b hb => ?_⟩
  obtain ⟨i, hi, rfl⟩ := exists_name hb.1
  rw [hg.idxOf_name hfree.1, hg.idxOf_name hi]
  exact hle i ((h.mem_ready i).mpr ((available_name hg h.lt_length hi).mp hb))

/-- Listing nodes gives a greedy list, and ends early only if no node is free. -/
theorem orderFrom_greedy (hg : g.WellFormed) : ∀ (steps : Nat) (ag : Agenda) (listed : List Nat),
    ag.Follows g listed → ∃ rest, g.orderFrom steps ag = some rest ∧
      g.Greedy (listed.map g.name) (rest.map g.name) ∧ (∀ i ∈ rest, i < g.nodes.length) ∧
      (rest.length = steps ∨ ∀ i, ¬ g.Free (listed ++ rest) i) := by
  intro steps
  induction steps with
  | zero => intro ag listed _; exact ⟨[], rfl, trivial, by simp, Or.inl rfl⟩
  | succ steps ih =>
    intro ag listed h
    cases hmin : ag.ready.min? with
    | none =>
      refine ⟨[], by rw [orderFrom, hmin], trivial, by simp, Or.inr fun i hi => ?_⟩
      rw [append_nil] at hi
      have hready := (h.mem_ready i).mpr hi
      rw [min?_eq_none_iff.mp hmin] at hready
      exact not_mem_nil hready
    | some node =>
      have hfree := (h.mem_ready node).mp (min?_eq_some_iff.mp hmin).1
      obtain ⟨ag', hfold, h'⟩ := h.step hg hfree
      obtain ⟨rest, hrest, hgreedy, hlt, hend⟩ := ih ag' _ h'
      refine ⟨node :: rest, ?_, ⟨isNext_name hg h hmin, ?_⟩, ?_, ?_⟩
      · simp [orderFrom, hmin, hfold, hrest]
      · simpa using hgreedy
      · exact forall_mem_cons.mpr ⟨hfree.1, hlt⟩
      · rw [append_assoc] at hend
        simpa using hend

theorem Greedy.nodup : ∀ {listed rest : List String}, g.Greedy listed rest →
    rest.Nodup ∧ ∀ a ∈ rest, a ∉ listed ∧ a ∈ g.nodes
  | _, [], _ => by simp
  | listed, c :: rest, ⟨hnext, h⟩ => by
    obtain ⟨hnd, hrest⟩ := h.nodup
    obtain ⟨⟨hc, hnew, -⟩, -⟩ := hnext
    refine ⟨nodup_cons.mpr ⟨fun hmem => ?_, hnd⟩, ?_⟩
    · exact (hrest c hmem).1 (mem_append_right _ (mem_singleton_self c))
    · refine forall_mem_cons.mpr ⟨⟨hnew, hc⟩, fun a ha => ?_⟩
      exact ⟨fun hmem => (hrest a ha).1 (mem_append_left _ hmem), (hrest a ha).2⟩

theorem Greedy.sublist (hab : g.HasEdge a b) : ∀ {listed rest : List String},
    g.Greedy listed rest → a ∈ rest → b ∈ listed ∨ [b, a].Sublist rest
  | _, [], _, ha => absurd ha not_mem_nil
  | listed, c :: rest, ⟨hnext, h⟩, ha => by
    rcases mem_cons.mp ha with rfl | ha
    · exact Or.inl (hnext.1.2.2 b hab)
    · rcases h.sublist hab ha with hb | hsub
      · rcases mem_append.mp hb with hb | hb
        · exact Or.inl hb
        · rw [mem_singleton.mp hb]
          exact Or.inr (.cons_cons c (singleton_sublist.mpr ha))
      · exact Or.inr (.cons c hsub)

/-! ### Orders -/

/-- A list has all names of a graph, each once and behind those that it depends on. -/
structure IsOrder (g : DependencyGraph) (l : List String) : Prop where
  nodup : l.Nodup
  mem_iff : ∀ a, a ∈ l ↔ a ∈ g.nodes
  precedes : ∀ a b, g.HasEdge a b → Precedes l b a

/-- One list takes a name that was registered before that of the other where they first differ. -/
def Earlier (g : DependencyGraph) : List String → List String → Prop :=
  Lex fun a b => g.nodes.idxOf a < g.nodes.idxOf b

theorem precedes_of_sublist {l : List String} (hnd : l.Nodup) (h : [a, b].Sublist l) :
    Precedes l a b := by
  refine ⟨h.subset (by simp), h.subset (by simp), ?_⟩
  induction l with
  | nil => simp at h
  | cons c l ih =>
    obtain ⟨hc, hl⟩ := nodup_cons.mp hnd
    cases h with
    | cons _ h =>
      have ha : a ≠ c := fun e => hc (e ▸ h.subset (by simp))
      have hb : b ≠ c := fun e => hc (e ▸ h.subset (by simp))
      rw [idxOf_cons_ne _ ha.symm, idxOf_cons_ne _ hb.symm]
      exact Nat.succ_lt_succ (ih hl h)
    | cons_cons _ h =>
      have hb : b ≠ a := fun e => hc (e ▸ singleton_sublist.mp h)
      rw [idxOf_cons_self, idxOf_cons_ne _ hb.symm]
      exact Nat.succ_pos _

theorem Greedy.isOrder {l : List String} (h : g.Greedy [] l) (hall : ∀ a ∈ g.nodes, a ∈ l) :
    g.IsOrder l where
  nodup := h.nodup.1
  mem_iff a := ⟨fun ha => (h.nodup.2 a ha).2, hall a⟩
  precedes a b hab := by
    have hsub := (h.sublist hab (hall a hab.mem_nodes.1)).resolve_left not_mem_nil
    exact precedes_of_sublist h.nodup.1 hsub

theorem IsOrder.available {before after : List String} (h : g.IsOrder (before ++ a :: after)) :
    g.Available before a := by
  have ha : a ∉ before := fun hmem =>
    (nodup_append.mp h.nodup).2.2 a hmem a (mem_cons_self ..) rfl
  refine ⟨(h.mem_iff a).mp (by simp), ha, fun b hab => ?_⟩
  obtain ⟨-, -, hlt⟩ := h.precedes a b hab
  rw [idxOf_append_of_notMem ha, idxOf_cons_self] at hlt
  by_contra hb
  rw [idxOf_append_of_notMem hb] at hlt
  omega

/-- No order is earlier than a greedy one: where they first differ, the name that is next was
registered before any other that could come there. -/
theorem Greedy.earlier : ∀ {listed rest rest' : List String}, g.Greedy listed rest →
    (∀ a ∈ g.nodes, a ∈ listed ++ rest) → g.IsOrder (listed ++ rest') →
    rest = rest' ∨ g.Earlier rest rest'
  | listed, [], [], _, _, _ => Or.inl rfl
  | listed, [], c :: rest', _, hall, h' => by
    obtain ⟨hc, hnew, -⟩ := h'.available
    exact absurd (by simpa using hall c hc) hnew
  | listed, a :: rest, [], ⟨hnext, _⟩, _, h' => by
    obtain ⟨⟨ha, hnew, -⟩, -⟩ := hnext
    exact absurd (by simpa using (h'.mem_iff a).mpr ha) hnew
  | listed, a :: rest, c :: rest', ⟨hnext, h⟩, hall, h' => by
    have hle := hnext.2 c h'.available
    by_cases hac : a = c
    · subst hac
      rcases h.earlier (by simpa using hall) (by simpa using h') with rfl | hlex
      · exact Or.inl rfl
      · exact Or.inr (.cons hlex)
    · refine Or.inr (.rel (lt_of_le_of_ne hle fun heq => hac ?_))
      exact (idxOf_inj hnext.1.1).mp heq

theorem mem_of_not_free {done : List Nat} (hdesc : g.Descending done)
    (hall : ∀ i < g.nodes.length, i ∈ done) (hg : g.WellFormed)
    (hend : ∀ i, ¬ g.Free listed i) : ∀ r, ∀ i < g.nodes.length, rank done i = r → i ∈ listed := by
  intro r
  induction r using Nat.strong_induction_on with
  | _ r ih =>
    intro i hi hr
    by_contra hnew
    refine hend i ⟨hi, hnew, fun j hj => ?_⟩
    exact ih (rank done j) (hr ▸ hdesc.rank_lt (hall i hi) hj) j (hg.target_lt hj) rfl

theorem mem_of_length {l : List Nat} (hnd : l.Nodup) (hlt : ∀ i ∈ l, i < g.nodes.length)
    (hlen : l.length = g.nodes.length) (hi : i < g.nodes.length) : i ∈ l := by
  have hsub : l ⊆ range g.nodes.length := fun j hj => mem_range.mpr (hlt j hj)
  have hperm : l.Perm (range g.nodes.length) :=
    (hnd.subperm hsub).perm_of_length_le (by simp [hlen])
  exact hperm.mem_iff.mpr (mem_range.mpr hi)

variable {l : List String}

theorem order_spec (hg : g.WellFormed) (h : g.order = .ok l) :
    g.Greedy [] l ∧ ∀ a ∈ g.nodes, a ∈ l := by
  unfold order findCycle? at h
  cases hvis : g.visitAll with
  | error path => rw [hvis] at h; cases h
  | ok done =>
    rw [hvis] at h
    obtain ⟨hdesc, hdone⟩ := visitAll_descending hg hvis
    obtain ⟨rest, hrest, hgreedy, hlt, hend⟩ :=
      orderFrom_greedy hg g.nodes.length g.agenda [] (follows_agenda hg)
    obtain rfl : rest.map g.name = l := by simpa [hrest] using h
    refine ⟨hgreedy, fun a ha => ?_⟩
    obtain ⟨i, hi, rfl⟩ := exists_name ha
    refine mem_map_of_mem ?_
    rcases hend with hlen | hend
    · exact mem_of_length (hgreedy.nodup.1.of_map _) hlt hlen hi
    · exact mem_of_not_free hdesc hdone hg hend _ i hi rfl

theorem isOrder_order (hg : g.WellFormed) (h : g.order = .ok l) : g.IsOrder l :=
  (order_spec hg h).1.isOrder (order_spec hg h).2

theorem order_nodup (hg : g.WellFormed) (h : g.order = .ok l) : l.Nodup :=
  (isOrder_order hg h).nodup

theorem order_perm (hg : g.WellFormed) (h : g.order = .ok l) : l.Perm g.nodes :=
  (perm_ext_iff_of_nodup (order_nodup hg h) hg.nodup).mpr (isOrder_order hg h).mem_iff

theorem order_precedes (hg : g.WellFormed) (h : g.order = .ok l) (hab : g.HasEdge a b) :
    Precedes l b a :=
  (isOrder_order hg h).precedes a b hab

theorem acyclic_of_order (hg : g.WellFormed) (h : g.order = .ok l) (a : String) :
    ¬ Relation.TransGen g.HasEdge a a := by
  have hnone : g.findCycle? = none := by
    unfold order at h
    cases hfind : g.findCycle? with
    | none => rfl
    | some path => rw [hfind] at h; cases h
  exact acyclic_of_findCycle? hg hnone a

/-- Whatever was registered, no count falls below zero. Without a cycle there is an order: it takes
at every place the name that is next, and no other order is earlier. With a cycle there is none, and
the cycle that is found comes out instead. -/
theorem order_build (rs : List Registration) :
    ((build rs).orderFrom (build rs).nodes.length (build rs).agenda).isSome ∧
      ((∀ a, ¬ Relation.TransGen (build rs).HasEdge a a) →
        ∃ l, (build rs).order = .ok l ∧ (build rs).IsOrder l ∧ (build rs).Greedy [] l ∧
          ∀ l', (build rs).IsOrder l' → l = l' ∨ (build rs).Earlier l l') ∧
      ((∃ a, Relation.TransGen (build rs).HasEdge a a) →
        ∃ path, (build rs).findCycle? = some path ∧ (build rs).order = .error path) := by
  have hg := wellFormed_build rs
  refine ⟨?_, fun hacy => ?_, fun hcyclic => ?_⟩
  · obtain ⟨rest, hrest, -⟩ := orderFrom_greedy hg (build rs).nodes.length _ [] (follows_agenda hg)
    rw [hrest]
    rfl
  · have hnone : (build rs).findCycle? = none := by
      rw [← Option.not_isSome_iff_eq_none, findCycle?_isSome_iff hg]
      exact fun ⟨a, ha⟩ => hacy a ha
    have hord : ∃ l, (build rs).order = .ok l := by
      unfold order
      rw [hnone]
      exact ⟨_, rfl⟩
    obtain ⟨l, hl⟩ := hord
    obtain ⟨hgreedy, hall⟩ := order_spec hg hl
    exact ⟨l, hl, hgreedy.isOrder hall, hgreedy, fun l' hl' => hgreedy.earlier hall hl'⟩
  · obtain ⟨path, hpath⟩ := Option.isSome_iff_exists.mp ((findCycle?_isSome_iff hg).mpr hcyclic)
    refine ⟨path, hpath, ?_⟩
    unfold order
    rw [hpath]

/-- The name registered first comes last, since all others are needed for it; one dependency more
leaves no order. -/
theorem order_build_diamond :
    let rs : List Registration :=
      [.node "app", .edge "app" "db" .implicit, .edge "app" "cache" .explicit,
        .edge "db" "net" .implicit, .edge "cache" "net" .implicit]
    let rs' := rs ++ [.edge "net" "app" .explicit]
    ((build rs).order = .ok ["net", "db", "cache", "app"] ∧
      ∀ l', (build rs).IsOrder l' →
        ["net", "db", "cache", "app"] = l' ∨ (build rs).Earlier ["net", "db", "cache", "app"] l') ∧
      (build rs').order = .error ["app", "db", "net", "app"] := by
  intro rs rs'
  have hord : (build rs).order = .ok ["net", "db", "cache", "app"] := by cbv
  have hcyc : (build rs').findCycle? = some ["app", "db", "net", "app"] := by cbv
  obtain ⟨l, hl, -, -, hleast⟩ :=
    (order_build rs).2.1 (acyclic_of_order (wellFormed_build rs) hord)
  obtain ⟨path, hpath, herror⟩ :=
    (order_build rs').2.2 ((findCycle?_isSome_iff (wellFormed_build rs')).mp (by rw [hcyc]; rfl))
  obtain rfl : ["net", "db", "cache", "app"] = l := Except.ok.inj (hord.symm.trans hl)
  obtain rfl : path = ["app", "db", "net", "app"] := Option.some.inj (hpath.symm.trans hcyc)
  exact ⟨⟨hord, hleast⟩, herror⟩

end Provision.DependencyGraph
