import Provision.Proofs.Dependency.Order
import Provision.Proofs.Scope

/-!
# What checks do to a session

`Session.Moves R m` says that the check `m` takes every session to one that `R` relates it to. For a
preorder this follows from the parts of `m`, so what a check does is found by looking at its few
basic operations.

* `Session.Grows` holds of every check: where in the program it stands is the same afterwards,
  findings are only added, and names, bodies, components and instances stay.
* `Session.Frame` holds of the checks that only look at types and decorations: no instance, no
  dependency and no component is touched.
-/

namespace Provision.Session

open List Table Scopes

variable {scope : ScopeId} {f : ComponentInfo → ComponentInfo}

/-! ### Running checks -/

section Run

variable {α β : Type} {s : Session}

@[simp] theorem run_pure (a : α) : (pure a : Checking α).run s = (a, s) := rfl

@[simp] theorem run_bind (m : Checking α) (f : α → Checking β) :
    (m >>= f).run s = (f (m.run s).1).run (m.run s).2 := rfl

@[simp] theorem run_get : (get : Checking Session).run s = (s, s) := rfl

theorem run_get_bind (f : Session → Checking β) : (get >>= f).run s = (f s).run s := rfl

variable {R : Session → Session → Prop}

def Moves (R : Session → Session → Prop) (m : Checking α) : Prop := ∀ s, R s (m.run s).2

theorem Moves.get_bind {f : Session → Checking β} (hf : ∀ s, R s ((f s).run s).2) :
    Moves R (get >>= f) := hf

section Preorder

variable [IsPreorder Session R]

theorem Moves.pure (a : α) : Moves R (pure a : Checking α) := fun s => Std.Refl.refl s

/-- Steps that relate sessions do so one after the other. -/
theorem Moves.bind {m : Checking α} {f : α → Checking β} (hm : Moves R m)
    (hf : ∀ a, Moves R (f a)) : Moves R (m >>= f) :=
  fun s => IsTrans.trans _ _ _ (hm s) (hf _ _)

theorem Moves.throw (d : Diagnostic) : Moves R (throw d : Inferring α).run :=
  fun s => Std.Refl.refl s

theorem Moves.run_pure (a : α) : Moves R (Pure.pure a : Inferring α).run :=
  fun s => Std.Refl.refl s

theorem Moves.run_bind {m : Inferring α} {f : α → Inferring β} (hm : Moves R m.run)
    (hf : ∀ a, Moves R (f a).run) : Moves R (m >>= f).run := by
  intro s
  have h := hm s
  -- an error ends the check in the session that it arose in
  show R s (((m.run >>= ExceptT.bindCont f) : Checking _).run s).2
  rw [Session.run_bind]
  cases hr : (m.run.run s).1 with
  | ok a => exact IsTrans.trans _ _ _ h (hf a _)
  | error d => exact h

end Preorder

end Run

mutual

theorem resolveType_congr {s t : Session}
    (hres : ∀ n, t.scopes.resolve n = s.scopes.resolve n)
    (hals : ∀ x, t.aliases.contains x = s.aliases.contains x) :
    ∀ e : TypeExpr, t.resolveType e = s.resolveType e
  | .named name => by
    rw [resolveType, resolveType, hres]
    simp only [hals]
  | .array elem _ => by rw [resolveType, resolveType, resolveType_congr hres hals elem]
  | .union variants _ => by
    rw [resolveType, resolveType, resolveTypes_congr hres hals variants]

theorem resolveTypes_congr {s t : Session}
    (hres : ∀ n, t.scopes.resolve n = s.scopes.resolve n)
    (hals : ∀ x, t.aliases.contains x = s.aliases.contains x) :
    ∀ es : List TypeExpr, t.resolveTypes es = s.resolveTypes es
  | [] => by rw [resolveTypes, resolveTypes]
  | e :: es => by
    rw [resolveTypes, resolveTypes, resolveType_congr hres hals e,
      resolveTypes_congr hres hals es]

end

/-! ### What a session knows -/

def body? (s : Session) (scope : ScopeId) : Option Body := s.bodies.lookup scope

/-- A scope is that of the top level, or of the body of a component. -/
def BodyAt (s : Session) (scope : ScopeId) (comp : Option String) : Prop :=
  ∃ b, s.body? scope = some b ∧ b.component = comp

def Node (s : Session) (scope : ScopeId) (x : String) : Prop :=
  ∃ b, s.body? scope = some b ∧ x ∈ b.graph.nodes

def Edge (s : Session) (scope : ScopeId) (x y : String) : Prop :=
  ∃ b, s.body? scope = some b ∧ b.graph.HasEdge x y

def dependencies? (s : Session) (x : String) : Option (List String) :=
  (find? s.instances x).map (·.dependencies)

def Depends (s : Session) (x y : String) : Prop := ∃ ds, s.dependencies? x = some ds ∧ y ∈ ds

/-- The body of a component has an instance of another. -/
def Uses (s : Session) (comp used : String) : Prop :=
  ∃ i, find? s.components comp = some i ∧ used ∈ i.uses

def Needs (s : Session) (comp x : String) : Prop :=
  ∃ i, find? s.components comp = some i ∧ x ∈ i.externals

def HasInstance (s : Session) (comp x : String) : Prop :=
  ∃ i, find? s.components comp = some i ∧ x ∈ i.instances

/-- A scope is that of one body only. -/
theorem BodyAt.component_eq {s : Session} {c c' : Option String} (h : s.BodyAt scope c)
    (h' : s.BodyAt scope c') : c = c' := by
  obtain ⟨b, hb, rfl⟩ := h
  obtain ⟨b', hb', rfl⟩ := h'
  rw [Option.some.inj (hb.symm.trans hb')]

/-! ### Sessions before and after -/

/-- The check is at the same place, and nothing that was noted is lost. -/
structure Stays (s t : Session) : Prop where
  current : t.scopes.current = s.scopes.current
  body : t.body = s.body
  component : t.component = s.component
  reader : t.reader = s.reader
  halted : t.halted = s.halted
  findings : s.findings <+: t.findings
  registered : s.registered ⊆ t.registered

/-- The same names are those of instances, with the same bodies, components and dependencies. -/
structure Agrees (s t : Session) : Prop where
  scopes : s.scopes.Keeps t.scopes
  bodies : t.bodies = s.bodies
  components : t.components = s.components
  dependencies? : ∀ x, t.dependencies? x = s.dependencies? x

/-- Only findings, notes and names that are no instances were added. -/
structure Frame (s t : Session) : Prop extends Stays s t, Agrees s t

/-- Names, bodies, components and instances stay. -/
structure Grows (s t : Session) : Prop extends Stays s t where
  scopes : s.scopes.Persists t.scopes
  bodyAt : ∀ {scope c}, s.BodyAt scope c → t.BodyAt scope c
  node : ∀ {scope x}, s.Node scope x → t.Node scope x
  isSome_dependencies? : ∀ {x}, (s.dependencies? x).isSome → (t.dependencies? x).isSome
  component_find? : ∀ {n i}, find? s.components n = some i →
    ∃ j, find? t.components n = some j ∧ j.body = i.body ∧ j.scope = i.scope
  uses : ∀ {c d}, s.Uses c d → t.Uses c d
  needs : ∀ {c x}, s.Needs c x → t.Needs c x
  hasInstance : ∀ {c x}, s.HasInstance c x → t.HasInstance c x

variable {s t u : Session}

theorem Stays.refl (s : Session) : Stays s s :=
  ⟨rfl, rfl, rfl, rfl, rfl, prefix_rfl, Subset.refl _⟩

theorem Stays.trans (h : Stays s t) (h' : Stays t u) : Stays s u where
  current := h'.current.trans h.current
  body := h'.body.trans h.body
  component := h'.component.trans h.component
  reader := h'.reader.trans h.reader
  halted := h'.halted.trans h.halted
  findings := h.findings.trans h'.findings
  registered := Subset.trans h.registered h'.registered

theorem Agrees.refl (s : Session) : Agrees s s := ⟨Keeps.refl _, rfl, rfl, fun _ => rfl⟩

theorem Agrees.trans (h : Agrees s t) (h' : Agrees t u) : Agrees s u where
  scopes := h.scopes.trans h'.scopes
  bodies := h'.bodies.trans h.bodies
  components := h'.components.trans h.components
  dependencies? x := (h'.dependencies? x).trans (h.dependencies? x)

theorem Frame.refl (s : Session) : Frame s s := ⟨Stays.refl s, Agrees.refl s⟩

theorem Frame.trans (h : Frame s t) (h' : Frame t u) : Frame s u :=
  ⟨h.toStays.trans h'.toStays, h.toAgrees.trans h'.toAgrees⟩

theorem Grows.refl (s : Session) : Grows s s where
  toStays := Stays.refl s
  scopes := Persists.refl _
  bodyAt := id
  node := id
  isSome_dependencies? := id
  component_find? h := ⟨_, h, rfl, rfl⟩
  uses := id
  needs := id
  hasInstance := id

theorem Grows.trans (h : Grows s t) (h' : Grows t u) : Grows s u where
  toStays := h.toStays.trans h'.toStays
  scopes := h.scopes.trans h'.scopes
  bodyAt := h'.bodyAt ∘ h.bodyAt
  node := h'.node ∘ h.node
  isSome_dependencies? := h'.isSome_dependencies? ∘ h.isSome_dependencies?
  component_find? hi := by
    obtain ⟨j, hj, hbody, hsc⟩ := h.component_find? hi
    obtain ⟨l, hl, hbody', hsc'⟩ := h'.component_find? hj
    exact ⟨l, hl, hbody'.trans hbody, hsc'.trans hsc⟩
  uses := h'.uses ∘ h.uses
  needs := h'.needs ∘ h.needs
  hasInstance := h'.hasInstance ∘ h.hasInstance

instance : IsPreorder Session Frame where
  refl := Frame.refl
  trans _ _ _ := Frame.trans

instance : IsPreorder Session Grows where
  refl := Grows.refl
  trans _ _ _ := Grows.trans

/-- What ends without findings had none before. -/
theorem Stays.findings_eq_nil (h : Stays s t) (ht : t.findings = []) : s.findings = [] :=
  prefix_nil.mp (ht ▸ h.findings)

namespace Agrees

variable {scope : ScopeId} {c : Option String}

theorem body? (h : Agrees s t) : t.body? scope = s.body? scope := by
  rw [Session.body?, h.bodies, Session.body?]

theorem bodyAt (h : Agrees s t) : t.BodyAt scope c ↔ s.BodyAt scope c := by
  rw [BodyAt, h.body?, BodyAt]

theorem edge (h : Agrees s t) {x y : String} : t.Edge scope x y ↔ s.Edge scope x y := by
  rw [Edge, h.body?, Edge]

theorem depends (h : Agrees s t) {x y : String} : t.Depends x y ↔ s.Depends x y := by
  rw [Depends, h.dependencies?, Depends]

end Agrees

theorem Frame.grows (h : Frame s t) : Grows s t where
  toStays := h.toStays
  scopes := h.scopes.toPersists
  bodyAt := h.bodyAt.mpr
  node hn := by rwa [Node, h.body?]
  isSome_dependencies? hx := by rwa [h.dependencies?]
  component_find? hi := ⟨_, h.components ▸ hi, rfl, rfl⟩
  uses hu := by rwa [Uses, h.components]
  needs hn := by rwa [Needs, h.components]
  hasInstance hi := by rwa [HasInstance, h.components]

/-! ### Where bodies are -/

/-- Every body has a scope of its own: the global one, or one right inside it that is named for the
component. -/
structure Placed (s : Session) : Prop where
  nodup : (s.bodies.map (·.1)).Nodup
  top : s.BodyAt ScopeId.global none
  unique : ∀ {scope scope' c}, s.BodyAt scope c → s.BodyAt scope' c → scope = scope'
  lt : ∀ {scope c}, s.BodyAt scope c → scope < s.scopes.all.length
  name : ∀ {scope c}, s.BodyAt scope c → (s.scopes.scope scope).name = c
  parent : ∀ {scope c}, s.BodyAt scope c →
    (s.scopes.scope scope).parent = c.map fun _ => ScopeId.global

theorem mem_bodies_iff (hnd : (s.bodies.map (·.1)).Nodup) {b : Body} :
    (scope, b) ∈ s.bodies ↔ s.body? scope = some b := by
  unfold body?
  generalize s.bodies = bodies at hnd ⊢
  induction bodies with
  | nil => simp
  | cons x bs ih =>
    obtain ⟨i, b'⟩ := x
    obtain ⟨hi, hbs⟩ := nodup_cons.mp hnd
    have hmem : (scope, b) ∈ bs ↔ lookup scope bs = some b := ih hbs
    rw [mem_cons, lookup_cons, hmem]
    by_cases hs : scope = i
    · subst hs
      have hnone : lookup scope bs ≠ some b := fun hb =>
        hi (mem_map.mpr ⟨(scope, b), hmem.mpr hb, rfl⟩)
      simp [hnone, eq_comm]
    · simp [hs, beq_eq_false_iff_ne.mpr hs]

namespace Placed

variable {scope : ScopeId} {c : Option String}

/-- Bodies stay in their places if scopes do. -/
theorem of_persists (h : Placed s) (hs : s.scopes.Persists t.scopes)
    (hkeys : t.bodies.map (·.1) = s.bodies.map (·.1))
    (hb : ∀ scope c, t.BodyAt scope c ↔ s.BodyAt scope c) : Placed t where
  nodup := hkeys ▸ h.nodup
  top := (hb _ _).mpr h.top
  unique hc hc' := h.unique ((hb _ _).mp hc) ((hb _ _).mp hc')
  lt hc := (h.lt ((hb _ _).mp hc)).trans_le hs.length_le
  name hc := (hs.name _ (h.lt ((hb _ _).mp hc))).trans (h.name ((hb _ _).mp hc))
  parent hc := (hs.parent _ (h.lt ((hb _ _).mp hc))).trans (h.parent ((hb _ _).mp hc))

theorem agrees (h : Placed s) (ha : Agrees s t) : Placed t :=
  h.of_persists ha.scopes.toPersists (by rw [ha.bodies]) fun _ _ => ha.bodyAt

theorem eq_global (h : Placed s) (hb : s.BodyAt scope none) : scope = ScopeId.global :=
  h.unique hb h.top

theorem ne_global (h : Placed s) {comp : String} (hb : s.BodyAt scope (some comp)) :
    scope ≠ ScopeId.global := by
  rintro rfl
  cases hb.component_eq h.top

/-- A name is qualified by the component around it. -/
theorem qualify (h : Placed s) (hb : s.BodyAt scope c) (n : String) :
    s.scopes.qualify scope n = qualifiedName c n := by
  cases c with
  | none =>
    rw [h.eq_global hb, qualify, chain_global (Nat.zero_lt_of_lt (h.lt hb)) (h.parent h.top)]
    simp [h.name h.top, qualifiedName]
  | some comp =>
    rw [qualify, chain_component (h.lt hb) (h.ne_global hb) (h.parent h.top) (h.parent hb)]
    simp [h.name hb, h.name h.top, qualifiedName]

theorem chain (h : Placed s) (hb : s.BodyAt scope c) :
    s.scopes.chain scope = scope :: if c = none then [] else [ScopeId.global] := by
  cases c with
  | none =>
    rw [h.eq_global hb, if_pos rfl]
    exact chain_global (Nat.zero_lt_of_lt (h.lt hb)) (h.parent h.top)
  | some comp =>
    rw [if_neg (Option.some_ne_none comp)]
    exact chain_component (h.lt hb) (h.ne_global hb) (h.parent h.top) (h.parent hb)

theorem mem_bodies (h : Placed s) {b : Body} : (scope, b) ∈ s.bodies ↔ s.body? scope = some b :=
  mem_bodies_iff h.nodup

end Placed

/-! ### Basic operations -/

theorem frame_report (d : Diagnostic) : Moves Frame (report d) := fun _ =>
  { Frame.refl _ with findings := prefix_append _ _ }

theorem frame_markRegistered (name : Ident) : Moves Frame (markRegistered name) := fun _ =>
  { Frame.refl _ with registered := subset_cons_self _ _ }

theorem frame_scopes {e : Scopes} (he : s.scopes.Keeps e)
    (hcur : e.current = s.scopes.current) : Frame s { s with scopes := e } :=
  { Frame.refl _ with scopes := he, current := hcur }

theorem run_declare_of_get? (name : Ident) (type : Ty) (s : Session) :
    (declare name type).run s =
      match s.scopes.get? name.text with
      | some _ => (false, { s with findings := s.findings ++
          [.ofScope (.declarationExists name.text) name.span] })
      | none => (true, { s with scopes := s.scopes.set name.text type }) := by
  unfold declare Scopes.declare
  rw [run_get_bind]
  cases s.scopes.get? name.text <;> rfl

/-- A name is bound if it is free, and otherwise there is a finding. -/
theorem run_declare (s : Session) (name : Ident) (type : Ty) :
    (find? (s.scopes.bindings s.scopes.current) name.text = none ∧
      (declare name type).run s = (true, { s with scopes := s.scopes.set name.text type })) ∨
    ∃ d, (declare name type).run s = (false, { s with findings := s.findings ++ [d] }) := by
  rw [run_declare_of_get?]
  cases hget : s.scopes.get? name.text with
  | some _ => exact Or.inr ⟨_, rfl⟩
  | none => exact Or.inl ⟨hget, rfl⟩

/-- What holds after either outcome holds after a declaration. -/
theorem of_declare {P : Session → Prop} (name : Ident) {type : Ty}
    (hset : find? (s.scopes.bindings s.scopes.current) name.text = none →
      P { s with scopes := s.scopes.set name.text type })
    (hrep : ∀ d, P ((report d).run s).2) : P ((declare name type).run s).2 := by
  rcases run_declare s name type with ⟨hunb, hrun⟩ | ⟨d, hrun⟩
  · rw [hrun]
    exact hset hunb
  · rw [hrun]
    exact hrep d

theorem frame_declare (name : Ident) {type : Ty} (h : type.kind? = none) :
    Moves Frame (declare name type) := fun s =>
  of_declare (P := Frame s) name (fun hunb => frame_scopes (keeps_set hunb h) rfl)
    fun d => frame_report d s

theorem frame_newChild (s : Session) (name : Option String) :
    Frame s { s with scopes := (s.scopes.newChild name).2 } :=
  frame_scopes (keeps_newChild _ _) rfl

def within (s : Session) (scope : ScopeId) : Session := { s with scopes := s.scopes.enter scope }

theorem run_inScope (scope : ScopeId) (act : Checking α) (s : Session) :
    (inScope scope act).run s =
      ((act.run (s.within scope)).1,
        (act.run (s.within scope)).2.within s.scopes.current) := rfl

theorem Stays.within_back (h : Stays (s.within scope) t) : Stays s (t.within s.scopes.current) :=
  { h with current := rfl }

theorem agrees_within (s : Session) (scope : ScopeId) : Agrees s (s.within scope) :=
  { Agrees.refl _ with scopes := keeps_enter _ _ }

/-- From a body, a name means what the body binds, or else the top level. -/
theorem Placed.resolve_eq_ok_iff (h : Placed s) {c : Option String} (hb : s.BodyAt scope c)
    {n : String} {scope' : ScopeId} {type : Ty} :
    (s.scopes.enter scope).resolve n = .ok (scope', type) ↔
      find? (s.scopes.bindings scope') n = some type ∧ (scope' = scope ∨ c ≠ none ∧
        scope' = ScopeId.global ∧ find? (s.scopes.bindings scope) n = none) := by
  have hchain : (s.scopes.enter scope).chain (s.scopes.enter scope).current =
      scope :: if c = none then [] else [ScopeId.global] :=
    (h.agrees (agrees_within s scope)).chain ((agrees_within s scope).bodyAt.mpr hb)
  have hbg : ∀ u, (s.scopes.enter scope).bindingIn? n u =
      (find? (s.scopes.bindings u) n).map fun t => (u, t) := fun _ => rfl
  rw [resolve, hchain, findSome?_cons, hbg]
  cases hfind : find? (s.scopes.bindings scope) n with
  | some t =>
    -- a name of the body hides one of the top level
    constructor
    · intro heq
      cases heq
      exact ⟨hfind, Or.inl rfl⟩
    · rintro ⟨hfind', rfl | ⟨-, -, hnone⟩⟩
      · rw [Option.some.inj (hfind.symm.trans hfind')]
        rfl
      · cases hnone
  | none =>
    cases c with
    | none =>
      -- no scope is around the top level
      constructor
      · intro heq
        cases heq
      · rintro ⟨hfind', rfl | ⟨hne, -⟩⟩
        · cases hfind.symm.trans hfind'
        · exact absurd rfl hne
    | some comp =>
      rw [if_neg (Option.some_ne_none comp)]
      dsimp only [Option.map_none]
      rw [findSome?_cons, findSome?_nil, hbg]
      cases hgl : find? (s.scopes.bindings ScopeId.global) n with
      | none =>
        constructor
        · intro heq
          cases heq
        · rintro ⟨hfind', rfl | ⟨-, rfl, -⟩⟩
          · cases hfind.symm.trans hfind'
          · cases hgl.symm.trans hfind'
      | some t =>
        constructor
        · intro heq
          cases heq
          exact ⟨hgl, Or.inr ⟨Option.some_ne_none comp, rfl, rfl⟩⟩
        · rintro ⟨hfind', rfl | ⟨-, rfl, -⟩⟩
          · cases hfind.symm.trans hfind'
          · rw [Option.some.inj (hgl.symm.trans hfind')]
            rfl

theorem Frame.within_back (h : Frame (s.within scope) t) : Frame s (t.within s.scopes.current) :=
  ⟨h.toStays.within_back,
    ((agrees_within s scope).trans h.toAgrees).trans (agrees_within t s.scopes.current)⟩

theorem Grows.within_back (h : Grows (s.within scope) t) : Grows s (t.within s.scopes.current) :=
  { h with
    current := rfl
    scopes := ((keeps_enter _ _).toPersists.trans h.scopes).trans
      (keeps_enter _ _).toPersists }

def inside (s : Session) (component : String) (scope : ScopeId) : Session :=
  { s.within scope with body := scope, component := some component }

def outside (s t : Session) : Session :=
  { t with scopes := t.scopes.enter s.scopes.current, body := s.body, component := none }

theorem run_inBody (comp : String) (scope : ScopeId) (act : Checking α) (s : Session) :
    (inBody comp scope act).run s =
      ((act.run (s.inside comp scope)).1,
        s.outside (act.run (s.inside comp scope)).2) := rfl

theorem agrees_inside (s : Session) (comp : String) (scope : ScopeId) :
    Agrees s (s.inside comp scope) :=
  { Agrees.refl _ with scopes := keeps_enter _ _ }

theorem agrees_outside (s t : Session) : Agrees t (s.outside t) :=
  { Agrees.refl _ with scopes := keeps_enter _ _ }

theorem Grows.outside {component : String} (h : Grows (s.inside component scope) t)
    (hs : s.component = none) : Grows s (s.outside t) :=
  { h with
    current := rfl
    body := rfl
    component := hs.symm
    scopes := ((keeps_enter _ _).toPersists.trans h.scopes).trans
      (keeps_enter _ _).toPersists }

/-! ### Graphs, components and instances -/

theorem body?_modifyGraph (f : DependencyGraph → DependencyGraph) (scope scope' : ScopeId) :
    ((modifyGraph f scope).run s).2.body? scope' =
      if scope' = scope then
        (s.body? scope').map fun b => { b with graph := f b.graph }
      else s.body? scope' := by
  show lookup scope' (s.bodies.map _) = _
  unfold body?
  induction s.bodies with
  | nil => simp
  | cons b bs ih =>
    obtain ⟨i, b⟩ := b
    rw [map_cons, lookup_cons]
    -- the change leaves every body in its scope, so the same entry is found
    by_cases hi : scope' = i
    · subst hi
      by_cases hs : scope' = scope
      · simp [hs]
      · simp [hs]
    · have hb : ∀ b, lookup scope' ((i, b) :: bs) = lookup scope' bs := fun b => by
        rw [lookup_cons, beq_eq_false_iff_ne.mpr hi]
      have hfst : ∀ c : Prop, ∀ _ : Decidable c, ∀ b b' : Body,
          (if c then (i, b) else (i, b')).1 = i := fun c _ b b' => by split <;> rfl
      rw [hb, hfst, beq_eq_false_iff_ne.mpr hi, ← ih]

theorem bodies_fst_modifyGraph (f : DependencyGraph → DependencyGraph) (scope : ScopeId) :
    ((modifyGraph f scope).run s).2.bodies.map (·.1) = s.bodies.map (·.1) := by
  show (s.bodies.map _).map _ = _
  rw [map_map]
  refine map_congr_left fun b _ => ?_
  by_cases hb : b.1 = scope <;> simp [hb]

theorem bodyAt_modifyGraph (f : DependencyGraph → DependencyGraph) (scope : ScopeId)
    {scope' : ScopeId} {c : Option String} :
    ((modifyGraph f scope).run s).2.BodyAt scope' c ↔ s.BodyAt scope' c := by
  unfold BodyAt
  rw [body?_modifyGraph]
  split
  · simp
  · rfl

theorem grows_modifyGraph {f : DependencyGraph → DependencyGraph} (scope : ScopeId)
    (hf : ∀ g, g.nodes ⊆ (f g).nodes) : Moves Grows (modifyGraph f scope) := fun s =>
  { Grows.refl s with
    bodyAt := (bodyAt_modifyGraph _ _).mpr
    node := by
      intro scope' x ⟨b, hb, hx⟩
      unfold Node
      rw [body?_modifyGraph]
      split
      · exact ⟨_, by rw [hb]; rfl, hf _ hx⟩
      · exact ⟨b, hb, hx⟩ }

/-- What is known about a component only grows. -/
structure Enlarges (f : ComponentInfo → ComponentInfo) : Prop where
  body : ∀ i, (f i).body = i.body
  scope : ∀ i, (f i).scope = i.scope
  uses : ∀ i, i.uses ⊆ (f i).uses
  externals : ∀ i, i.externals ⊆ (f i).externals
  instances : ∀ i, i.instances ⊆ (f i).instances

theorem find?_modifyComponent {name n : String} :
    find? ((modifyComponent name f).run s).2.components n =
      if n = name then (find? s.components n).map f else find? s.components n :=
  find?_modify

theorem names_modifyComponent (name : String) (f : ComponentInfo → ComponentInfo) :
    ((modifyComponent name f).run s).2.components.names = s.components.names :=
  names_modify

theorem exists_of_modifyComponent {name n : String} {j : ComponentInfo}
    (h : find? ((modifyComponent name f).run s).2.components n = some j) :
    ∃ i, find? s.components n = some i ∧ (j = i ∨ n = name ∧ j = f i) := by
  rw [find?_modifyComponent] at h
  split at h
  · next hn =>
    obtain ⟨i, hi, rfl⟩ := Option.map_eq_some_iff.mp h
    exact ⟨i, hi, Or.inr ⟨hn, rfl⟩⟩
  · exact ⟨j, h, Or.inl rfl⟩

theorem find?_modifyComponent_of_enlarges {name n : String} (hf : Enlarges f) {i : ComponentInfo}
    (hi : find? s.components n = some i) :
    ∃ j, find? ((modifyComponent name f).run s).2.components n = some j ∧
      j.body = i.body ∧ j.scope = i.scope ∧ i.uses ⊆ j.uses ∧ i.externals ⊆ j.externals ∧
      i.instances ⊆ j.instances := by
  rw [find?_modifyComponent, hi]
  split
  · exact ⟨f i, rfl, hf.body i, hf.scope i, hf.uses i, hf.externals i, hf.instances i⟩
  · exact ⟨i, rfl, rfl, rfl, Subset.refl _, Subset.refl _, Subset.refl _⟩

theorem grows_modifyComponent (name : String)
    (hf : Enlarges f) : Moves Grows (modifyComponent name f) := fun s =>
  { Grows.refl s with
    component_find? := by
      intro n i hi
      obtain ⟨j, hj, hbody, hsc, -⟩ := find?_modifyComponent_of_enlarges hf hi
      exact ⟨j, hj, hbody, hsc⟩
    uses := by
      rintro c d ⟨i, hi, hd⟩
      obtain ⟨j, hj, -, -, huses, -⟩ := find?_modifyComponent_of_enlarges hf hi
      exact ⟨j, hj, huses hd⟩
    needs := by
      rintro c x ⟨i, hi, hx⟩
      obtain ⟨j, hj, -, -, -, hexts, -⟩ := find?_modifyComponent_of_enlarges hf hi
      exact ⟨j, hj, hexts hx⟩
    hasInstance := by
      rintro c x ⟨i, hi, hx⟩
      obtain ⟨j, hj, -, -, -, -, hinsts⟩ := find?_modifyComponent_of_enlarges hf hi
      exact ⟨j, hj, hinsts hx⟩ }

theorem dependencies?_modifyInstance {x y : String} {f : InstanceInfo → InstanceInfo} :
    ((modifyInstance x f).run s).2.dependencies? y =
      if y = x then (find? s.instances y).map fun i => (f i).dependencies
      else s.dependencies? y := by
  unfold dependencies?
  show (find? (s.instances.modify x f) y).map _ = _
  rw [find?_modify]
  split
  · rw [Option.map_map]
    rfl
  · rfl

theorem grows_modifyInstance (x : String) (f : InstanceInfo → InstanceInfo) :
    Moves Grows (modifyInstance x f) := fun s =>
  { Grows.refl s with
    isSome_dependencies? := by
      intro y hy
      rw [dependencies?_modifyInstance]
      split
      · rw [Option.isSome_map]
        rwa [dependencies?, Option.isSome_map] at hy
      · exact hy }

end Provision.Session
