import Provision.Proofs.Session.Abreast

/-!
# Sessions that look the same

Two sessions mirror each other (`Session.Mirrors`) if a check cannot tell them apart: names mean the
same up to the order in which schemas list their resources, and the same declarations, components
and bodies are known. What a check leaves behind for later are notes (`Session.notes`): that there
is a finding, the edges of graphs, dependencies, and what components need.

`Session.Couples` says of two checks that from sessions that look the same they come to sessions
that look the same, and leave the same notes on the way (`Session.Coupled`). A check whose notes
depend on nothing but the look of the session can be moved past others that do not change that look.
-/

namespace Provision

open List

namespace Scopes

/-- The same names are bound, to types that look the same in a view of them. -/
structure Mirrors (view : Ty → Ty) (e f : Scopes) : Prop where
  current : f.current = e.current
  length : f.all.length = e.all.length
  name : ∀ s, (f.scope s).name = (e.scope s).name
  parent : ∀ s, (f.scope s).parent = (e.scope s).parent
  bound : ∀ s n, (Table.find? (e.bindings s) n).map view = (Table.find? (f.bindings s) n).map view

namespace Mirrors

variable {view : Ty → Ty} {e f g : Scopes}

theorem refl (e : Scopes) : Mirrors view e e :=
  ⟨rfl, rfl, fun _ => rfl, fun _ => rfl, fun _ _ => rfl⟩

theorem symm (h : Mirrors view e f) : Mirrors view f e where
  current := h.current.symm
  length := h.length.symm
  name s := (h.name s).symm
  parent s := (h.parent s).symm
  bound s n := (h.bound s n).symm

theorem trans (h : Mirrors view e f) (h' : Mirrors view f g) : Mirrors view e g where
  current := h'.current.trans h.current
  length := h'.length.trans h.length
  name s := (h'.name s).trans (h.name s)
  parent s := (h'.parent s).trans (h.parent s)
  bound s n := (h.bound s n).trans (h'.bound s n)

theorem chain (h : Mirrors view e f) (s : ScopeId) : f.chain s = e.chain s :=
  chain_congr h.length h.parent s

theorem qualify (h : Mirrors view e f) (s : ScopeId) (n : String) :
    f.qualify s n = e.qualify s n :=
  qualify_congr h.length h.name h.parent s n

/-- A name means the same on either side. -/
theorem resolve (h : Mirrors view e f) (n : String) :
    Locates (fun a b => view a = view b) (e.resolve n) (f.resolve n) := by
  have hbg : ∀ s, (e.bindingIn? n s).map (fun r => (r.1, view r.2)) =
      (f.bindingIn? n s).map fun r => (r.1, view r.2) := by
    intro s
    have hs := congrArg (Option.map fun t => (s, t)) (h.bound s n)
    rw [Option.map_map, Option.map_map] at hs
    rw [bindingIn?, bindingIn?, Option.map_map, Option.map_map]
    exact hs
  have hfound : ∀ l : List ScopeId,
      (l.findSome? (e.bindingIn? n)).map (fun r => (r.1, view r.2)) =
        (l.findSome? (f.bindingIn? n)).map fun r => (r.1, view r.2) := by
    intro l
    rw [map_findSome?, map_findSome?]
    exact congrArg (findSome? · l) (funext hbg)
  have hchain := hfound (e.chain e.current)
  unfold Scopes.resolve
  rw [h.current, h.chain]
  revert hchain
  generalize (e.chain e.current).findSome? (e.bindingIn? n) = x
  generalize (e.chain e.current).findSome? (f.bindingIn? n) = y
  intro hchain
  cases x with
  | none =>
    cases y with
    | none => exact .error _
    | some _ => cases hchain
  | some a =>
    cases y with
    | none => cases hchain
    | some b =>
      obtain ⟨scope, a⟩ := a
      obtain ⟨scope', b⟩ := b
      obtain ⟨rfl, hview⟩ := Prod.mk.inj (Option.some.inj hchain)
      exact .ok scope hview

theorem get? (h : Mirrors view e f) (n : String) :
    Option.Rel (fun a b => view a = view b) (e.get? n) (f.get? n) := by
  refine Ty.rel_of_map ?_
  rw [Scopes.get?, Scopes.get?, h.current, h.bound]

theorem enter (h : Mirrors view e f) (s : ScopeId) : Mirrors view (e.enter s) (f.enter s) :=
  ⟨rfl, h.length, h.name, h.parent, h.bound⟩

/-- Changing the current bindings alike keeps one registry a mirror of the other. -/
theorem modifyBindings (h : Mirrors view e f) {p q : Table Ty → Table Ty}
    (hbd : ∀ n, (Table.find? (p (e.bindings e.current)) n).map view =
      (Table.find? (q (f.bindings e.current)) n).map view) :
    Mirrors view (e.modifyBindings p) (f.modifyBindings q) where
  current := h.current
  length := length_modifyBindings.trans (h.length.trans length_modifyBindings.symm)
  name s := by rw [(name_parent_modifyBindings ..).1, (name_parent_modifyBindings ..).1, h.name]
  parent s := by
    rw [(name_parent_modifyBindings ..).2, (name_parent_modifyBindings ..).2, h.parent]
  bound s n := by
    rw [bindings_modifyBindings, bindings_modifyBindings, h.current, h.length]
    split
    · next hs => exact hs.1 ▸ hbd n
    · exact h.bound s n

theorem set (h : Mirrors view e f) (n : String) {a b : Ty} (hab : view a = view b) :
    Mirrors view (e.set n a) (f.set n b) :=
  h.modifyBindings fun m => by
    rw [Table.find?_insert, Table.find?_insert]
    split
    · exact congrArg some hab
    · exact h.bound _ m

theorem newChild (h : Mirrors view e f) (name : Option String) :
    Mirrors view (e.newChild name).2 (f.newChild name).2 where
  current := h.current
  length := by simp [Scopes.newChild, h.length]
  name s := by
    rw [scope_newChild_eq, scope_newChild_eq, h.length]
    split
    · rfl
    · exact h.name s
  parent s := by
    rw [scope_newChild_eq, scope_newChild_eq, h.length, h.current]
    split
    · rfl
    · exact h.parent s
  bound s n := by rw [bindings_newChild, bindings_newChild, h.bound]

end Mirrors

end Scopes

/-- What is known about a component before declarations are checked. -/
def ComponentInfo.outline (c : ComponentInfo) : List Decl × ScopeId × List String :=
  (c.body, c.scope, c.uses)

namespace Session

variable {s t u v : Session}

/-! ### The look of a session -/

/-- Every edge of a graph runs between its nodes, and a name or a scope belongs to one component or
body at most. -/
def Sound (s : Session) : Prop :=
  (∀ b ∈ s.bodies, b.2.graph.WellFormed) ∧ s.components.names.Nodup ∧ (s.bodies.map (·.1)).Nodup

/-- Checks cannot tell the sessions apart. -/
structure Mirrors (s t : Session) : Prop where
  scopes : s.scopes.Mirrors Ty.listed t.scopes
  halted : ∀ x, x ∈ t.halted ↔ x ∈ s.halted
  registered : ∀ x, x ∈ t.registered ↔ x ∈ s.registered
  aliases : t.aliases = s.aliases
  schemas : t.schemas = s.schemas
  components : t.components.map (fun c => (c.1, c.2.outline)) =
    s.components.map fun c => (c.1, c.2.outline)
  bodies : t.bodies.map (fun b => (b.1, b.2.component)) =
    s.bodies.map fun b => (b.1, b.2.component)
  instances : ∀ x, (t.dependencies? x).isSome = (s.dependencies? x).isSome
  body : t.body = s.body
  component : t.component = s.component
  reader : t.reader = s.reader
  depth : t.depth = s.depth
  sound : Sound s
  sound' : Sound t

/-- Something that a check leaves behind. -/
inductive Note where
  /-- There is a finding. -/
  | finding
  /-- There is a finding of a cycle. -/
  | cycle
  /-- The graph of a body has an edge. -/
  | edge (scope : ScopeId) (x y : String)
  /-- An instance depends on another. -/
  | dependency (x y : String)
  /-- A component needs an instance of the top level. -/
  | external (comp x : String)
  /-- The top level has an instance of a component. -/
  | member (comp x : String)

def Has (s : Session) : Note → Prop
  | .finding => s.findings ≠ []
  | .cycle => ∃ d ∈ s.findings, d.isCycle
  | .edge scope x y => s.Edge scope x y
  | .dependency x y => s.Depends x y
  | .external comp x => s.Needs comp x
  | .member comp x => s.HasInstance comp x

def notes (s : Session) : Set Note := {n | s.Has n}

/-- The sessions look the same, and have the same notes. -/
structure Twin (s t : Session) : Prop extends Mirrors s t where
  notes : t.notes = s.notes

theorem body?_map_component (s : Session) (scope : ScopeId) :
    lookup scope (s.bodies.map fun b => (b.1, b.2.component)) =
      (s.body? scope).map (·.component) := by
  unfold body?
  induction s.bodies with
  | nil => rfl
  | cons b bs ih =>
    rw [map_cons, lookup_cons, lookup_cons, ih]
    cases scope == b.1 <;> rfl

/-- Given well-formed graphs, soundness depends on the outlines of components and on whose body each
scope is. -/
theorem Sound.of_outline (h : Sound s)
    (hcomps : t.components.map (fun c => (c.1, c.2.outline)) =
      s.components.map fun c => (c.1, c.2.outline))
    (hbds : t.bodies.map (fun b => (b.1, b.2.component)) =
      s.bodies.map fun b => (b.1, b.2.component))
    (hgraphs : ∀ b ∈ t.bodies, b.2.graph.WellFormed) : Sound t := by
  have hnms := congrArg (map Prod.fst) hcomps
  have hkeys := congrArg (map Prod.fst) hbds
  rw [map_map, map_map] at hnms hkeys
  have hnms : t.components.names = s.components.names := hnms
  have hkeys : t.bodies.map (·.1) = s.bodies.map (·.1) := hkeys
  exact ⟨hgraphs, hnms ▸ h.2.1, hkeys ▸ h.2.2⟩

theorem Sound.names (h : Sound s) : s.components.names.Nodup := h.2.1

theorem Sound.mem_bodies (h : Sound s) {scope : ScopeId} {b : Body} :
    (scope, b) ∈ s.bodies ↔ s.body? scope = some b :=
  mem_bodies_iff h.2.2

theorem Sound.wellFormed (h : Sound s) {scope : ScopeId} {b : Body} (hb : s.body? scope = some b) :
    b.graph.WellFormed :=
  h.1 (scope, b) (h.mem_bodies.mpr hb)

namespace Mirrors

theorem refl (h : Sound s) : Mirrors s s :=
  ⟨.refl _, fun _ => Iff.rfl, fun _ => Iff.rfl, rfl, rfl, rfl, rfl, fun _ => rfl, rfl, rfl, rfl,
    rfl, h, h⟩

theorem symm (h : Mirrors s t) : Mirrors t s where
  scopes := h.scopes.symm
  halted x := (h.halted x).symm
  registered x := (h.registered x).symm
  aliases := h.aliases.symm
  schemas := h.schemas.symm
  components := h.components.symm
  bodies := h.bodies.symm
  instances x := (h.instances x).symm
  body := h.body.symm
  component := h.component.symm
  reader := h.reader.symm
  depth := h.depth.symm
  sound := h.sound'
  sound' := h.sound

theorem trans (h : Mirrors s t) (h' : Mirrors t u) : Mirrors s u where
  scopes := h.scopes.trans h'.scopes
  halted x := (h'.halted x).trans (h.halted x)
  registered x := (h'.registered x).trans (h.registered x)
  aliases := h'.aliases.trans h.aliases
  schemas := h'.schemas.trans h.schemas
  components := h'.components.trans h.components
  bodies := h'.bodies.trans h.bodies
  instances x := (h'.instances x).trans (h.instances x)
  body := h'.body.trans h.body
  component := h'.component.trans h.component
  reader := h'.reader.trans h.reader
  depth := h'.depth.trans h.depth
  sound := h.sound
  sound' := h'.sound'

theorem isHalted (h : Mirrors s t) (ds : List Decoration) : t.isHalted ds = s.isHalted ds := by
  cases ds with
  | nil => rfl
  | cons d ds =>
    rw [Session.isHalted, Session.isHalted, Bool.eq_iff_iff]
    simp only [contains_iff_mem]
    exact h.halted d.span

theorem isRegistered (h : Mirrors s t) (name : Ident) :
    t.isRegistered name = s.isRegistered name := by
  rw [Session.isRegistered, Session.isRegistered, Bool.eq_iff_iff]
  simp only [contains_iff_mem]
  exact h.registered name.span

theorem qualified (h : Mirrors s t) (n : String) : t.qualified n = s.qualified n := by
  rw [Session.qualified, h.scopes.current, h.scopes.qualify, Session.qualified]

theorem outline (h : Mirrors s t) (n : String) :
    (Table.find? t.components n).map ComponentInfo.outline =
      (Table.find? s.components n).map ComponentInfo.outline := by
  rw [← Table.find?_map, ← Table.find?_map, h.components]

theorem isSome_component (h : Mirrors s t) (n : String) :
    (Table.find? t.components n).isSome = (Table.find? s.components n).isSome := by
  rw [← Option.isSome_map, h.outline, Option.isSome_map]

theorem isSome_body (h : Mirrors s t) (scope : ScopeId) :
    (t.body? scope).isSome = (s.body? scope).isSome := by
  rw [← Option.isSome_map (f := Body.component), ← body?_map_component, h.bodies,
    body?_map_component, Option.isSome_map]

end Mirrors

/-! ### Coupled checks -/

/-- The sessions look the same, and have the same notes more than two others. -/
structure Coupled (s₀ t₀ s t : Session) : Prop extends Mirrors s t where
  notes : ∃ new, s.notes = s₀.notes ∪ new ∧ t.notes = t₀.notes ∪ new

theorem Mirrors.coupled (h : Mirrors s t) : Coupled s t s t :=
  ⟨h, ∅, (Set.union_empty _).symm, (Set.union_empty _).symm⟩

theorem Coupled.trans {s₀ t₀ : Session} (h : Coupled s₀ t₀ s t) (h' : Coupled s t u v) :
    Coupled s₀ t₀ u v := by
  obtain ⟨-, new, hs, ht⟩ := h
  obtain ⟨hmir, new', hu, hv⟩ := h'
  exact ⟨hmir, new ∪ new', by rw [hu, hs, Set.union_assoc], by rw [hv, ht, Set.union_assoc]⟩

/-- From sessions that look the same two checks come to sessions that look the same, with related
results and the same new notes. -/
def Couples {α β : Type} (Q : α → β → Prop) (m : Checking α) (m' : Checking β) : Prop :=
  ∀ s₀ t₀, Abreast (Coupled s₀ t₀) Q m m'

theorem Couples.coupled {α β : Type} {Q : α → β → Prop} {m : Checking α} {m' : Checking β}
    (hm : Couples Q m m') (h : Mirrors s t) : Coupled s t (m.run s).2 (m'.run t).2 :=
  (hm s t s t h.coupled).2

/-! ### Checks that do not change the look -/

def Rests (s t : Session) : Prop := Sound s → Mirrors s t

instance : IsPreorder Session Rests where
  refl _ h := .refl h
  trans _ _ _ h h' hs := (h hs).trans (h' (h hs).sound')

theorem couples_of_rests {m m' : Checking Unit} (hm : Moves Rests m) (hm' : Moves Rests m')
    (hnotes : ∀ s t, Mirrors s t →
      ∃ new, (m.run s).2.notes = s.notes ∪ new ∧ (m'.run t).2.notes = t.notes ∪ new) :
    Couples Eq m m' := fun _ _ s t hst =>
  ⟨rfl, hst.trans ⟨((hm s hst.sound).symm.trans hst.toMirrors).trans (hm' t hst.sound'),
    hnotes s t hst.toMirrors⟩⟩

end Session

end Provision
