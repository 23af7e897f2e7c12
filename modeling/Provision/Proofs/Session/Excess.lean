import Provision.Proofs.Session.Abreast.Registration

/-!
# What one check has more than another

Of two programs that differ in one list of decorations, the checks go side by side: they know the
same names, and the first has some findings and some waiting checks more (`Session.Exceeds`).
`Session.Beside` says of two checks that they keep it so: what the first session has more stays as
much as it is. Expressions do (`Session.tracks_exceeds`), since what is found out about them depends
neither on findings nor on decorations.
-/

namespace Provision

open List

/-- The second list is the first with something put in at one place. -/
def Inserted {α : Type} (new xs ys : List α) : Prop :=
  ∃ before after, xs = before ++ after ∧ ys = before ++ new ++ after

theorem Inserted.append {α : Type} {new xs ys : List α} (h : Inserted new xs ys) (more : List α) :
    Inserted new (xs ++ more) (ys ++ more) := by
  obtain ⟨before, after, rfl, rfl⟩ := h
  exact ⟨before, after ++ more, append_assoc .., append_assoc ..⟩

theorem Inserted.length_eq {α : Type} {new xs ys : List α} (h : Inserted new xs ys) :
    ys.length = xs.length + new.length := by
  obtain ⟨before, after, rfl, rfl⟩ := h
  simp only [length_append]
  omega

theorem inserted_nil {α : Type} {xs ys : List α} : Inserted [] xs ys ↔ ys = xs := by
  constructor
  · rintro ⟨before, after, rfl, rfl⟩
    rw [append_nil]
  · rintro rfl
    exact ⟨ys, [], (append_nil ys).symm, by simp⟩

theorem inserted_append {α : Type} (xs new : List α) : Inserted new xs (xs ++ new) :=
  ⟨xs, [], (append_nil xs).symm, (append_nil _).symm⟩

/-- What is known about an instance, without what its decorations say about it. -/
def InstanceInfo.plain (i : InstanceInfo) : InstanceInfo :=
  { i with tags := [], providers := [], count := none, existing := none }

/-- What a check of declarations reads about a component. -/
def ComponentInfo.face (c : ComponentInfo) : ScopeId × List String × List String × List String :=
  (c.scope, Session.requiredInputs c.body, c.uses, c.instances)

namespace Session

/-- What a check has more than another, of a program without the list of decorations that is known
by `mark`. -/
structure Excess where
  mark : Span
  findings : List Diagnostic
  deferred : List DeferredCheck
  /-- Whether it may have other dependencies. -/
  linked : Bool
  /-- Whether the list was stopped for its shape. -/
  stopped : Bool

/-- The first session has something more than the second, and no other check than one of the
marked list can tell them apart. -/
structure Exceeds (x : Excess) (s t : Session) : Prop where
  scopes : s.scopes = t.scopes
  findings : Inserted x.findings t.findings s.findings
  deferred : Inserted x.deferred t.deferred s.deferred
  halted : ∀ span, span ≠ x.mark → (span ∈ s.halted ↔ span ∈ t.halted)
  stopped : x.mark ∈ s.halted ↔ x.stopped = true
  registered : s.registered = t.registered
  aliases : s.aliases = t.aliases
  schemas : s.schemas.map (fun e => (e.1, requiredProperties e.2)) =
    t.schemas.map fun e => (e.1, requiredProperties e.2)
  components : s.components.map (fun c => (c.1, c.2.face)) =
    t.components.map fun c => (c.1, c.2.face)
  bodies : x.linked = false → s.bodies = t.bodies
  instances : x.linked = false → s.instances.map (fun i => (i.1, i.2.plain)) =
    t.instances.map fun i => (i.1, i.2.plain)
  externals : x.linked = false → s.components.map (fun c => (c.1, c.2.externals)) =
    t.components.map fun c => (c.1, c.2.externals)
  body : s.body = t.body
  component : s.component = t.component
  reader : s.reader = t.reader
  depth : s.depth = t.depth

variable {k : Checker} {x : Excess} {s t : Session}

namespace Exceeds

theorem isRegistered (h : Exceeds x s t) (name : Ident) :
    s.isRegistered name = t.isRegistered name := by
  rw [Session.isRegistered, h.registered, Session.isRegistered]

theorem boundType (h : Exceeds x s t) (name : Ident) : s.boundType name = t.boundType name := by
  rw [Session.boundType, h.scopes, Session.boundType]

theorem qualified (h : Exceeds x s t) (name : String) : s.qualified name = t.qualified name := by
  rw [Session.qualified, h.scopes, Session.qualified]

theorem face (h : Exceeds x s t) (name : String) :
    (Table.find? s.components name).map ComponentInfo.face =
      (Table.find? t.components name).map ComponentInfo.face := by
  rw [← Table.find?_map, ← Table.find?_map, h.components]

end Exceeds

/-- Two checks give related results, and the first has as much more afterwards as before. -/
abbrev Beside {α β : Type} (x : Excess) (P : α → β → Prop) (m : Checking α) (m' : Checking β) :
    Prop :=
  Abreast (Exceeds x) P m m'

/-! ### Expressions -/

theorem beside_report (d : Diagnostic) : Beside x Eq (report d) (report d) :=
  Abreast.modify fun _ _ h => { h with findings := h.findings.append [d] }

theorem beside_modifyGraph (f : DependencyGraph → DependencyGraph) (scope : ScopeId) :
    Beside x Eq (modifyGraph f scope) (modifyGraph f scope) :=
  Abreast.modify fun _ _ h => { h with bodies := fun hx => by rw [h.bodies hx] }

theorem beside_modifyInstance (name : String) {f : InstanceInfo → InstanceInfo}
    (hf : ∀ i, (f i).plain = f i.plain) :
    Beside x Eq (modifyInstance name f) (modifyInstance name f) :=
  Abreast.modify fun _ _ h => { h with
    instances := fun hx => by
      rw [Table.map_modify _ _ hf, Table.map_modify _ _ hf, h.instances hx] }

theorem beside_modifyComponent (name : String) {f : ComponentInfo → ComponentInfo}
    {g : ScopeId × List String × List String × List String → _} {e : List String → List String}
    (hface : ∀ c, (f c).face = g c.face) (hexts : ∀ c, (f c).externals = e c.externals) :
    Beside x Eq (modifyComponent name f) (modifyComponent name f) :=
  Abreast.modify fun s t h => { h with
    components := by
      show (s.components.modify name f).map _ = (t.components.modify name f).map _
      rw [Table.map_modify _ _ hface, Table.map_modify _ _ hface, h.components]
    externals := fun hx => by
      show (s.components.modify name f).map _ = (t.components.modify name f).map _
      rw [Table.map_modify _ _ hexts, Table.map_modify _ _ hexts, h.externals hx] }

/-- Expressions look at nothing that one session has more. -/
theorem tracks_exceeds (x : Excess) : Tracks Eq Eq (Exceeds x) where
  slack := Ty.slack_eq
  resolve h n := by rw [h.scopes]; exact Scopes.locates_eq.mpr rfl
  get? h n := by rw [h.scopes]; exact Ty.rel_eq.mpr rfl
  current h := by rw [h.scopes]
  length h := by rw [h.scopes]
  qualify h _ _ := by rw [h.scopes]
  aliases h _ := by rw [h.aliases]
  isRegistered h := h.isRegistered
  body h := h.body
  component h := h.component
  reader h := h.reader
  depth h := h.depth
  report h := h ▸ beside_report _
  set h hab _ := { h with scopes := by rw [h.scopes, hab] }
  within h scope := { h with scopes := congrArg (Scopes.enter · scope) h.scopes }
  inside h _ scope := { h with
    scopes := congrArg (Scopes.enter · scope) h.scopes
    body := rfl
    component := rfl }
  outside h h' := { h' with
    scopes := by rw [outside, h.scopes, h'.scopes, outside]
    body := h.body
    component := rfl }
  newChild h h' _ := { h' with scopes := by rw [h.scopes] }
  atDepth h _ := { h with depth := rfl }
  reading h _ := { h with reader := rfl }
  edge _ _ _ scope := beside_modifyGraph _ scope
  external c y :=
    beside_modifyComponent c (g := id) (e := (addOnce · y)) (fun _ => rfl) fun _ => rfl
  dependency x _ := beside_modifyInstance x fun _ => rfl

theorem Exceeds.requiredProperties (h : Exceeds x s t) (name : String) :
    (s.schemaDecl? name).map requiredProperties = (t.schemaDecl? name).map requiredProperties := by
  have hlk : ∀ (l : List ((ScopeId × String) × SchemaDecl)) (key : ScopeId × String),
      (l.lookup key).map Session.requiredProperties =
        (l.map fun e => (e.1, Session.requiredProperties e.2)).lookup key := by
    intro l key
    induction l with
    | nil => rfl
    | cons e l ih =>
      rw [map_cons, lookup_cons, lookup_cons]
      cases key == e.1 with
      | true => rfl
      | false => exact ih
  unfold schemaDecl?
  rw [h.scopes]
  split
  · rw [hlk, hlk, h.schemas]
  · rfl

end Session

end Provision
