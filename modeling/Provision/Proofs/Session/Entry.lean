import Provision.Proofs.Session.Mirror

/-!
# Entries of instances

A resource or an instance of a component is entered at the top level under its name, and what it is
an instance of gets to know it. That changes what other names mean only in the order in which a
schema lists its resources, so two entries with different names can be made in any order
(`Entry.bind_comm`), and neither depends on the other (`Entry.Fits.bind_update`).
-/

namespace Provision

open Table Session Scopes

/-- A resource or an instance of a component, as it is entered at the top level. -/
structure Entry where
  name : Ident
  type : Ty
  kind : InstanceKind
  span : Span
  /-- The name of the schema that gets to know it. -/
  schema : Option String
  /-- The component that gets to know it. -/
  component : Option String

/-- The name of what a declaration makes an instance of. -/
def Decl.model? : Decl → Option String
  | .resource d => some d.schema.text
  | .inst d => some d.component.text
  | _ => none

/-- The entry of an instance of something with a type. -/
def Decl.entryOf? : Decl → Ty → Option Entry
  | .resource d, .schema kind props _ => some {
      name := d.name
      type := .resource d.name.text kind props
      kind := .resource kind
      span := d.span
      schema := some d.schema.text
      component := none }
  | .inst d, .component kind none inputs outputs nested => some {
      name := d.name
      type := .component kind (some d.name.text) inputs outputs nested
      kind := .component kind
      span := d.span
      schema := none
      component := some kind }
  | _, _ => none

def Entry.bind (e : Entry) (f : Scopes) : Scopes :=
  match e.schema with
  | some n => (f.set e.name.text e.type).modify n (addResource e.name.text e.type)
  | none => f.set e.name.text e.type

/-- Components of which one has a new instance with the given name. -/
def Entry.tell (e : Entry) (x : String) (cs : Table ComponentInfo) : Table ComponentInfo :=
  match e.component with
  | some n => cs.modify n fun c => { c with instances := c.instances ++ [x] }
  | none => cs

/-! ### Entries -/

/-- Entries that differ in the order of resources only. -/
structure Entry.Like (e f : Entry) : Prop where
  name : f.name = e.name
  type : e.type.Like f.type
  kind : f.kind = e.kind
  span : f.span = e.span
  schema : f.schema = e.schema
  component : f.component = e.component

theorem Decl.entryOf?_like (d : Decl) {a b : Ty} (h : a.Like b) :
    Option.Rel Entry.Like (d.entryOf? a) (d.entryOf? b) := by
  cases d with
  | resource d =>
    cases h.shape with
    | schema kind props _ =>
      refine .some ⟨rfl, ?_, rfl, rfl, rfl, rfl⟩
      exact congrArg (Ty.resource d.name.text kind) (Ty.listedFields_iff.mpr props)
    | _ => exact .none
  | inst d =>
    cases h.shape with
    | component kind inst inputs outputs nested =>
      cases inst with
      | none =>
        refine .some ⟨rfl, ?_, rfl, rfl, rfl, rfl⟩
        simp only [Ty.Like, Ty.listed, Ty.listedFields_iff.mpr inputs,
          Ty.listedFields_iff.mpr outputs, Ty.listedAll_iff.mpr nested]
      | some _ => exact .none
    | _ => exact .none
  | _ => exact .none

theorem Decl.entryOf?_of_kind? (d : Decl) {t : Ty} (h : t.kind?.isSome) : d.entryOf? t = none := by
  cases t with
  | component _ inst _ _ _ =>
    cases inst with
    | none => cases h
    | some _ => cases d <;> rfl
  | resource _ _ _ => cases d <;> rfl
  | _ => cases h

namespace Entry

variable {e e' : Entry} {f g : Scopes} {m n : String}

/-- What a name means after a new instance is bound. -/
def put (e : Entry) (m : String) (x : Option Ty) : Option Ty :=
  if m = e.name.text then some e.type else x

/-- What a name means after a new instance is entered. -/
def update (e : Entry) (m : String) (x : Option Ty) : Option Ty :=
  if e.schema = some m then (e.put m x).map (addResource e.name.text e.type) else e.put m x

theorem current_bind : (e.bind f).current = f.current := by
  unfold Entry.bind
  split <;> rfl

theorem length_bind : (e.bind f).all.length = f.all.length := by
  unfold Entry.bind
  split
  · exact length_modifyBindings.trans length_modifyBindings
  · exact length_modifyBindings

theorem name_parent_bind (s : ScopeId) :
    ((e.bind f).scope s).name = (f.scope s).name ∧
      ((e.bind f).scope s).parent = (f.scope s).parent := by
  unfold Entry.bind
  split
  · obtain ⟨hnm, hpar⟩ := f.name_parent_modifyBindings (·.insert e.name.text e.type) s
    rw [← hnm, ← hpar]
    exact name_parent_modifyBindings _ _ s
  · exact name_parent_modifyBindings _ _ s

/-- An entry adds a name, and changes what it is an instance of. -/
theorem find?_bind (hlt : f.current < f.all.length) (s : ScopeId) (m : String) :
    find? ((e.bind f).bindings s) m =
      if s = f.current then e.update m (find? (f.bindings s) m)
      else find? (f.bindings s) m := by
  have hset : ∀ s, find? ((f.set e.name.text e.type).bindings s) m =
      if s = f.current ∧ m = e.name.text then some e.type else find? (f.bindings s) m := by
    intro s
    rw [find?_bindings_set]
    refine if_congr ?_ rfl rfl
    exact ⟨fun h => ⟨h.1, h.2.2⟩, fun h => ⟨h.1, h.1 ▸ hlt, h.2⟩⟩
  unfold Entry.bind update put
  by_cases hs : s = f.current
  · subst hs
    cases e.schema with
    | none => simp [hset]
    | some n =>
      have hlen : (f.set e.name.text e.type).all.length = f.all.length :=
        length_modifyBindings
      have hcur : (f.set e.name.text e.type).current = f.current := rfl
      simp only [find?_bindings_modify, hset, hlen, hcur]
      by_cases hm : m = n
      · subst hm
        simp [hlt]
      · simp [hm, Ne.symm hm]
  · cases e.schema with
    | none => simp [hset, hs]
    | some n =>
      have hcur : (f.set e.name.text e.type).current = f.current := rfl
      simp [find?_bindings_modify, hset, hcur, hs]

theorem get?_bind (hlt : f.current < f.all.length) (m : String) :
    (e.bind f).get? m = e.update m (f.get? m) := by
  rw [get?, current_bind, find?_bind hlt, if_pos rfl, get?]

theorem like_addResource {a b t u : Ty} (hab : a.Like b) (htu : t.Like u) :
    (addResource n a t).Like (addResource n b u) := by
  cases htu.shape with
  | @schema name ps qs rs ts props resources =>
    have hfind : ∀ m, find? (Ty.listedFields rs) m = find? (Ty.listedFields ts) m := by
      intro m
      rw [Ty.find?_listedFields, Ty.find?_listedFields, Ty.listed_of_rel (resources m)]
    have hinsert : listing (Ty.listedFields (insert rs n a)) =
        listing (Ty.listedFields (insert ts n b)) := by
      refine listing_congr fun m => ?_
      rw [Ty.listedFields_insert, Ty.listedFields_insert, find?_insert, find?_insert,
        hab, hfind]
    simp only [addResource, Ty.Like, Ty.listed, Ty.listedFields_iff.mpr props,
      hinsert]
  | _ => exact htu

theorem addResource_comm {a b : Ty} (h : m ≠ n) (t : Ty) :
    (addResource m a (addResource n b t)).Like
      (addResource n b (addResource m a t)) := by
  cases t with
  | schema name props resources =>
    refine congrArg (Ty.schema name (Ty.listedFields props)) (listing_congr fun q => ?_)
    simp only [Ty.listedFields_insert, find?_insert]
    by_cases hq : q = m
    · have hqn : q ≠ n := hq ▸ h
      simp [hq, h]
    · simp [hq]
  | _ => rfl

theorem put_like (h : e.Like e') {x y : Option Ty} (hxy : Option.Rel Ty.Like x y) (m : String) :
    Option.Rel Ty.Like (e.put m x) (e'.put m y) := by
  unfold put
  rw [h.name]
  split
  · exact .some h.type
  · exact hxy

theorem update_like (h : e.Like e') {x y : Option Ty} (hxy : Option.Rel Ty.Like x y) (m : String) :
    Option.Rel Ty.Like (e.update m x) (e'.update m y) := by
  have hput := put_like h hxy m
  unfold update
  rw [h.name, h.schema]
  split
  · generalize e.put m x = x', e'.put m y = y' at hput ⊢
    cases hput with
    | none => exact .none
    | some hab => exact .some (like_addResource h.type hab)
  · exact hput

theorem bind_like (h : f.Mirrors Ty.listed g) (he : e.Like e') (hlt : f.current < f.all.length) :
    (e.bind f).Mirrors Ty.listed (e'.bind g) where
  current := by rw [current_bind, current_bind, h.current]
  length := by rw [length_bind, length_bind, h.length]
  name s := by rw [(name_parent_bind s).1, (name_parent_bind s).1, h.name]
  parent s := by rw [(name_parent_bind s).2, (name_parent_bind s).2, h.parent]
  bound s m := by
    have hlt' : g.current < g.all.length := by rwa [h.current, h.length]
    rw [find?_bind hlt, find?_bind hlt', h.current]
    split
    · exact Ty.listed_of_rel (update_like he (Ty.rel_of_map (h.bound s m)) m)
    · exact h.bound s m

theorem qualify_bind (s : ScopeId) (n : String) : (e.bind f).qualify s n = f.qualify s n :=
  qualify_congr length_bind (fun s => (name_parent_bind s).1)
    (fun s => (name_parent_bind s).2) s n

/-- An entry that scopes have room for. -/
structure Fits (e : Entry) (f : Scopes) : Prop where
  unbound : f.get? e.name.text = none
  schema : ∀ n, e.schema = some n → (f.get? n).isSome
  kind : e.type.kind?.isSome

theorem Fits.schema_ne (h : e.Fits f) (h' : e'.Fits f) : e.schema ≠ some e'.name.text := by
  intro hsch
  have hbd := h.schema _ hsch
  rw [h'.unbound] at hbd
  cases hbd

theorem Fits.bind_update (h : e.Fits f) (d : Decl) (n : String) :
    (e.update n (f.get? n)).bind d.entryOf? = (f.get? n).bind d.entryOf? := by
  have hself := h.schema_ne h
  unfold update put
  by_cases hn : n = e.name.text
  · subst hn
    rw [if_neg hself, if_pos rfl, h.unbound, Option.bind_some, d.entryOf?_of_kind? h.kind]
    rfl
  · rw [if_neg hn]
    split
    · cases f.get? n with
      | none => rfl
      | some t => cases d <;> cases t <;> rfl
    · rfl

theorem isSome_update_of_ne {x : Option Ty} (h : m ≠ e.name.text) :
    (e.update m x).isSome = x.isSome := by
  unfold update put
  rw [if_neg h]
  split
  · exact Option.isSome_map
  · rfl

theorem update_comm (h : e.Fits f) (h' : e'.Fits f) (hne : e.name.text ≠ e'.name.text) (m : String)
    (x : Option Ty) :
    (e'.update m (e.update m x)).map Ty.listed = (e.update m (e'.update m x)).map Ty.listed := by
  have hself := h.schema_ne h
  have hself' := h'.schema_ne h'
  have hoth := h.schema_ne h'
  have hoth' := h'.schema_ne h
  unfold update put
  by_cases hm : m = e.name.text
  · subst hm
    simp [hself, hoth', hne]
  · by_cases hm' : m = e'.name.text
    · subst hm'
      simp [hself', hoth, hne.symm]
    · -- another name may be that of the schema of both
      simp only [if_neg hm, if_neg hm']
      by_cases hs : e.schema = some m
      · by_cases hs' : e'.schema = some m
        · simp only [if_pos hs, if_pos hs', Option.map_map]
          cases x with
          | none => rfl
          | some t => exact congrArg some (addResource_comm hne.symm t)
        · simp only [if_pos hs, if_neg hs']
      · simp only [if_neg hs]

theorem bind_comm (h : e.Fits f) (h' : e'.Fits f) (hne : e.name.text ≠ e'.name.text)
    (hlt : f.current < f.all.length) :
    (e'.bind (e.bind f)).Mirrors Ty.listed (e.bind (e'.bind f)) where
  current := by simp only [current_bind]
  length := by simp only [length_bind]
  name s := by simp only [name_parent_bind]
  parent s := by simp only [name_parent_bind]
  bound s m := by
    have hlt₁ : ∀ e : Entry, (e.bind f).current < (e.bind f).all.length := fun e => by
      rwa [current_bind, length_bind]
    rw [find?_bind (hlt₁ e), find?_bind (hlt₁ e'), find?_bind hlt, find?_bind hlt, current_bind,
      current_bind]
    split
    · exact update_comm h h' hne m _
    · rfl

theorem outline_tell (x : String) (cs : Table ComponentInfo) :
    (e.tell x cs).map (fun c => (c.1, c.2.outline)) = cs.map fun c => (c.1, c.2.outline) := by
  unfold tell
  cases e.component with
  | none => rfl
  | some n =>
    exact map_modify_of_eq cs n fun _ => rfl

theorem find?_tell (x : String) (cs : Table ComponentInfo) (n : String) :
    find? (e.tell x cs) n =
      if e.component = some n then
        (find? cs n).map fun c => { c with instances := c.instances ++ [x] }
      else find? cs n := by
  unfold tell
  cases e.component with
  | none => rfl
  | some m =>
    simp only [find?_modify, Option.some.injEq, eq_comm]

end Entry

end Provision
