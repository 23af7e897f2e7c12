import Provision.Proofs.Program
import Provision.Proofs.Table

/-!
# Scopes that grow

Bindings are never removed, and what kind of thing a name is bound to never changes
(`Scopes.Persists`). Most operations also bind no instance (`Scopes.Keeps`): the function
`Scopes.kindAt`, which says of what a name of a scope is an instance, stays the same.
-/

namespace Provision

open List Table

variable {name : Option String} {f : Table Ty → Table Ty}

def Ty.kind? : Ty → Option InstanceKind
  | .resource _ kind _ => some (.resource kind)
  | .component kind (some _) _ _ _ => some (.component kind)
  | _ => none

def Ty.params? : Ty → Option (List Ty)
  | .function params _ => some params
  | _ => none

def Ty.union? : Ty → Option (List Ty)
  | .union variants => some variants
  | _ => none

def Ty.definition? : Ty → Option String
  | .component name none _ _ _ => some name
  | _ => none

/-- Two types describe the same thing, up to what is known about its members. -/
structure Ty.Alike (t t' : Ty) : Prop where
  kind? : t'.kind? = t.kind?
  params? : t'.params? = t.params?
  union? : t'.union? = t.union?
  definition? : t'.definition? = t.definition?

theorem Ty.Alike.refl (t : Ty) : t.Alike t := ⟨rfl, rfl, rfl, rfl⟩

theorem Ty.Alike.trans {t t' t'' : Ty} (h : t.Alike t') (h' : t'.Alike t'') : t.Alike t'' where
  kind? := h'.kind?.trans h.kind?
  params? := h'.params?.trans h.params?
  union? := h'.union?.trans h.union?
  definition? := h'.definition?.trans h.definition?

theorem Ty.isSome_kind? (t : Ty) : t.kind?.isSome = t.instanceName?.isSome := by
  cases t with
  | component _ inst _ _ _ => cases inst <;> rfl
  | _ => rfl

namespace Scopes

def kindAt (e : Scopes) (s : ScopeId) (name : String) : Option InstanceKind :=
  (find? (e.bindings s) name).bind Ty.kind?

/-- Scopes stay where they are, and names stay bound to things of their kind. -/
structure Persists (e e' : Scopes) : Prop where
  length_le : e.all.length ≤ e'.all.length
  name : ∀ s < e.all.length, (e'.scope s).name = (e.scope s).name
  parent : ∀ s < e.all.length, (e'.scope s).parent = (e.scope s).parent
  bound : ∀ s n t, find? (e.bindings s) n = some t →
    ∃ t', find? (e'.bindings s) n = some t' ∧ t.Alike t'

/-- Besides, no name becomes that of an instance. -/
structure Keeps (e e' : Scopes) : Prop extends Persists e e' where
  kindAt : ∀ s n, e'.kindAt s n = e.kindAt s n

variable {e e' e'' : Scopes} {s : ScopeId} {n m : String} {t : Ty}

theorem Persists.refl (e : Scopes) : Persists e e :=
  ⟨le_rfl, fun _ _ => rfl, fun _ _ => rfl, fun _ _ t h => ⟨t, h, .refl t⟩⟩

theorem Persists.trans (h : Persists e e') (h' : Persists e' e'') : Persists e e'' where
  length_le := h.length_le.trans h'.length_le
  name s hs := (h'.name s (hs.trans_le h.length_le)).trans (h.name s hs)
  parent s hs := (h'.parent s (hs.trans_le h.length_le)).trans (h.parent s hs)
  bound s n t ht := by
    obtain ⟨t', ht', halike⟩ := h.bound s n t ht
    obtain ⟨t'', ht'', halike'⟩ := h'.bound s n t' ht'
    exact ⟨t'', ht'', halike.trans halike'⟩

theorem Keeps.refl (e : Scopes) : Keeps e e := ⟨Persists.refl e, fun _ _ => rfl⟩

theorem Keeps.trans (h : Keeps e e') (h' : Keeps e' e'') : Keeps e e'' :=
  ⟨h.toPersists.trans h'.toPersists, fun s n => (h'.kindAt s n).trans (h.kindAt s n)⟩

theorem Persists.kindAt_eq_some (h : Persists e e') {kind : InstanceKind}
    (hk : e.kindAt s n = some kind) : e'.kindAt s n = some kind := by
  obtain ⟨t, ht, hkind⟩ := Option.bind_eq_some_iff.mp hk
  obtain ⟨t', ht', halike⟩ := h.bound s n t ht
  rw [kindAt, ht', Option.bind_some, halike.kind?, hkind]

theorem Persists.isSome_find? (h : Persists e e')
    (hn : (find? (e.bindings s) n).isSome) : (find? (e'.bindings s) n).isSome := by
  obtain ⟨t, ht⟩ := Option.isSome_iff_exists.mp hn
  obtain ⟨t', ht', -⟩ := h.bound s n t ht
  rw [ht']
  rfl

/-! ### Operations -/

theorem keeps_enter (e : Scopes) (s : ScopeId) : Keeps e (e.enter s) :=
  ⟨⟨le_rfl, fun _ _ => rfl, fun _ _ => rfl, fun _ _ t h => ⟨t, h, .refl t⟩⟩, fun _ _ => rfl⟩

theorem length_lt_newChild (e : Scopes) (name : Option String) :
    e.all.length < (e.newChild name).2.all.length := by simp [newChild]

theorem scope_newChild_of_lt (hs : s < e.all.length) : (e.newChild name).2.scope s = e.scope s := by
  simp [newChild, scope, getElem?_append_left hs]

theorem scope_newChild :
    (e.newChild name).2.scope e.all.length = { name, parent := some e.current } := by
  simp [newChild, scope]

theorem bindings_newChild : (e.newChild name).2.bindings s = e.bindings s := by
  unfold bindings
  rcases lt_trichotomy s e.all.length with hs | rfl | hs
  · rw [scope_newChild_of_lt hs]
  · rw [scope_newChild, scope, getElem?_eq_none le_rfl, Option.getD_none]
  · have hlen : (e.newChild name).2.all.length = e.all.length + 1 := by simp [newChild]
    rw [scope, scope, getElem?_eq_none (hlen ▸ hs), getElem?_eq_none hs.le]

theorem keeps_newChild (e : Scopes) (name : Option String) : Keeps e (e.newChild name).2 where
  length_le := by simp [newChild]
  name s hs := by rw [scope_newChild_of_lt hs]
  parent s hs := by rw [scope_newChild_of_lt hs]
  bound s n t h := ⟨t, by rw [bindings_newChild, h], .refl t⟩
  kindAt s n := by rw [Scopes.kindAt, bindings_newChild, Scopes.kindAt]

theorem scope_modifyBindings (hs : s < e.all.length) :
    (e.modifyBindings f).scope s =
      if s = e.current then { e.scope s with bindings := f (e.bindings s) } else e.scope s := by
  unfold modifyBindings scope bindings scope
  rw [getElem?_modify, getElem?_eq_getElem hs]
  by_cases h : e.current = s
  · simp [h]
  · simp [h, Ne.symm h]

theorem length_modifyBindings : (e.modifyBindings f).all.length = e.all.length := by
  simp [modifyBindings]

theorem bindings_modifyBindings : (e.modifyBindings f).bindings s =
    if s = e.current ∧ s < e.all.length then f (e.bindings s) else e.bindings s := by
  by_cases hs : s < e.all.length
  · by_cases h : s = e.current
    · rw [if_pos ⟨h, hs⟩, bindings, scope_modifyBindings hs, if_pos h]
    · rw [if_neg fun hc => h hc.1, bindings, scope_modifyBindings hs, if_neg h, bindings]
  · have hle : e.all.length ≤ s := not_lt.mp hs
    rw [if_neg fun h => hs h.2, bindings, bindings, scope, scope,
      getElem?_eq_none (length_modifyBindings.trans_le hle), getElem?_eq_none hle]

theorem persists_modifyBindings
    (h : ∀ n t, find? (e.bindings e.current) n = some t →
      ∃ t', find? (f (e.bindings e.current)) n = some t' ∧ t.Alike t') :
    Persists e (e.modifyBindings f) where
  length_le := length_modifyBindings.ge
  name s hs := by rw [scope_modifyBindings hs]; split <;> rfl
  parent s hs := by rw [scope_modifyBindings hs]; split <;> rfl
  bound s n t ht := by
    rw [bindings_modifyBindings]
    split
    · next hs =>
      rw [hs.1] at ht ⊢
      exact h n t ht
    · exact ⟨t, ht, .refl t⟩

/-- What is bound by a name is changed where it is bound, and nowhere else. -/
theorem find?_bindings_modify {f : Ty → Ty} : find? ((e.modify n f).bindings s) m =
    if s = e.current ∧ s < e.all.length ∧ m = n then (find? (e.bindings s) m).map f
    else find? (e.bindings s) m := by
  rw [modify, bindings_modifyBindings]
  by_cases hs : s = e.current ∧ s < e.all.length
  · rw [if_pos hs, find?_modify]
    by_cases hm : m = n
    · rw [if_pos hm, if_pos ⟨hs.1, hs.2, hm⟩]
    · rw [if_neg hm, if_neg fun h => hm h.2.2]
  · rw [if_neg hs, if_neg fun h => hs ⟨h.1, h.2.1⟩]

theorem exists_of_modify {f : Ty → Ty} (h : find? ((e.modify n f).bindings s) m = some t) :
    ∃ u, find? (e.bindings s) m = some u ∧ (t = u ∨ t = f u) := by
  rw [find?_bindings_modify] at h
  split at h
  · obtain ⟨u, hu, rfl⟩ := Option.map_eq_some_iff.mp h
    exact ⟨u, hu, Or.inr rfl⟩
  · exact ⟨t, h, Or.inl rfl⟩

theorem keeps_modify {f : Ty → Ty} (hf : ∀ t : Ty, t.Alike (f t)) : Keeps e (e.modify n f) where
  toPersists := persists_modifyBindings fun m t ht => by
    rw [find?_modify]
    by_cases hm : m = n
    · exact ⟨f t, by simp [hm ▸ ht, hm], hf t⟩
    · exact ⟨t, by simp [hm, ht], .refl t⟩
  kindAt s m := by
    rw [Scopes.kindAt, find?_bindings_modify, Scopes.kindAt]
    split
    · cases find? (e.bindings s) m with
      | none => rfl
      | some t => exact (hf t).kind?
    · rfl

/-- Nothing is lost when a new name is bound. -/
theorem persists_set (hunb : find? (e.bindings e.current) n = none) :
    Persists e (e.set n t) := by
  refine persists_modifyBindings fun m u hu => ⟨u, ?_, .refl u⟩
  have hm : m ≠ n := by rintro rfl; rw [hunb] at hu; cases hu
  rw [find?_insert, if_neg hm, hu]

theorem find?_bindings_set : find? ((e.set n t).bindings s) m =
    if s = e.current ∧ s < e.all.length ∧ m = n then some t else find? (e.bindings s) m := by
  rw [set, bindings_modifyBindings]
  by_cases hs : s = e.current ∧ s < e.all.length
  · rw [if_pos hs, find?_insert]
    by_cases hm : m = n
    · rw [if_pos hm, if_pos ⟨hs.1, hs.2, hm⟩]
    · rw [if_neg hm, if_neg fun h => hm h.2.2]
  · rw [if_neg hs, if_neg fun h => hs ⟨h.1, h.2.1⟩]

theorem kindAt_set : (e.set n t).kindAt s m =
    if s = e.current ∧ s < e.all.length ∧ m = n then t.kind? else e.kindAt s m := by
  rw [kindAt, find?_bindings_set, kindAt]
  split <;> rfl

theorem keeps_set (hunb : find? (e.bindings e.current) n = none)
    (ht : t.kind? = none) : Keeps e (e.set n t) where
  toPersists := persists_set hunb
  kindAt s m := by
    rw [kindAt_set]
    split
    · next hs => rw [ht, Scopes.kindAt, hs.1, hs.2.2, hunb, Option.bind_none]
    · rfl

theorem keeps_set_function {params : List Ty} {result result' : Ty}
    (h : find? (e.bindings e.current) n = some (.function params result)) :
    Keeps e (e.set n (.function params result')) where
  toPersists := persists_modifyBindings fun m t ht => by
    rw [find?_insert]
    by_cases hm : m = n
    · obtain rfl : Ty.function params result = t := Option.some.inj (h.symm.trans (hm ▸ ht))
      exact ⟨.function params result', if_pos hm, rfl, rfl, rfl, rfl⟩
    · exact ⟨t, by rw [if_neg hm, ht], .refl t⟩
  kindAt s m := by
    rw [kindAt_set]
    split
    · next hs => rw [Scopes.kindAt, hs.1, hs.2.2, h]; rfl
    · rfl

/-! ### Looking up names -/

/-- A name is found on the way out, in a scope that binds it. -/
theorem mem_chain_of_resolve (h : e.resolve n = .ok (s, t)) :
    s ∈ e.chain e.current ∧ find? (e.bindings s) n = some t := by
  unfold resolve at h
  cases hfind : (e.chain e.current).findSome? (e.bindingIn? n) with
  | none => rw [hfind] at h; cases h
  | some found =>
    rw [hfind] at h
    obtain rfl := Except.ok.inj h
    obtain ⟨u, hu, hbind⟩ := exists_of_findSome?_eq_some hfind
    obtain ⟨t', ht', heq⟩ := Option.map_eq_some_iff.mp hbind
    cases heq
    exact ⟨hu, ht'⟩

theorem resolve_of_find? (hlt : e.current < e.all.length)
    (h : find? (e.bindings e.current) n = some t) : e.resolve n = .ok (e.current, t) := by
  obtain ⟨k, hk⟩ := Nat.exists_eq_add_one_of_ne_zero (Nat.ne_zero_of_lt hlt)
  have hfind : (e.chain e.current).findSome? (e.bindingIn? n) = some (e.current, t) := by
    rw [chain, hk, chainFrom, findSome?_cons, bindingIn?, h]
    rfl
  rw [resolve, hfind]

theorem unbound_of_resolve (hlt : e.current < e.all.length) (h : e.resolve n = .ok (s, t))
    (hs : s ≠ e.current) : find? (e.bindings e.current) n = none := by
  refine Option.eq_none_iff_forall_ne_some.mpr fun t' ht' => hs ?_
  exact congrArg Prod.fst (Except.ok.inj (h.symm.trans (resolve_of_find? hlt ht')))

theorem exists_of_lookup (h : e.lookup n = .ok t) : ∃ s, e.resolve n = .ok (s, t) := by
  unfold lookup at h
  cases hr : e.resolve n with
  | error d => rw [hr] at h; cases h
  | ok found =>
    rw [hr] at h
    obtain rfl := Except.ok.inj h
    exact ⟨found.1, rfl⟩

theorem kindAt_of_resolve (h : e.resolve n = .ok (s, t)) : e.kindAt s n = t.kind? := by
  rw [kindAt, (mem_chain_of_resolve h).2, Option.bind_some]

theorem chainFrom_subset (steps : Nat) (hgl : (e.scope ScopeId.global).parent = none)
    (hs : (e.scope s).parent = none ∨ (e.scope s).parent = some ScopeId.global) :
    ∀ u ∈ e.chainFrom steps s, u = s ∨ u = ScopeId.global := by
  -- The chain ends at the global scope, whatever steps are left.
  have hzero : ∀ k, ∀ u ∈ e.chainFrom k ScopeId.global, u = ScopeId.global := by
    intro k
    cases k with
    | zero => simp [chainFrom]
    | succ k => simp [chainFrom, parent?, hgl]
  cases steps with
  | zero => simp [chainFrom]
  | succ steps =>
    intro u hu
    rw [chainFrom, mem_cons] at hu
    rcases hu with rfl | hu
    · exact Or.inl rfl
    · rcases hs with hs | hs
      · simp [parent?, hs] at hu
      · simp only [parent?, hs] at hu
        exact Or.inr (hzero steps u hu)

theorem chain_global (hlen : 0 < e.all.length)
    (hpar : (e.scope ScopeId.global).parent = none) :
    e.chain ScopeId.global = [ScopeId.global] := by
  obtain ⟨k, hk⟩ : ∃ k, e.all.length = k + 1 := ⟨e.all.length - 1, by omega⟩
  rw [chain, hk, chainFrom, parent?, hpar]

theorem chain_component (hs : s < e.all.length) (hs0 : s ≠ ScopeId.global)
    (hpar0 : (e.scope ScopeId.global).parent = none)
    (hpar : (e.scope s).parent = some ScopeId.global) :
    e.chain s = [s, ScopeId.global] := by
  have hpos : 0 < s := Nat.pos_of_ne_zero hs0
  obtain ⟨k, hk⟩ : ∃ k, e.all.length = k + 2 :=
    Nat.exists_eq_add_of_le' (Nat.succ_le_of_lt (Nat.lt_of_le_of_lt hpos hs))
  rw [chain, hk, chainFrom, parent?, hpar]
  dsimp only
  rw [chainFrom, parent?, hpar0]

theorem scope_newChild_eq (e : Scopes) (name : Option String) (s : ScopeId) :
    (e.newChild name).2.scope s =
      if s = e.all.length then { name, parent := some e.current } else e.scope s := by
  rcases lt_trichotomy s e.all.length with hs | rfl | hs
  · rw [scope_newChild_of_lt hs, if_neg hs.ne]
  · rw [scope_newChild, if_pos rfl]
  · have hlen : (e.newChild name).2.all.length = e.all.length + 1 := by simp [newChild]
    rw [if_neg hs.ne', scope, scope, getElem?_eq_none (hlen ▸ hs),
      getElem?_eq_none hs.le]

theorem name_parent_modifyBindings (e : Scopes) (f : Table Ty → Table Ty) (s : ScopeId) :
    ((e.modifyBindings f).scope s).name = (e.scope s).name ∧
      ((e.modifyBindings f).scope s).parent = (e.scope s).parent := by
  by_cases hs : s < e.all.length
  · rw [scope_modifyBindings hs]
    split <;> exact ⟨rfl, rfl⟩
  · have hle : e.all.length ≤ s := not_lt.mp hs
    rw [scope, scope, getElem?_eq_none (length_modifyBindings.trans_le hle),
      getElem?_eq_none hle]
    exact ⟨rfl, rfl⟩

section Congr

variable {e f : Scopes} (hlength : f.all.length = e.all.length)
  (hnm : ∀ s, (f.scope s).name = (e.scope s).name)
  (hpar : ∀ s, (f.scope s).parent = (e.scope s).parent)

include hlength hpar

theorem chain_congr (s : ScopeId) : f.chain s = e.chain s := by
  have hchain : ∀ steps s, f.chainFrom steps s = e.chainFrom steps s := by
    intro steps
    induction steps with
    | zero => exact fun _ => rfl
    | succ steps ih =>
      intro s
      have hpar : f.parent? s = e.parent? s := hpar s
      rw [chainFrom, chainFrom, hpar]
      cases e.parent? s with
      | none => rfl
      | some p => exact congrArg (s :: ·) (ih p)
  rw [chain, hlength, hchain, chain]

theorem resolve_congr (hcur : f.current = e.current)
    (hfind : ∀ s, find? (f.bindings s) n = find? (e.bindings s) n) :
    f.resolve n = e.resolve n := by
  have hin : f.bindingIn? n = e.bindingIn? n := by
    funext s
    rw [bindingIn?, bindingIn?, hfind]
  rw [resolve, resolve, hcur, chain_congr hlength hpar, hin]

include hnm

theorem qualify_congr (s : ScopeId) (n : String) : f.qualify s n = e.qualify s n := by
  unfold qualify
  rw [chain_congr hlength hpar]
  simp only [hnm]

end Congr

theorem get?_set (hlt : e.current < e.all.length) :
    (e.set n t).get? m = if m = n then some t else e.get? m := by
  have hfind : (e.set n t).get? m = _ := find?_bindings_set (s := e.current)
  simp only [hlt, true_and] at hfind
  exact hfind

theorem resolve_set (hlt : e.current < e.all.length) :
    (e.set n t).resolve m = if m = n then .ok (e.current, t) else e.resolve m := by
  have hlength : (e.set n t).all.length = e.all.length := length_modifyBindings
  split
  · next hm =>
    have hget : (e.set n t).get? m = some t := by rw [get?_set hlt, if_pos hm]
    exact resolve_of_find? (hlength ▸ hlt) hget
  · next hm =>
    refine resolve_congr hlength (fun s => (e.name_parent_modifyBindings _ s).2) rfl fun s => ?_
    rw [find?_bindings_set, if_neg fun h => hm h.2.2]

end Scopes

end Provision
