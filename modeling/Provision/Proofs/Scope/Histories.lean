import Provision.Proofs.Scope

/-!
# Scopes after any operations

`Scopes.Reachable e` says that `e` comes from the outermost scope alone by making children, entering
scopes that exist, declaring names and setting them, in any order. Then every scope was made after
its parent (`Scopes.Nested`), so a walk outward ends (`Scopes.Outward`), and the walk with limited
steps that names are looked up on is all of it (`Scopes.Nested.outward_chain`).

Names are looked up lexically (`Scopes.lexical_of_reachable`). A name is found in the nearest scope
on the way outward that binds it. Binding a name in a scope shows only to those who ask for that
name and have no nearer scope that binds it.
-/

namespace Provision.Scopes

variable {e e' : Scopes} {s u : ScopeId} {n name : String} {t : Ty} {path : List ScopeId}

/-! ### Operations -/

inductive Op where
  | newChild (name : Option String)
  | enter (s : ScopeId)
  | declare (name : String) (type : Ty)
  | set (name : String) (type : Ty)

/-- The error of an operation, if it fails, and the scopes after it. -/
def perform (e : Scopes) : Op → Option ScopeError × Scopes
  | .newChild name => (none, (e.newChild name).2)
  | .enter s => (none, e.enter s)
  | .declare name type =>
    match e.declare name type with
    | .ok e' => (none, e')
    | .error error => (some error, e)
  | .set name type => (none, e.set name type)

/-- What some operations can make of the outermost scope. Only scopes that exist are entered. -/
inductive Reachable : Scopes → Prop
  | fresh : Reachable {}
  | perform {e : Scopes} (before : Reachable e) (op : Op)
    (exists_enter : ∀ s, op = .enter s → s < e.all.length) : Reachable (e.perform op).2

theorem perform_declare : e.perform (.declare name t) =
    if (e.get? name).isSome then (some (.declarationExists name), e) else (none, e.set name t) := by
  simp only [perform, declare]
  cases e.get? name <;> rfl

theorem perform_eq_set {op : Op} (hop : op = .declare name t ∨ op = .set name t)
    (hok : (e.perform op).1 = none) : (e.perform op).2 = e.set name t := by
  rcases hop with rfl | rfl
  · rw [perform_declare] at hok ⊢
    split at hok
    · cases hok
    · next hunb => rw [if_neg hunb]
  · rfl

/-! ### Parents come first -/

/-- The current scope exists, and every scope was made after its parent. -/
structure Nested (e : Scopes) : Prop where
  current_lt : e.current < e.all.length
  parent_lt : ∀ {s p}, e.parent? s = some p → p < s

theorem parent?_of_length_le (hs : e.all.length ≤ s) : e.parent? s = none := by
  rw [parent?, scope, List.getElem?_eq_none hs]
  rfl

theorem parent?_modifyBindings {f : Table Ty → Table Ty} :
    (e.modifyBindings f).parent? s = e.parent? s := by
  by_cases hs : s < e.all.length
  · rw [parent?, scope_modifyBindings hs, parent?]
    split <;> rfl
  · have hle : e.all.length ≤ s := Nat.le_of_not_lt hs
    rw [parent?_of_length_le hle, parent?_of_length_le (length_modifyBindings.trans_le hle)]

theorem nested_fresh : Nested {} where
  current_lt := Nat.one_pos
  parent_lt {s p} hp := by
    cases s with
    | zero => cases hp
    | succ s =>
      rw [parent?_of_length_le (Nat.succ_pos s)] at hp
      cases hp

theorem Nested.newChild (h : e.Nested) (name : Option String) : (e.newChild name).2.Nested where
  current_lt := by
    have hlen : (e.newChild name).2.all.length = e.all.length + 1 := by simp [Scopes.newChild]
    rw [hlen]
    exact Nat.lt_succ_of_lt h.current_lt
  parent_lt {s p} hp := by
    rw [parent?] at hp
    rcases lt_trichotomy s e.all.length with hs | rfl | hs
    · rw [scope_newChild_of_lt hs] at hp
      exact h.parent_lt hp
    · -- the new scope lies in the current one
      rw [scope_newChild] at hp
      obtain rfl : e.current = p := Option.some.inj hp
      exact h.current_lt
    · have hnone : (e.newChild name).2.parent? s = none :=
        parent?_of_length_le (by simp [Scopes.newChild]; omega)
      rw [parent?, hp] at hnone
      cases hnone

theorem Nested.enter (h : e.Nested) (hs : s < e.all.length) : (e.enter s).Nested where
  current_lt := hs
  parent_lt hp := h.parent_lt hp

theorem Nested.set (h : e.Nested) (name : String) (t : Ty) : (e.set name t).Nested where
  current_lt := by
    rw [Scopes.set, length_modifyBindings]
    exact h.current_lt
  parent_lt hp := h.parent_lt (parent?_modifyBindings.symm.trans hp)

theorem Nested.perform (h : e.Nested) (op : Op)
    (hop : ∀ s, op = .enter s → s < e.all.length) : (e.perform op).2.Nested := by
  cases op with
  | newChild name => exact h.newChild name
  | enter s => exact h.enter (hop s rfl)
  | declare name type =>
    rw [perform_declare]
    split
    · exact h
    · exact h.set name type
  | set name type => exact h.set name type

theorem Reachable.nested (h : Reachable e) : e.Nested := by
  induction h with
  | fresh => exact nested_fresh
  | perform _ op hop ih => exact ih.perform op hop

/-! ### Walks outward -/

/-- The scopes on the way from a scope to the outermost one around it. -/
inductive Outward (e : Scopes) : ScopeId → List ScopeId → Prop
  | outermost {s : ScopeId} (parent : e.parent? s = none) : Outward e s [s]
  | inside {s p : ScopeId} {path : List ScopeId} (parent : e.parent? s = some p)
    (rest : Outward e p path) : Outward e s (s :: path)

theorem Nested.outward_chainFrom (h : e.Nested) {steps : Nat} (hs : s < steps) :
    e.Outward s (e.chainFrom steps s) := by
  induction steps generalizing s with
  | zero => exact absurd hs (Nat.not_lt_zero s)
  | succ steps ih =>
    rw [chainFrom]
    cases hpar : e.parent? s with
    | none => exact .outermost hpar
    | some p =>
      -- the parent has a smaller number, so a step less is enough for it
      have hlt : p < s := h.parent_lt hpar
      exact .inside hpar (ih (Nat.lt_of_lt_of_le hlt (Nat.le_of_lt_succ hs)))

/-- The walk from a scope that exists ends before its steps do. -/
theorem Nested.outward_chain (h : e.Nested) (hs : s < e.all.length) : e.Outward s (e.chain s) :=
  h.outward_chainFrom hs

theorem chainFrom_congr (h : ∀ s, e'.parent? s = e.parent? s) (steps : Nat) (s : ScopeId) :
    e'.chainFrom steps s = e.chainFrom steps s := by
  induction steps generalizing s with
  | zero => rfl
  | succ steps ih =>
    rw [chainFrom, chainFrom, h]
    cases e.parent? s with
    | none => rfl
    | some p => simp only [ih]

theorem chain_set (e : Scopes) (name : String) (t : Ty) (s : ScopeId) :
    (e.set name t).chain s = e.chain s := by
  rw [chain, chain, Scopes.set, length_modifyBindings]
  exact chainFrom_congr (fun _ => parent?_modifyBindings) _ _

theorem chain_enter : (e.enter u).chain s = e.chain s := by
  have hpar : ∀ s, (e.enter u).parent? s = e.parent? s := fun _ => rfl
  exact chainFrom_congr hpar _ _

/-! ### The nearest binding -/

/-- The scope `s` is the first on a way that binds the name, and it binds it to `t`. -/
def Nearest (e : Scopes) (name : String) (path : List ScopeId) (s : ScopeId) (t : Ty) : Prop :=
  ∃ inner outer, path = inner ++ s :: outer ∧
    (∀ u ∈ inner, Table.find? (e.bindings u) name = none) ∧
    Table.find? (e.bindings s) name = some t

theorem bindingIn?_eq_none : e.bindingIn? name s = none ↔ Table.find? (e.bindings s) name = none :=
  Option.map_eq_none_iff

theorem findSome?_bindingIn?_eq_some :
    path.findSome? (e.bindingIn? name) = some (s, t) ↔ e.Nearest name path s t := by
  rw [List.findSome?_eq_some_iff]
  constructor
  · rintro ⟨inner, v, outer, rfl, hv, hin⟩
    obtain ⟨t', ht', heq⟩ := Option.map_eq_some_iff.mp hv
    cases heq
    exact ⟨inner, outer, rfl, fun u hu => bindingIn?_eq_none.mp (hin u hu), ht'⟩
  · rintro ⟨inner, outer, rfl, hin, hs⟩
    refine ⟨inner, s, outer, rfl, ?_, fun u hu => bindingIn?_eq_none.mpr (hin u hu)⟩
    rw [bindingIn?, hs]
    rfl

theorem resolve_enter : (e.enter u).resolve name =
    ((e.chain u).findSome? (e.bindingIn? name)).elim (.error (.notFound name)) .ok := by
  have hchain : (e.enter u).chain (e.enter u).current = e.chain u := chain_enter
  have hbg : (e.enter u).bindingIn? name = e.bindingIn? name := rfl
  rw [resolve, hchain, hbg]
  cases (e.chain u).findSome? (e.bindingIn? name) <;> rfl

theorem resolve_enter_eq_ok :
    (e.enter u).resolve name = .ok (s, t) ↔ e.Nearest name (e.chain u) s t := by
  rw [← findSome?_bindingIn?_eq_some, resolve_enter]
  cases (e.chain u).findSome? (e.bindingIn? name) <;> simp

theorem resolve_enter_eq_error {error : ScopeError} : (e.enter u).resolve name = .error error ↔
    error = .notFound name ∧ ∀ v ∈ e.chain u, Table.find? (e.bindings v) name = none := by
  have hnone : (e.chain u).findSome? (e.bindingIn? name) = none ↔
      ∀ v ∈ e.chain u, Table.find? (e.bindings v) name = none := by
    rw [List.findSome?_eq_none_iff]
    simp only [bindingIn?_eq_none]
  rw [← hnone, resolve_enter]
  cases (e.chain u).findSome? (e.bindingIn? name) <;> simp [eq_comm]

/-- On any way out, a new binding is found first or makes no difference. -/
theorem findSome?_bindingIn?_set (e : Scopes) (name : String) (t : Ty) (n : String)
    (path : List ScopeId) :
    path.findSome? ((e.set name t).bindingIn? n) = path.findSome? (e.bindingIn? n) ∨
      n = name ∧ (e.set name t).Nearest name path e.current t := by
  induction path with
  | nil => exact Or.inl rfl
  | cons v path ih =>
    have hfind := find?_bindings_set (e := e) (n := name) (t := t) (s := v) (m := n)
    by_cases hv : v = e.current ∧ v < e.all.length ∧ n = name
    · -- the scope itself: nothing is nearer
      rw [if_pos hv] at hfind
      obtain ⟨rfl, -, rfl⟩ := hv
      exact Or.inr ⟨rfl, [], path, rfl, List.forall_mem_nil _, hfind⟩
    · rw [if_neg hv] at hfind
      have hbg : (e.set name t).bindingIn? n v = e.bindingIn? n v := by
        rw [bindingIn?, hfind, bindingIn?]
      rw [List.findSome?_cons, List.findSome?_cons, hbg]
      cases hfound : e.bindingIn? n v with
      | some found => exact Or.inl rfl
      | none =>
        refine ih.imp_right ?_
        rintro ⟨rfl, inner, outer, rfl, hin, hbd⟩
        have hnone : Table.find? ((e.set n t).bindings v) n = none :=
          hfind.trans (bindingIn?_eq_none.mp hfound)
        exact ⟨rfl, v :: inner, outer, rfl, List.forall_mem_cons.mpr ⟨hnone, hin⟩, hbd⟩

theorem nearest_of_resolve_ne
    (h : ((e.set name t).enter u).resolve n ≠ (e.enter u).resolve n) :
    n = name ∧ (e.set name t).Nearest name (e.chain u) e.current t := by
  rcases findSome?_bindingIn?_set e name t n (e.chain u) with hsame | hnearest
  · refine absurd ?_ h
    rw [resolve_enter, resolve_enter, chain_set, hsame]
  · exact hnearest

/-- **Lexical scopes.** After any operations the current scope exists, a scope has a larger number
than its parent, and from every scope the way outward ends. Qualified names have the names of the
scopes on that way, and names are found in the nearest scope on it that binds them, or not at all if
none does. A declaration fails exactly if the current scope itself binds the name, and then changes
nothing. If declaring or setting a name changes what is found for some name from some scope, then it
is that name, and the current scope is the nearest on the way that binds it afterwards. -/
theorem lexical_of_reachable (h : Reachable e) :
    e.current < e.all.length ∧ (∀ s p, e.parent? s = some p → p < s) ∧
    (∀ u < e.all.length, ∃ path, e.Outward u path ∧ ∀ name,
      (e.qualify u name =
        ".".intercalate (name :: path.filterMap fun s => (e.scope s).name).reverse) ∧
      (∀ s t, (e.enter u).resolve name = .ok (s, t) ↔ e.Nearest name path s t) ∧
      ∀ error, (e.enter u).resolve name = .error error ↔
        error = .notFound name ∧ ∀ s ∈ path, Table.find? (e.bindings s) name = none) ∧
    (∀ name t, (∀ error, (e.perform (.declare name t)).1 = some error ↔
        error = .declarationExists name ∧ (Table.find? (e.bindings e.current) name).isSome) ∧
      ((e.perform (.declare name t)).1.isSome → (e.perform (.declare name t)).2 = e)) ∧
    ∀ op name t, op = .declare name t ∨ op = .set name t → (e.perform op).1 = none →
      ∀ u < e.all.length, ∀ n,
        ((e.perform op).2.enter u).resolve n ≠ (e.enter u).resolve n →
        n = name ∧ ∃ path, (e.perform op).2.Outward u path ∧
          (e.perform op).2.Nearest name path e.current t := by
  have hnst := h.nested
  refine ⟨hnst.current_lt, fun s p hp => hnst.parent_lt hp, fun u hu => ?_,
    fun name t => ?_, ?_⟩
  · refine ⟨e.chain u, hnst.outward_chain hu, fun name => ⟨rfl, fun s t => ?_, fun error => ?_⟩⟩
    · exact resolve_enter_eq_ok
    · exact resolve_enter_eq_error
  · have hget : e.get? name = Table.find? (e.bindings e.current) name := rfl
    rw [perform_declare, ← hget]
    split
    · next hbd => simp [hbd, eq_comm]
    · next hunb => simp [hunb]
  · intro op name t hop hok u hu n hne
    rw [perform_eq_set hop hok] at hne ⊢
    obtain ⟨rfl, hnearest⟩ := nearest_of_resolve_ne hne
    refine ⟨rfl, e.chain u, ?_, hnearest⟩
    rw [← chain_set e n t]
    refine (hnst.set n t).outward_chain ?_
    rw [Scopes.set, length_modifyBindings]
    exact hu

/-- A name of the top level that a component declares again. Inside the component is a scope without
a name, which is current. -/
private def shadowed : Scopes where
  all := [{ bindings := [("region", .string)] },
    { name := some "app", parent := some 0, bindings := [("region", .number)] },
    { parent := some 1 }]
  current := 2

private theorem reachable_shadowed : Reachable shadowed := by
  have hset : Reachable ({ all := [{ bindings := [("region", .string)] }] } : Scopes) :=
    .perform .fresh (.set "region" .string) nofun
  have happ := (hset.perform (.newChild (some "app")) nofun).perform (.enter 1) fun s hs => by
    obtain rfl := Op.enter.inj hs
    decide
  have hdecl := happ.perform (.declare "region" .number) nofun
  -- a second declaration fails and changes nothing
  have hagain := hdecl.perform (.declare "region" .boolean) nofun
  exact (hagain.perform (.newChild none) nofun).perform (.enter 2) fun s hs => by
    obtain rfl := Op.enter.inj hs
    decide

/-- The name is found in the component, though the top level binds it too. Declaring it in the
innermost scope shows there, and not from the component. -/
theorem lexical_of_reachable_shadowed :
    let declared := (shadowed.perform (.declare "region" .boolean)).2
    Reachable shadowed ∧
    (∃ path, shadowed.Outward 2 path ∧ shadowed.Nearest "region" path 1 .number) ∧
    shadowed.qualify 2 "bucket" = "app.bucket" ∧
    (∃ path, declared.Outward 2 path ∧ declared.Nearest "region" path 2 .boolean) ∧
    (declared.enter 1).resolve "region" = (shadowed.enter 1).resolve "region" := by
  intro declared
  obtain ⟨-, -, hwalk, -, hfr⟩ := lexical_of_reachable reachable_shadowed
  obtain ⟨path, hpath, hnms⟩ := hwalk 2 (by decide)
  have hfound : (shadowed.enter 2).resolve "region" = .ok (1, .number) := rfl
  refine ⟨reachable_shadowed, ⟨path, hpath, ((hnms "region").2.1 1 .number).mp hfound⟩, rfl, ?_,
    rfl⟩
  have hchanged : (declared.enter 2).resolve "region" ≠ (shadowed.enter 2).resolve "region" := by
    have hnew : (declared.enter 2).resolve "region" = .ok (2, .boolean) := rfl
    rw [hnew, hfound]
    exact nofun
  exact (hfr _ "region" .boolean (Or.inl rfl) rfl 2 (by decide) "region" hchanged).2

end Provision.Scopes
