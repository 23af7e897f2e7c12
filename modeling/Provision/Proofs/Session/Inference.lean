import Provision.Proofs.Session.Links
import Provision.Session.Inference

/-!
# What expressions read

An expression reads an instance if a name in it stands for one, at any depth (`Session.Reads`). When
its type is found, all that it reads is noted (`Session.noted_infer`).

Inference visits every part of an expression, one level deeper (`Session.visits_of_child`). What it
finds depends on what names mean only, and not on what was noted before (`Session.Repeatable`). Both
follow from what its few basic operations do, by one induction over expressions (`Session.Closed`).
So does that expressions are too deep just if they are higher than the limit
(`Session.infer_exact`).
-/

namespace Provision

open List

variable {scope : ScopeId} {type : Ty} {m : Inferring α} {f : α → Inferring β} {e : Expr}
  {expected : Option Ty} {span : Span}

def Expr.children : Expr → List Expr
  | .lit _ _ | .var _ => []
  | .member base _ _ => [base]
  | .array items _ => items
  | .object fields _ => fields.map ObjectField.value
  | .unary _ operand _ => [operand]
  | .call callee args _ => callee :: args
  | .binary lhs _ rhs _ => [lhs, rhs]
  | .paren inner _ => [inner]

namespace Expr

mutual

def height : Expr → Nat
  | .lit _ _ => 1
  | .var _ => 1
  | .member base _ _ => base.height + 1
  | .array items _ => heightAll items + 1
  | .object fields _ => heightFields fields + 1
  | .unary _ operand _ => operand.height + 1
  | .call callee args _ => max callee.height (heightAll args) + 1
  | .binary lhs _ rhs _ => max lhs.height rhs.height + 1
  | .paren inner _ => inner.height + 1

def heightAll : List Expr → Nat
  | [] => 0
  | e :: es => max e.height (heightAll es)

/-- The height of the highest value of an object literal. -/
def heightFields : List ObjectField → Nat
  | [] => 0
  | .mk _ value _ :: rest => max value.height (heightFields rest)

end

end Expr

namespace Session

variable {k : Checker} {p : Program} {s t : Session}

/-! ### One induction over expressions -/

/-- The finding that expressions are nested too deep. -/
def IsTooDeep (d : Diagnostic) : Prop := ∃ limit span, d = .typeError (.tooDeep limit) span

/-- A property of checks that look into expressions up to some height, which holds of the basic
operations of inference and of what is made of them. -/
structure Graded (k : Checker) (P : {α : Type} → Nat → Inferring α → Prop) : Prop where
  pure : ∀ {α : Type} (a : α), P 0 (Pure.pure a)
  throw : ∀ {α : Type} (n : Nat) {d : Diagnostic}, ¬ IsTooDeep d → P n (throw d : Inferring α)
  bind : ∀ {α β : Type} {n n' : Nat} {m : Inferring α} {f : α → Inferring β}, P n m →
    (∀ a, P n' (f a)) → P (max n n') (m >>= f)
  nested : ∀ {α : Type} {n : Nat} (span : Span) {m : Inferring α}, P n m →
    P (n + 1) (nested k span m)
  var : ∀ name, P 0 (inferVar name)
  member : ∀ base field, P 0 (inferMember base field)

section Graded

variable {P : {α : Type} → Nat → Inferring α → Prop}

theorem Graded.last {n : Nat} (h : Graded k P) (hm : P n m) (hf : ∀ a, P 0 (f a)) : P n (m >>= f) :=
  Nat.max_zero n ▸ h.bind hm hf

mutual

/-- A graded property holds of the inference of every expression, by its height. -/
theorem Graded.infer (h : Graded k P) : ∀ (e : Expr) (expected : Option Ty),
    P e.height (infer k e expected)
  | .lit value span, _ => by
    rw [Session.infer]
    exact h.nested span (h.pure _)
  | .var name, _ => by
    rw [Session.infer]
    exact h.nested _ (h.var name)
  | .paren inner span, expected => by
    rw [Session.infer]
    exact h.nested span (h.infer inner expected)
  | .member base field span, _ => by
    rw [Session.infer]
    exact h.nested span (h.last (h.infer base none) fun _ => h.member _ field)
  | .array items span, expected => by
    rw [Session.infer]
    refine h.nested span (h.last (h.inferItems items _) fun types => ?_)
    cases types <;> exact h.pure _
  | .object fields span, expected => by
    unfold Session.infer
    exact h.nested span (h.last (h.inferFields _ _ fields) fun _ => h.pure _)
  | .unary op operand span, _ => by
    rw [Session.infer]
    refine h.nested span (h.last (h.infer operand none) fun found => ?_)
    split
    · exact h.pure _
    · exact h.throw 0 nofun
  | .binary lhs op rhs span, _ => by
    rw [Session.infer]
    refine h.nested span (h.bind (h.infer lhs none) fun l => h.last (h.infer rhs none) fun r => ?_)
    split
    · exact h.pure _
    · exact h.throw 0 nofun
  | .call callee args span, _ => by
    rw [Session.infer]
    refine h.nested span (h.bind (h.infer callee none) fun type => ?_)
    split
    · next params _ =>
      split
      · next hlen =>
        have hargs := h.inferArgs 1 params args
        rw [hlen, take_length] at hargs
        exact h.last hargs fun _ => h.pure _
      · exact h.throw _ nofun
    · exact h.last (h.inferItems args none) fun _ => h.pure _
    · exact h.throw _ nofun

theorem Graded.inferItems (h : Graded k P) : ∀ (es : List Expr) (hint : Option Ty),
    P (Expr.heightAll es) (inferItems k es hint)
  | [], _ => by
    rw [Session.inferItems]
    exact h.pure _
  | e :: es, hint => by
    rw [Session.inferItems]
    exact h.bind (h.infer e hint) fun _ => h.last (h.inferItems es hint) fun _ => h.pure _

theorem Graded.inferFields (h : Graded k P) :
    ∀ (hints types : Table Ty) (fields : List ObjectField),
      P (Expr.heightFields fields) (inferFields k hints types fields)
  | _, _, [] => by
    rw [Session.inferFields]
    exact h.pure _
  | hints, types, .mk key value span :: fields => by
    rw [Session.inferFields]
    split
    · exact h.throw _ nofun
    · exact h.bind (h.infer value _) fun _ => h.inferFields hints _ fields

theorem Graded.inferArgs (h : Graded k P) :
    ∀ (position : Nat) (params : List Ty) (args : List Expr),
      P (Expr.heightAll (args.take params.length)) (inferArgs k position params args)
  | position, param :: params, arg :: args => by
    rw [Session.inferArgs]
    refine h.bind (h.infer arg _) fun found => ?_
    split
    · exact h.inferArgs _ params args
    · exact h.throw _ nofun
  | _, [], _ => by
    rw [Session.inferArgs]
    · exact h.pure _
    · exact nofun
  | _, _ :: _, [] => by
    rw [Session.inferArgs]
    · exact h.pure _
    · exact nofun

end

end Graded

/-- A property of checks that holds of the basic operations of inference and of what is made of
them. -/
structure Closed (k : Checker) (P : {α : Type} → Inferring α → Prop) : Prop where
  pure : ∀ {α : Type} (a : α), P (Pure.pure a)
  throw : ∀ {α : Type} (d : Diagnostic), P (throw d : Inferring α)
  bind : ∀ {α β : Type} {m : Inferring α} {f : α → Inferring β}, P m → (∀ a, P (f a)) → P (m >>= f)
  nested : ∀ {α : Type} (span : Span) {m : Inferring α}, P m → P (nested k span m)
  var : ∀ name, P (inferVar name)
  member : ∀ base field, P (inferMember base field)

namespace Closed

variable {P : {α : Type} → Inferring α → Prop} (h : Closed k P)
include h

theorem graded : Graded k fun _ m => P m :=
  ⟨h.pure, fun {_} _ {d} _ => h.throw d, h.bind, h.nested, h.var, h.member⟩

theorem infer (e : Expr) (expected : Option Ty) : P (infer k e expected) :=
  h.graded.infer e expected

theorem inferItems (es : List Expr) (hint : Option Ty) : P (inferItems k es hint) :=
  h.graded.inferItems es hint

theorem inferArgs (position : Nat) (params : List Ty) (args : List Expr) :
    P (inferArgs k position params args) :=
  h.graded.inferArgs position params args

end Closed

/-! ### Basic operations -/

/-- A nested check runs one level deeper, or is too deep. -/
theorem run_nested (span : Span) (m : Inferring α) : (nested k span m).run.run s =
    if s.depth < k.maxDepth then
      ((m.run.run { s with depth := s.depth + 1 }).1,
        { (m.run.run { s with depth := s.depth + 1 }).2 with
          depth := (m.run.run { s with depth := s.depth + 1 }).2.depth - 1 })
    else (.error (.typeError (.tooDeep k.maxDepth) span), s) := by
  show ((get >>= fun s : Session => _ : Checking _).run s) = _
  rw [run_get_bind]
  split <;> rfl

theorem run_inferVar (name : Ident) : (inferVar name).run.run s =
    match s.scopes.resolve name.text with
    | .error e => (.error (.ofScope e name.span), s)
    | .ok (scope, type) =>
      if s.aliases.contains (scope, name.text) then
        (.error (.typeError (.typeAsValue name.text) name.span), s)
      else if type.instanceName?.isSome then (.ok type, ((noteRead scope name.text).run s).2)
      else (.ok type, s) := by
  show ((match s.scopes.resolve name.text with
    | .error e => throw (.ofScope e name.span)
    | .ok (scope, type) =>
      if s.aliases.contains (scope, name.text) then
        throw (.typeError (.typeAsValue name.text) name.span)
      else do
        if type.instanceName?.isSome then noteRead scope name.text
        return type) : Inferring Ty).run.run s = _
  split
  · rfl
  · split
    · rfl
    · split <;> rfl

theorem run_inferMember_schema (kind : String) (props resources : Table Ty) (field : Ident) :
    (inferMember (.schema kind props resources) field).run.run s =
      match s.resourceOf? kind field.text with
      | some (scope, type) => (.ok type, ((noteRead scope field.text).run s).2)
      | none => (.error (.typeError (.noMember (.schema kind props resources) .inst field.text)
          field.span), s) := by
  show ((match s.resourceOf? kind field.text with
    | some (scope, type) => do
      noteRead scope field.text
      return type
    | none => throw (.typeError (.noMember (.schema kind props resources) .inst field.text)
        field.span)) : Inferring Ty).run.run s = _
  split <;> rfl

theorem member_cases (members : Table Ty) (base : Ty) (kind : MemberKind) (field : Ident) :
    (∃ type, member members base kind field = pure type) ∨
      ∃ d, ¬ IsTooDeep d ∧ member members base kind field = throw d := by
  unfold member
  split
  · exact Or.inl ⟨_, rfl⟩
  · exact Or.inr ⟨_, by nofun, rfl⟩

theorem inferMember_cases (base : Ty) (field : Ident) :
    (∃ kind props resources, base = .schema kind props resources) ∨
      (∃ type, inferMember base field = pure type) ∨
      ∃ d, ¬ IsTooDeep d ∧ inferMember base field = throw d := by
  unfold inferMember
  split
  · exact Or.inr (Or.inl ⟨_, rfl⟩)
  · exact Or.inr (Or.inl ⟨_, rfl⟩)
  · exact Or.inr (member_cases _ _ _ _)
  · exact Or.inr (member_cases _ _ _ _)
  · exact Or.inr (member_cases _ _ _ _)
  · exact Or.inl ⟨_, _, _, rfl⟩
  · exact Or.inr (Or.inr ⟨_, by nofun, rfl⟩)

theorem resourceOf?_eq_some {kind n : String} (h : s.resourceOf? kind n = some (scope, type)) :
    s.scopes.resolve n = .ok (scope, type) ∧ type.kind?.isSome := by
  unfold resourceOf? at h
  split at h
  · next hres =>
    split at h
    · cases h
      exact ⟨hres, rfl⟩
    · cases h
  · cases h

/-- A relation that nesting and reading keep is kept by all of inference. -/
theorem closed_moves {R : Session → Session → Prop} [IsPreorder Session R]
    (hnst : ∀ {α : Type} (span : Span) {m : Inferring α}, Moves R m.run →
      Moves R (nested k span m).run)
    (hread : ∀ {s : Session} {n : String} {scope : ScopeId} {type : Ty},
      s.scopes.resolve n = .ok (scope, type) → type.kind?.isSome →
        R s ((noteRead scope n).run s).2) :
    Closed k fun m => Moves R m.run where
  pure a := Moves.run_pure a
  throw d := Moves.throw d
  bind hm hf := Moves.run_bind hm hf
  nested span _ hm := hnst span hm
  var name s := by
    rw [run_inferVar]
    split
    · exact Std.Refl.refl s
    · next scope type hres =>
      split
      · exact Std.Refl.refl s
      · split
        · next hinst => exact hread hres (Ty.isSome_kind? type ▸ hinst)
        · exact Std.Refl.refl s
  member base field s := by
    rcases inferMember_cases base field with
      ⟨kind, props, resources, rfl⟩ | ⟨type, h⟩ | ⟨d, -, h⟩
    · rw [run_inferMember_schema]
      split
      · next scope type hrsc =>
        obtain ⟨hres, hkind⟩ := resourceOf?_eq_some hrsc
        exact hread hres hkind
      · exact Std.Refl.refl s
    · rw [h]
      exact Std.Refl.refl s
    · rw [h]
      exact Std.Refl.refl s

theorem closed_steady : Closed k fun m => Moves Steady m.run := by
  refine closed_moves (fun span m hm s => ?_) fun {s n scope type} _ _ =>
    (books_noteRead scope n s).steady
  rw [run_nested]
  split
  · obtain ⟨hscs, hals, hdp⟩ := hm { s with depth := s.depth + 1 }
    exact ⟨hscs, hals, by rw [hdp]; rfl⟩
  · exact Std.Refl.refl s

theorem books_infer (e : Expr) (expected : Option Ty) : Moves Books (infer k e expected).run := by
  refine (closed_moves (fun span m hm s => ?_) fun {s n scope type} _ _ =>
    books_noteRead scope n s).infer e expected
  rw [run_nested]
  split
  · obtain ⟨components, bodies, instances, hrun⟩ := hm { s with depth := s.depth + 1 }
    exact ⟨components, bodies, instances, by rw [hrun]; rfl⟩
  · exact Std.Refl.refl s

theorem frame_depth (s : Session) (n : Nat) : Frame s { s with depth := n } :=
  { Frame.refl s with }

theorem closed_advances : Closed k fun m => Moves (Advances p) m.run := by
  refine closed_moves (fun span m hm s => ?_) fun hres hkind => advances_noteRead hres hkind
  rw [run_nested]
  split
  · have hdeeper : Advances p s { s with depth := s.depth + 1 } := .of_frame (frame_depth s _)
    exact (hdeeper.trans (hm _)).trans (.of_frame (frame_depth _ _))
  · exact Std.Refl.refl s

/-! ### What is found does not depend on what was noted -/

/-- Names mean the same in both sessions, and the second is no deeper in an expression. -/
structure Shallower (s t : Session) : Prop where
  scopes : t.scopes = s.scopes
  aliases : t.aliases = s.aliases
  depth_le : t.depth ≤ s.depth

theorem Shallower.refl (s : Session) : Shallower s s := ⟨rfl, rfl, le_rfl⟩

theorem Shallower.trans {u : Session} (h : Shallower s t) (h' : Shallower t u) : Shallower s u :=
  ⟨h'.scopes.trans h.scopes, h'.aliases.trans h.aliases, h'.depth_le.trans h.depth_le⟩

theorem Steady.shallower (h : Steady s t) : Shallower t s :=
  ⟨h.scopes.symm, h.aliases.symm, h.depth.ge⟩

/-- What a check finds is found again where names mean the same. -/
def Repeatable (m : Inferring α) : Prop :=
  ∀ {s t : Session} {a : α}, Shallower s t → (m.run.run s).1 = .ok a → (m.run.run t).1 = .ok a

theorem run_bind_eq_ok {b : β} :
    ((m >>= f).run.run s).1 = .ok b ↔ ∃ a, (m.run.run s).1 = .ok a ∧
      ((f a).run.run (m.run.run s).2).1 = .ok b := by
  show (((m.run >>= ExceptT.bindCont f) : Checking _).run s).1 = _ ↔ _
  rw [run_bind]
  cases (m.run.run s).1 with
  | ok a => simp [ExceptT.bindCont, ExceptT.run]
  | error d => simp [ExceptT.bindCont]

theorem run_bind_snd {a : α} (h : (m.run.run s).1 = .ok a) :
    ((m >>= f).run.run s).2 = ((f a).run.run (m.run.run s).2).2 := by
  show (((m.run >>= ExceptT.bindCont f) : Checking _).run s).2 = _
  rw [run_bind, h]
  rfl

/-- What is inferred once is inferred again, and names keep their meaning. -/
theorem closed_repeatable : Closed k fun m => Moves Steady m.run ∧ Repeatable m where
  pure a := ⟨Moves.run_pure a, fun _ h => h⟩
  throw d := ⟨Moves.throw d, fun _ h => h⟩
  bind {_ _ m f} hm hf := by
    refine ⟨Moves.run_bind hm.1 fun a => (hf a).1, fun {s t b} hst h => ?_⟩
    obtain ⟨a, ha, hb⟩ := run_bind_eq_ok.mp h
    refine run_bind_eq_ok.mpr ⟨a, hm.2 hst ha, (hf a).2 ?_ hb⟩
    exact ((hm.1 s).shallower.trans hst).trans
      ⟨(hm.1 t).scopes, (hm.1 t).aliases, (hm.1 t).depth.le⟩
  nested span m hm := by
    refine ⟨closed_steady.nested span hm.1, fun {s t a} hst h => ?_⟩
    rw [run_nested] at h ⊢
    split at h
    · next hdp =>
      have hdeeper : Shallower { s with depth := s.depth + 1 } { t with depth := t.depth + 1 } :=
        ⟨hst.scopes, hst.aliases, Nat.succ_le_succ hst.depth_le⟩
      rw [if_pos (hst.depth_le.trans_lt hdp)]
      exact hm.2 hdeeper h
    · cases h
  var name := by
    refine ⟨closed_steady.var (k := k) name, fun {s t a} hst h => ?_⟩
    rw [run_inferVar] at h ⊢
    rw [hst.scopes, hst.aliases]
    split at h
    · cases h
    · split at h
      · cases h
      · next halias =>
        rw [if_neg halias]
        split at h
        · next hinst => rw [if_pos hinst]; exact h
        · next hinst => rw [if_neg hinst]; exact h
  member base field := by
    refine ⟨closed_steady.member (k := k) base field, fun {s t a} hst h => ?_⟩
    rcases inferMember_cases base field with
      ⟨kind, props, resources, rfl⟩ | ⟨type, hm⟩ | ⟨d, -, hm⟩
    · have hsame : t.resourceOf? kind field.text = s.resourceOf? kind field.text := by
        rw [resourceOf?, hst.scopes, resourceOf?]
      rw [run_inferMember_schema] at h ⊢
      rw [hsame]
      split at h
      · exact h
      · cases h
    · rw [hm] at h ⊢
      exact h
    · rw [hm] at h ⊢
      exact h

theorem repeatable_infer (e : Expr) (expected : Option Ty) : Repeatable (infer k e expected) :=
  (closed_repeatable.infer e expected).2

theorem steady_infer (e : Expr) (expected : Option Ty) : Moves Steady (infer k e expected).run :=
  closed_steady.infer e expected

theorem advances_infer (e : Expr) (expected : Option Ty) :
    Moves (Advances p) (infer k e expected).run :=
  closed_advances.infer e expected

/-! ### Every part is visited -/

/-- On the way from one session to another the type of an expression was found. -/
def Visits (k : Checker) (p : Program) (s : Session) (e : Expr) (t : Session) : Prop :=
  ∃ (s' : Session) (expected : Option Ty) (type : Ty), Advances p s s' ∧ Shallower s' s ∧
    ((infer k e expected).run.run s').1 = .ok type ∧
    Advances p ((infer k e expected).run.run s').2 t

theorem visits_infer (h : ((infer k e expected).run.run s).1 = .ok type) :
    Visits k p s e ((infer k e expected).run.run s).2 :=
  ⟨s, expected, type, Std.Refl.refl s, Shallower.refl s, h, Std.Refl.refl _⟩

theorem Visits.before {r : Session} (h : Visits k p s e t) (hr : Advances p r s)
    (hs : Shallower s r) : Visits k p r e t := by
  obtain ⟨s', expected, type, hadv, hshallower, hok, hrest⟩ := h
  exact ⟨s', expected, type, hr.trans hadv, hshallower.trans hs, hok, hrest⟩

theorem Visits.after {u : Session} (h : Visits k p s e t) (hu : Advances p t u) :
    Visits k p s e u := by
  obtain ⟨s', expected, type, hadv, hshallower, hok, hrest⟩ := h
  exact ⟨s', expected, type, hadv, hshallower, hok, hrest.trans hu⟩

theorem visits_nested {a : α} (h : ((nested k span m).run.run s).1 = .ok a)
    (hm : ∀ s : Session, (m.run.run s).1 = .ok a → Visits k p s e (m.run.run s).2) :
    Visits k p s e ((nested k span m).run.run s).2 := by
  rw [run_nested] at h ⊢
  split at h
  · next hdp =>
    rw [if_pos hdp]
    have hdeeper : Advances p s { s with depth := s.depth + 1 } := .of_frame (frame_depth s _)
    have hvisits := (hm _ h).before hdeeper ⟨rfl, rfl, Nat.le_succ _⟩
    exact hvisits.after (.of_frame (frame_depth _ _))
  · cases h

theorem visits_bind_left {b : β} (hf : ∀ a, Moves (Advances p) (f a).run)
    (h : ((m >>= f).run.run s).1 = .ok b)
    (hm : ∀ a, (m.run.run s).1 = .ok a → Visits k p s e (m.run.run s).2) :
    Visits k p s e ((m >>= f).run.run s).2 := by
  obtain ⟨a, ha, -⟩ := run_bind_eq_ok.mp h
  rw [run_bind_snd ha]
  exact (hm a ha).after (hf a _)

theorem visits_bind_right {b : β} (hadv : Moves (Advances p) m.run)
    (hstd : Moves Steady m.run) (h : ((m >>= f).run.run s).1 = .ok b)
    (hf : ∀ a (s : Session), ((f a).run.run s).1 = .ok b → Visits k p s e ((f a).run.run s).2) :
    Visits k p s e ((m >>= f).run.run s).2 := by
  obtain ⟨a, ha, hb⟩ := run_bind_eq_ok.mp h
  rw [run_bind_snd ha]
  exact (hf a _ hb).before (hadv s) (hstd s).shallower

theorem visits_items {es : List Expr} {hint : Option Ty} {types : List Ty} (he : e ∈ es)
    (h : ((inferItems k es hint).run.run s).1 = .ok types) :
    Visits k p s e ((inferItems k es hint).run.run s).2 := by
  induction es generalizing s types with
  | nil => exact (not_mem_nil he).elim
  | cons e' es ih =>
    rw [inferItems] at h ⊢
    rcases mem_cons.mp he with rfl | he
    · refine visits_bind_left (fun type => ?_) h fun type hty => visits_infer hty
      exact closed_advances.bind (k := k) (closed_advances.inferItems es hint) fun _ =>
        closed_advances.pure (k := k) _
    · refine visits_bind_right (advances_infer e' hint) (steady_infer e' hint) h fun _ s h => ?_
      refine visits_bind_left (fun _ => closed_advances.pure (k := k) _) h fun types htys => ?_
      exact ih he htys

theorem visits_fields {hints types result : Table Ty} {fields : List ObjectField}
    (he : e ∈ fields.map ObjectField.value)
    (h : ((inferFields k hints types fields).run.run s).1 = .ok result) :
    Visits k p s e ((inferFields k hints types fields).run.run s).2 := by
  induction fields generalizing s types with
  | nil => exact (not_mem_nil he).elim
  | cons field fields ih =>
    obtain ⟨key, value, span⟩ := field
    rw [inferFields] at h ⊢
    split at h
    · cases h
    · next hkey =>
      rw [if_neg hkey]
      rcases mem_cons.mp he with rfl | he
      · exact visits_bind_left (fun _ => closed_advances.graded.inferFields _ _ fields) h
          fun type hty => visits_infer hty
      · exact visits_bind_right (advances_infer value _) (steady_infer value _) h
          fun type s h => ih he h

theorem visits_args {position : Nat} {params : List Ty} {args : List Expr} (he : e ∈ args)
    (hlen : params.length = args.length)
    (h : ((inferArgs k position params args).run.run s).1 = .ok ()) :
    Visits k p s e ((inferArgs k position params args).run.run s).2 := by
  induction args generalizing s position params with
  | nil => exact (not_mem_nil he).elim
  | cons arg args ih =>
    cases params with
    | nil => cases hlen
    | cons param params =>
      rw [inferArgs] at h ⊢
      rcases mem_cons.mp he with rfl | he
      · refine visits_bind_left (fun found => ?_) h fun type hty => visits_infer hty
        split
        · exact closed_advances.inferArgs _ params args
        · exact closed_advances.throw (k := k) _
      · refine visits_bind_right (advances_infer arg _) (steady_infer arg _) h fun found s h => ?_
        split at h
        · next hasg =>
          rw [if_pos hasg]
          exact ih he (Nat.succ.inj hlen) h
        · cases h

theorem advances_type? (op : BinaryOp) (l r : Ty) (span : Span) :
    Moves (Advances p) (match op.type? l r with
      | some type => return type
      | none => throw (.typeError (.wrongOperands op l r) span) : Inferring Ty).run := by
  split
  · exact Moves.run_pure _
  · exact Moves.throw _

theorem visits_binary {lhs rhs : Expr} {op : BinaryOp} (he : e ∈ [lhs, rhs])
    (h : ((infer k (.binary lhs op rhs span) expected).run.run s).1 = .ok type) :
    Visits k p s e ((infer k (.binary lhs op rhs span) expected).run.run s).2 := by
  rw [infer] at h ⊢
  refine visits_nested h fun s h => ?_
  rcases mem_cons.mp he with rfl | he
  · refine visits_bind_left (fun l => ?_) h fun type hty => visits_infer hty
    exact closed_advances.bind (k := k) (closed_advances.infer rhs none) fun r =>
      advances_type? op l r span
  · obtain rfl := mem_singleton.mp he
    refine visits_bind_right (advances_infer lhs none) (steady_infer lhs none) h fun l s h => ?_
    exact visits_bind_left (fun r => advances_type? op l r span) h fun type hty =>
      visits_infer hty

/-- A call finds the types of its callee and of its arguments. -/
theorem visits_call {callee : Expr} {args : List Expr} (he : e ∈ callee :: args)
    (h : ((infer k (.call callee args span) expected).run.run s).1 = .ok type) :
    Visits k p s e ((infer k (.call callee args span) expected).run.run s).2 := by
  rw [infer] at h ⊢
  refine visits_nested h fun s h => ?_
  rcases mem_cons.mp he with rfl | he
  · refine visits_bind_left (fun found => ?_) h fun type hty => visits_infer hty
    split
    · split
      · exact closed_advances.bind (k := k) (closed_advances.inferArgs 1 _ args) fun _ =>
          closed_advances.pure (k := k) _
      · exact closed_advances.throw (k := k) _
    · exact closed_advances.bind (k := k) (closed_advances.inferItems args none) fun _ =>
        closed_advances.pure (k := k) _
    · exact closed_advances.throw (k := k) _
  · -- the arguments come after the callee: those of a function one by one against its parameters
    refine visits_bind_right (advances_infer callee none) (steady_infer callee none) h
      fun found s h => ?_
    split at h
    · next params result =>
      split at h
      · next hlen =>
        rw [if_pos hlen]
        exact visits_bind_left (fun _ => closed_advances.pure (k := k) _) h
          fun _ hargs => visits_args he hlen hargs
      · cases h
    · exact visits_bind_left (fun _ => closed_advances.pure (k := k) _) h
        fun _ hits => visits_items he hits
    · cases h

/-- Finding the type of an expression is finding those of its parts. -/
theorem visits_of_child {e' : Expr} (he : e' ∈ e.children)
    (h : ((infer k e expected).run.run s).1 = .ok type) :
    Visits k p s e' ((infer k e expected).run.run s).2 := by
  cases e with
  | lit value span => exact (not_mem_nil he).elim
  | var name => exact (not_mem_nil he).elim
  | member base field span =>
    obtain rfl := mem_singleton.mp he
    rw [infer] at h ⊢
    refine visits_nested h fun s h => ?_
    exact visits_bind_left (fun base => closed_advances.member (k := k) base field) h
      fun type hty => visits_infer hty
  | array items span =>
    rw [infer] at h ⊢
    refine visits_nested h fun s h => visits_bind_left (fun types => ?_) h
      fun types htys => visits_items he htys
    cases types <;> exact closed_advances.pure (k := k) _
  | object fields span =>
    unfold infer at h ⊢
    refine visits_nested h fun s h => ?_
    exact visits_bind_left (fun _ => closed_advances.pure (k := k) _) h
      fun types htys => visits_fields he htys
  | unary op operand span =>
    obtain rfl := mem_singleton.mp he
    rw [infer] at h ⊢
    refine visits_nested h fun s h => visits_bind_left (fun found => ?_) h
      fun type hty => visits_infer hty
    split
    · exact closed_advances.pure (k := k) _
    · exact closed_advances.throw (k := k) _
  | binary lhs op rhs span => exact visits_binary he h
  | call callee args span => exact visits_call he h
  | paren inner span =>
    obtain rfl := mem_singleton.mp he
    rw [infer] at h ⊢
    exact visits_nested h fun s h => visits_infer h

/-! ### Reading -/

/-- An expression reads a name that a scope declares: the name of an instance, or of a resource as a
member of its schema, in the expression itself or anywhere inside it. -/
inductive Reads (k : Checker) (s : Session) : Expr → ScopeId → String → Prop
  | var {name : Ident} {scope : ScopeId} {type : Ty}
      (h : s.scopes.resolve name.text = .ok (scope, type)) (hkind : type.kind?.isSome) :
      Reads k s (.var name) scope name.text
  | member {base : Expr} {field : Ident} {span : Span} {kind : String}
      {props resources : List (String × Ty)} {scope : ScopeId} {type : Ty}
      (hbase : ((infer k base none).run.run s).1 = .ok (.schema kind props resources))
      (h : s.resourceOf? kind field.text = some (scope, type)) :
      Reads k s (.member base field span) scope field.text
  | inside {e e' : Expr} {scope : ScopeId} {n : String} (he : e' ∈ e.children)
      (h : Reads k s e' scope n) : Reads k s e scope n

theorem noted_nested {a : α} {x : String} (hs : Linking p s)
    (h : ((nested k span m).run.run s).1 = .ok a)
    (hm : ∀ {s' : Session}, Linking p s' → Shallower s' s → (m.run.run s').1 = .ok a →
      (m.run.run s').2.Noted scope x) : ((nested k span m).run.run s).2.Noted scope x := by
  rw [run_nested] at h ⊢
  split at h
  · next hdp =>
    rw [if_pos hdp]
    have hdeeper : Advances p s { s with depth := s.depth + 1 } := .of_frame (frame_depth s _)
    have hnoted := hm (hdeeper.linking hs) ⟨rfl, rfl, Nat.le_succ _⟩ h
    exact hnoted.advances (p := p) (.of_frame (frame_depth _ _))
  · cases h

theorem noted_inferVar {name : Ident} {found : Ty} (hs : Linking p s)
    (hres : s.scopes.resolve name.text = .ok (scope, type)) (hkind : type.kind?.isSome)
    (h : ((inferVar name).run.run s).1 = .ok found) :
    ((inferVar name).run.run s).2.Noted scope (s.scopes.qualify scope name.text) := by
  rw [run_inferVar, hres] at h ⊢
  dsimp only at h ⊢
  split at h
  · cases h
  · next halias =>
    rw [if_neg halias, if_pos (Ty.isSome_kind? type ▸ hkind)]
    exact noted_noteRead hs hres hkind

theorem noted_inferMember {kind : String} {props resources : List (String × Ty)}
    {field : Ident} (hs : Linking p s) (h : s.resourceOf? kind field.text = some (scope, type)) :
    ((inferMember (.schema kind props resources) field).run.run s).2.Noted scope
      (s.scopes.qualify scope field.text) := by
  obtain ⟨hres, hkind⟩ := resourceOf?_eq_some h
  rw [run_inferMember_schema, h]
  exact noted_noteRead hs hres hkind

/-- All that an expression reads is noted when its type is found. -/
theorem noted_infer {n : String} (hread : Reads k s e scope n) (ht : Linking p t)
    (hts : Shallower t s) (h : ((infer k e expected).run.run t).1 = .ok type) :
    ((infer k e expected).run.run t).2.Noted scope (s.scopes.qualify scope n) := by
  induction hread generalizing t expected type with
  | var hres hkind =>
    rw [infer] at h ⊢
    refine noted_nested ht h fun ht' hdeeper h => ?_
    have hscs := (hdeeper.trans hts).scopes
    rw [hscs] at hres ⊢
    exact noted_inferVar ht' hres hkind h
  | @member base field span kind props resources scope resource hbase hrsc =>
    rw [infer] at h ⊢
    refine noted_nested ht h fun {t'} ht' hdeeper h => ?_
    have hshallower := hdeeper.trans hts
    obtain ⟨found, hfound, hmb⟩ := run_bind_eq_ok.mp h
    -- deep inside, the base has the same type as on its own
    have hsame := repeatable_infer base none hshallower hfound
    obtain rfl : Ty.schema kind props resources = found :=
      Except.ok.inj (hbase.symm.trans hsame)
    have hscs : ((infer k base none).run.run t').2.scopes = s.scopes :=
      (steady_infer base none t').scopes.trans hshallower.scopes.symm
    have hrsc' : ((infer k base none).run.run t').2.resourceOf? kind field.text =
        some (scope, resource) := by
      rw [resourceOf?, hscs]
      exact hrsc
    rw [run_bind_snd hfound, ← hscs]
    exact noted_inferMember ((advances_infer base none t').linking ht') hrsc'
  | inside he _ ih =>
    obtain ⟨t', expected', type', hadv, hshallower, hok, hrest⟩ :=
      visits_of_child (p := p) he h
    exact (ih (hadv.linking ht) (hshallower.trans hts) hok).advances hrest

/-! ### How deep inference goes -/

/-- The check looks into expressions up to the height `n` exactly: it comes back to the depth that
it started at, it finds that they are too deep only if the limit is less, and it comes to a result
only if the limit is not. -/
def Exact (k : Checker) (n : Nat) (m : Inferring α) : Prop := ∀ s : Session, s.depth ≤ k.maxDepth →
  (m.run.run s).2.depth = s.depth ∧
  (∀ d, (m.run.run s).1 = .error d → IsTooDeep d → k.maxDepth < s.depth + n) ∧
  ∀ a, (m.run.run s).1 = .ok a → s.depth + n ≤ k.maxDepth

theorem Exact.bind {n n' : Nat} (hm : Exact k n m) (hf : ∀ a, Exact k n' (f a)) :
    Exact k (max n n') (m >>= f) := by
  intro s hs
  obtain ⟨hdp, hdeep, hok⟩ := hm s hs
  rw [show (m >>= f).run.run s = (m.run >>= ExceptT.bindCont f : Checking _).run s from rfl,
    run_bind]
  cases hrun : (m.run.run s).1 with
  | error d =>
    refine ⟨hdp, fun d' hd' hlim => ?_, nofun⟩
    have hlt := hdeep d hrun (Except.error.inj hd' ▸ hlim)
    omega
  | ok a =>
    obtain ⟨hdp', hdeep', hok'⟩ := hf a _ (hdp.trans_le hs)
    rw [hdp] at hdp' hdeep' hok'
    refine ⟨hdp', fun d hd hlim => ?_, fun b hb => ?_⟩
    · have hlt := hdeep' d hd hlim
      omega
    · have hle := hok a hrun
      have hle' := hok' b hb
      omega

theorem Exact.nested {n : Nat} (hm : Exact k n m) (span : Span) :
    Exact k (n + 1) (nested k span m) := by
  intro s hs
  rw [run_nested]
  split
  · next hlt =>
    obtain ⟨hdp, hdeep, hok⟩ := hm { s with depth := s.depth + 1 } hlt
    refine ⟨Nat.sub_eq_of_eq_add hdp, fun d hd hlim => ?_, fun a ha => ?_⟩
    · have hlt := hdeep d hd hlim
      dsimp only at hlt
      omega
    · have hle := hok a ha
      dsimp only at hle
      omega
  · exact ⟨rfl, fun _ _ _ => by omega, nofun⟩

theorem graded_exact : Graded k (Exact k) where
  pure _ _ hs := ⟨rfl, nofun, fun _ _ => hs⟩
  throw _ _ hd _ _ := ⟨rfl, fun _ heq hlim => absurd (Except.error.inj heq ▸ hlim) hd, nofun⟩
  bind := Exact.bind
  nested span _ hm := hm.nested span
  var name s hs := by
    refine ⟨(closed_steady.var (k := k) name s).depth, fun d hd hlim => ?_, fun _ _ => hs⟩
    rw [run_inferVar] at hd
    obtain ⟨limit, span, rfl⟩ := hlim
    split at hd
    · next e _ => cases e <;> cases hd
    · split at hd
      · cases hd
      · split at hd <;> cases hd
  member base field s hs := by
    refine ⟨(closed_steady.member (k := k) base field s).depth, fun d hd hlim => ?_,
      fun _ _ => hs⟩
    rcases inferMember_cases base field with
      ⟨kind, props, resources, rfl⟩ | ⟨type, h⟩ | ⟨d', hd', h⟩
    · rw [run_inferMember_schema] at hd
      obtain ⟨limit, span, rfl⟩ := hlim
      split at hd <;> cases hd
    · rw [h] at hd
      cases hd
    · rw [h] at hd
      exact absurd (Except.error.inj hd ▸ hlim) hd'

/-- **Depth.** From the outermost level, inference finds that an expression is nested too deep only
if it is higher than the limit, and comes to a type only if it is not. However it ends, it is back
at the outermost level. -/
theorem infer_exact {s : Session} (hs : s.depth = 0) (e : Expr) (expected : Option Ty) :
    ((infer k e expected).run.run s).2.depth = 0 ∧
    (∀ limit span, ((infer k e expected).run.run s).1 = .error (.typeError (.tooDeep limit) span) →
      k.maxDepth < e.height) ∧
    ∀ type, ((infer k e expected).run.run s).1 = .ok type → e.height ≤ k.maxDepth := by
  obtain ⟨hdp, hdeep, hok⟩ := graded_exact.infer e expected s (hs ▸ Nat.zero_le k.maxDepth)
  rw [hs, Nat.zero_add] at hdeep hok
  exact ⟨hdp.trans hs, fun limit span hd => hdeep _ hd ⟨limit, span, rfl⟩, hok⟩

/-- `[1, (2), x]`, in which the second element is the highest and the last has no type. -/
private def uneven : Expr :=
  .array [.lit (.int 1) ⟨1, 2⟩, .paren (.lit (.int 2) ⟨5, 6⟩) ⟨4, 7⟩, .var ⟨"x", ⟨9, 10⟩⟩] ⟨0, 11⟩

/-- A limit of two is too low for the second element, and with three the last one is looked at. Both
times the session is back at the outermost level. -/
theorem infer_exact_uneven :
    let run n := (infer ⟨⟨[]⟩, n, true⟩ uneven none).run.run {}
    (run 2).1 = .error (.typeError (.tooDeep 2) ⟨5, 6⟩) ∧ 2 < uneven.height ∧
    (run 3).1 = .error (.notFound "x" ⟨9, 10⟩) ∧ (run 2).2.depth = 0 ∧ (run 3).2.depth = 0 := by
  have hdeep := infer_exact (k := ⟨⟨[]⟩, 2, true⟩) (s := {}) rfl uneven none
  have hlast := infer_exact (k := ⟨⟨[]⟩, 3, true⟩) (s := {}) rfl uneven none
  exact ⟨rfl, hdeep.2.1 2 ⟨5, 6⟩ rfl, rfl, hdeep.1, hlast.1⟩

end Session

end Provision
