import Provision.Proofs.Session.Checking
import Provision.Proofs.Ty.Listing

/-!
# Two runs side by side

Of a check there are often two runs to compare: of programs that differ a little, or from sessions
that do. `Session.Abreast R P m m'` says that the checks `m` and `m'`, started in sessions that `R`
relates, give results that `P` relates and end in sessions that `R` relates.

How far the two runs may be apart is told by `Ty.Slack V D`: which types count as one (`V`), and
which findings (`D`). What `R` has to allow is told by `Session.Tracks`, with one field for each
thing that is read from a session or written to it. Expressions then come to the same
(`Session.Tracks.infer`).
-/

namespace Provision

open List

namespace Ty

variable {V : Ty → Ty → Prop} {D : Diagnostic → Diagnostic → Prop}

/-! ### Types that count as one -/

/-- Two runs may differ in types that `V` relates and in findings that `D` relates. -/
structure Slack (V : Ty → Ty → Prop) (D : Diagnostic → Diagnostic → Prop) : Prop where
  refl : ∀ a, V a a
  like : ∀ {a b}, V a b → a.Like b
  shape : ∀ {a b}, V a b → Shape V a b
  array : ∀ {a b}, V a b → V (.array a) (.array b)
  object : ∀ {fs gs}, Fields V fs gs → V (.object fs) (.object gs)
  function : ∀ {ps qs r t}, Forall₂ V ps qs → V r t → V (.function ps r) (.function qs t)
  ofVariants : ∀ {ts us}, Forall₂ V ts us → V (ofVariants ts) (ofVariants us)
  same : ∀ d, D d d
  /-- Findings that tell of types, and of no cycle. -/
  blame : ∀ {a a' b b'} (f : Ty → Ty → Diagnostic), V a a' → V b b' →
    (∀ x y, (f x y).isCycle = false) → D (f a b) (f a' b')

/-- Two runs may agree in everything. -/
theorem slack_eq : Slack Eq Eq where
  refl _ := rfl
  like h := congrArg listed h
  shape {a b} h := by
    subst h
    cases a with
    | scalar kind => exact .scalar kind
    | array a => exact .array rfl
    | object fs => exact .object (Fields.refl (fun _ => rfl) fs)
    | union vs => exact .union vs vs
    | function ps r => exact .function (forall₂_refl ps) rfl
    | schema name ps rs =>
      exact .schema name (Fields.refl (fun _ => rfl) ps) (Fields.refl (fun _ => rfl) rs).find?
    | resource name owner ps => exact .resource name owner (Fields.refl (fun _ => rfl) ps)
    | component name inst is os ns =>
      exact .component name inst (Fields.refl (fun _ => rfl) is) (Fields.refl (fun _ => rfl) os)
        (forall₂_refl ns)
  array h := congrArg Ty.array h
  object h := by
    have heq : ∀ f g : String × Ty, (f.1 = g.1 ∧ f.2 = g.2) = (f = g) := fun f g =>
      propext Prod.ext_iff.symm
    simp only [Fields, heq, forall₂_eq_eq_eq] at h
    rw [h]
  function h h' := by
    rw [forall₂_eq_eq_eq] at h
    rw [h, h']
  ofVariants h := by
    rw [forall₂_eq_eq_eq] at h
    rw [h]
  same _ := rfl
  blame f h h' _ := by rw [h, h']

theorem slack_like : Slack Like fun d e => d.isCycle = e.isCycle where
  refl _ := rfl
  like := id
  shape := Like.shape
  array h := congrArg Ty.array h
  object h := congrArg Ty.object (listedFields_iff.mpr h)
  function h h' := by rw [Like, listed, listed, listedAll_iff.mpr h, h']
  ofVariants h := like_ofVariants (listedAll_iff.mpr h)
  same _ := rfl
  blame f _ _ h := (h _ _).trans (h _ _).symm

theorem Like.isAnyOr {a b : Ty} (h : a.Like b) (kind : Scalar) :
    a.isAnyOr (.scalar kind) = b.isAnyOr (.scalar kind) := by
  rw [Ty.isAnyOr, Ty.isAnyOr, h.isAny, h.same_scalar]

theorem Like.type? (op : BinaryOp) {l l' r r' : Ty} (hl : l.Like l') (hr : r.Like r') :
    op.type? l r = op.type? l' r' := by
  unfold BinaryOp.type? Ty.isPrintable
  simp only [hl.isAnyOr, hr.isAnyOr, hl.isAny, hr.isAny, hl.same_scalar, hr.same_scalar]

theorem Like.isInstanceOf {a b : Ty} (h : a.Like b) (kind : Option String) :
    Session.isInstanceOf kind a = Session.isInstanceOf kind b := by
  cases h.shape with
  | component _ inst => cases inst <;> rfl
  | _ => rfl

namespace Slack

variable (h : Slack V D)
include h

theorem elem? {x y : Option Ty} (hxy : Option.Rel V x y) :
    Option.Rel V (x.bind Ty.elem?) (y.bind Ty.elem?) := by
  cases hxy with
  | none => exact .none
  | some hab =>
    cases h.shape hab with
    | array elem => exact .some elem
    | _ => exact .none

theorem getD_any {x y : Option Ty} (hxy : Option.Rel V x y) : V (x.getD .any) (y.getD .any) := by
  cases hxy with
  | none => exact h.refl _
  | some hab => exact hab

end Slack

end Ty

/-- Looking up a name gives related types of one scope, or fails for one reason. -/
inductive Scopes.Locates (V : Ty → Ty → Prop) :
    Except ScopeError (ScopeId × Ty) → Except ScopeError (ScopeId × Ty) → Prop
  | ok (scope : ScopeId) {a b : Ty} (h : V a b) : Locates V (.ok (scope, a)) (.ok (scope, b))
  | error (e : ScopeError) : Locates V (.error e) (.error e)

theorem Scopes.locates_eq {x y : Except ScopeError (ScopeId × Ty)} : Locates Eq x y ↔ x = y := by
  constructor
  · rintro (⟨_, rfl⟩ | _)
    · rfl
    · rfl
  · rintro rfl
    cases x with
    | ok found => exact .ok found.1 rfl
    | error e => exact .error e

theorem Ty.rel_eq {x y : Option Ty} : Option.Rel Eq x y ↔ x = y := by
  constructor
  · rintro (⟨rfl⟩ | _)
    · rfl
    · rfl
  · rintro rfl
    cases x with
    | none => exact .none
    | some _ => exact .some rfl

namespace Session

variable {k : Checker} {V : Ty → Ty → Prop} {D : Diagnostic → Diagnostic → Prop}
  {R : Session → Session → Prop} {s t u v : Session}

/-! ### Related runs -/

section Abreast

variable {α β γ δ : Type} {P : α → β → Prop} {Q : γ → δ → Prop}

/-- Both are results that `Q` relates, or both are findings that `D` relates. -/
inductive Agreed (D : Diagnostic → Diagnostic → Prop) (P : α → β → Prop) :
    Except Diagnostic α → Except Diagnostic β → Prop
  | ok {a : α} {b : β} (h : P a b) : Agreed D P (.ok a) (.ok b)
  | error {d e : Diagnostic} (h : D d e) : Agreed D P (.error d) (.error e)

/-- From related sessions two checks come to related results and to related sessions. -/
def Abreast (R : Session → Session → Prop) (P : α → β → Prop) (m : Checking α) (m' : Checking β) :
    Prop :=
  ∀ s t, R s t → P (m.run s).1 (m'.run t).1 ∧ R (m.run s).2 (m'.run t).2

namespace Abreast

theorem pure {a : α} {b : β} (h : P a b) :
    Abreast R P (Pure.pure a : Checking α) (Pure.pure b : Checking β) := fun _ _ hst => ⟨h, hst⟩

/-- Runs stay side by side from one step to the next. -/
theorem bind {m : Checking α} {m' : Checking β} {f : α → Checking γ} {f' : β → Checking δ}
    (hm : Abreast R P m m') (hf : ∀ a b, P a b → Abreast R Q (f a) (f' b)) :
    Abreast R Q (m >>= f) (m' >>= f') := by
  intro s t hst
  obtain ⟨hrt, hst'⟩ := hm s t hst
  exact hf _ _ hrt _ _ hst'

theorem bind_eq {m m' : Checking α} {f : α → Checking γ} {f' : α → Checking δ}
    (hm : Abreast R Eq m m') (hf : ∀ a, Abreast R Q (f a) (f' a)) :
    Abreast R Q (m >>= f) (m' >>= f') :=
  hm.bind fun a _ hab => hab ▸ hf a

theorem get_bind {f : Session → Checking γ} {f' : Session → Checking δ}
    (hf : ∀ s t, R s t → Abreast R Q (f s) (f' t)) : Abreast R Q (get >>= f) (get >>= f') :=
  fun s t hst => hf s t hst s t hst

theorem modify {f f' : Session → Session} (hf : ∀ s t, R s t → R (f s) (f' t)) :
    Abreast R Eq (modify f : Checking Unit) (modify f' : Checking Unit) :=
  fun s t hst => ⟨rfl, hf s t hst⟩

theorem ite {c : Prop} [Decidable c] {m n : Checking α} {m' n' : Checking β}
    (hm : Abreast R P m m') (hn : Abreast R P n n') :
    Abreast R P (if c then m else n) (if c then m' else n') := by
  split
  · exact hm
  · exact hn

theorem run_pure {a : α} {b : β} (h : P a b) :
    Abreast R (Agreed D P) (Pure.pure a : Inferring α).run (Pure.pure b : Inferring β).run :=
  pure (.ok h)

theorem throw {d e : Diagnostic} (h : D d e) :
    Abreast R (Agreed D P) (throw d : Inferring α).run (throw e : Inferring β).run :=
  pure (.error h)

theorem run_bind {m : Inferring α} {m' : Inferring β} {f : α → Inferring γ} {f' : β → Inferring δ}
    (hm : Abreast R (Agreed D P) m.run m'.run)
    (hf : ∀ a b, P a b → Abreast R (Agreed D Q) (f a).run (f' b).run) :
    Abreast R (Agreed D Q) (m >>= f).run (m' >>= f').run := by
  show Abreast R _ (m.run >>= ExceptT.bindCont f) (m'.run >>= ExceptT.bindCont f')
  refine hm.bind fun a b hab => ?_
  cases hab with
  | ok h => exact hf _ _ h
  | error h => exact pure (.error h)

end Abreast

end Abreast

/-! ### What a relation has to allow -/

/-- In related sessions a check of expressions reads the same, up to types that `V` relates, and
what it writes keeps them related. -/
structure Tracks (V : Ty → Ty → Prop) (D : Diagnostic → Diagnostic → Prop)
    (R : Session → Session → Prop) : Prop where
  slack : Ty.Slack V D
  resolve : ∀ {s t}, R s t → ∀ n, Scopes.Locates V (s.scopes.resolve n) (t.scopes.resolve n)
  get? : ∀ {s t}, R s t → ∀ n, Option.Rel V (s.scopes.get? n) (t.scopes.get? n)
  current : ∀ {s t}, R s t → s.scopes.current = t.scopes.current
  length : ∀ {s t}, R s t → s.scopes.all.length = t.scopes.all.length
  qualify : ∀ {s t}, R s t → ∀ scope n, s.scopes.qualify scope n = t.scopes.qualify scope n
  aliases : ∀ {s t}, R s t → ∀ x, s.aliases.contains x = t.aliases.contains x
  isRegistered : ∀ {s t}, R s t → ∀ name, s.isRegistered name = t.isRegistered name
  body : ∀ {s t}, R s t → s.body = t.body
  component : ∀ {s t}, R s t → s.component = t.component
  reader : ∀ {s t}, R s t → s.reader = t.reader
  depth : ∀ {s t}, R s t → s.depth = t.depth
  report : ∀ {d e}, D d e → Abreast R Eq (report d) (report e)
  set : ∀ {s t n a b}, R s t → V a b → s.scopes.get? n = none →
    R { s with scopes := s.scopes.set n a } { t with scopes := t.scopes.set n b }
  within : ∀ {s t}, R s t → ∀ scope, R (s.within scope) (t.within scope)
  inside : ∀ {s t}, R s t → ∀ component scope,
    R (s.inside component scope) (t.inside component scope)
  outside : ∀ {s t u v}, R s t → R u v → R (s.outside u) (t.outside v)
  newChild : ∀ {s t u v}, R s t → R u v → ∀ name,
    R { u with scopes := (s.scopes.newChild name).2 }
      { v with scopes := (t.scopes.newChild name).2 }
  atDepth : ∀ {s t}, R s t → ∀ depth, R { s with depth } { t with depth }
  reading : ∀ {s t}, R s t → ∀ reader, R { s with reader } { t with reader }
  edge : ∀ x y kind scope, Abreast R Eq (modifyGraph (fun g => g.addEdge x y kind) scope)
    (modifyGraph (fun g => g.addEdge x y kind) scope)
  external : ∀ c y, Abreast R Eq
    (modifyComponent c fun i => { i with externals := addOnce i.externals y })
    (modifyComponent c fun i => { i with externals := addOnce i.externals y })
  dependency : ∀ x y, Abreast R Eq (addDependency x y) (addDependency x y)

namespace Tracks

variable (h : Tracks V D R)
include h

theorem qualified (hst : R s t) (n : String) : s.qualified n = t.qualified n := by
  rw [Session.qualified, Session.qualified, h.current hst, h.qualify hst]

theorem boundType (hst : R s t) (name : Ident) : V (s.boundType name) (t.boundType name) :=
  h.slack.getD_any (h.get? hst name.text)

theorem reportProblem (p : Problem) (span : Span) :
    Abreast R Eq (reportProblem p span) (reportProblem p span) :=
  h.report (h.slack.same _)

/-- Both runs bind the name, or both have a finding. -/
theorem declare (name : Ident) {a b : Ty} (hab : V a b) :
    Abreast R Eq (declare name a) (declare name b) := by
  intro s t hst
  rw [run_declare_of_get?, run_declare_of_get?]
  have hget := h.get? hst name.text
  cases hs : s.scopes.get? name.text with
  | none =>
    cases ht : t.scopes.get? name.text with
    | none => exact ⟨rfl, h.set hst hab hs⟩
    | some _ => rw [hs, ht] at hget; cases hget
  | some _ =>
    cases ht : t.scopes.get? name.text with
    | none => rw [hs, ht] at hget; cases hget
    | some _ => exact ⟨rfl, (h.report (h.slack.same _) s t hst).2⟩

section Scopes

variable {α β : Type} {P : α → β → Prop} {m : Checking α} {m' : Checking β}

theorem inScope (scope : ScopeId) (hm : Abreast R P m m') :
    Abreast R P (inScope scope m) (inScope scope m') := by
  intro s t hst
  obtain ⟨hrt, haft⟩ := hm _ _ (h.within hst scope)
  rw [run_inScope, run_inScope, h.current hst]
  exact ⟨hrt, h.within haft _⟩

theorem inBody (comp : String) (scope : ScopeId) (hm : Abreast R P m m') :
    Abreast R P (inBody comp scope m) (inBody comp scope m') := by
  intro s t hst
  obtain ⟨hrt, haft⟩ := hm _ _ (h.inside hst comp scope)
  rw [run_inBody, run_inBody]
  exact ⟨hrt, h.outside hst haft⟩

end Scopes

/-! ### Links -/

theorem noteExternal (scope : ScopeId) (y : String) :
    Abreast R Eq (noteExternal scope y) (noteExternal scope y) := by
  unfold Session.noteExternal
  refine Abreast.ite (Abreast.get_bind fun s t hst => ?_) (Abreast.pure rfl)
  rw [h.component hst]
  cases t.component with
  | none => exact Abreast.pure rfl
  | some comp => exact h.external comp y

theorem depend (x : String) (scope : ScopeId) (y : String) (kind : EdgeKind) :
    Abreast R Eq (depend x scope y kind) (depend x scope y kind) := by
  refine Abreast.get_bind fun s t hst => ?_
  rw [h.body hst]
  exact Abreast.ite ((h.edge x y kind scope).bind_eq fun _ => h.dependency x y)
    ((h.noteExternal scope y).bind_eq fun _ => h.dependency x y)

theorem noteRead (scope : ScopeId) (n : String) :
    Abreast R Eq (noteRead scope n) (noteRead scope n) := by
  refine Abreast.get_bind fun s t hst => ?_
  rw [h.qualify hst, h.reader hst, h.body hst]
  split
  · exact h.depend _ _ _ _
  · exact Abreast.ite (Abreast.pure rfl) (h.noteExternal _ _)

theorem resolveReference (hst : R s t) (r : Reference) :
    Agreed D Eq (s.resolveReference r) (t.resolveReference r) := by
  unfold Session.resolveReference
  cases splitReference r with
  | error d => exact .error (h.slack.same d)
  | ok split =>
    obtain ⟨kind, name⟩ := split
    simp only [bind, Except.bind, h.qualify hst]
    have hfound := h.resolve hst name
    generalize s.scopes.resolve name = x, t.scopes.resolve name = y at hfound ⊢
    cases hfound with
    | error _ => exact .error (h.slack.same _)
    | ok scope hab =>
      dsimp only
      rw [(h.slack.like hab).isInstanceOf]
      split
      · exact .ok rfl
      · exact .error (h.slack.same _)

theorem linkAll (x : String) (refs : List Reference) :
    Abreast R Eq (linkAll x refs) (linkAll x refs) := by
  induction refs with
  | nil => exact Abreast.pure rfl
  | cons r refs ih =>
    unfold Session.linkAll
    refine Abreast.get_bind fun s t hst => ?_
    have hagreed := h.resolveReference hst r
    generalize s.resolveReference r = x, t.resolveReference r = y at hagreed ⊢
    cases hagreed with
    | ok heq =>
      subst heq
      exact (h.depend _ _ _ _).bind_eq fun _ => ih
    | error hde => exact (h.report hde).bind_eq fun _ => ih

/-! ### Expressions -/

theorem nested {α β : Type} {P : α → β → Prop} (span : Span) {m : Inferring α} {m' : Inferring β}
    (hm : Abreast R (Agreed D P) m.run m'.run) :
    Abreast R (Agreed D P) (nested k span m).run (nested k span m').run := by
  intro s t hst
  rw [run_nested, run_nested, h.depth hst]
  split
  · obtain ⟨hrt, haft⟩ := hm _ _ (h.atDepth hst (t.depth + 1))
    rw [h.depth haft]
    exact ⟨hrt, h.atDepth haft _⟩
  · exact ⟨.error (h.slack.same _), hst⟩

theorem inferVar (name : Ident) :
    Abreast R (Agreed D V) (inferVar name).run (inferVar name).run := by
  intro s t hst
  rw [run_inferVar, run_inferVar]
  have hfound := h.resolve hst name.text
  generalize s.scopes.resolve name.text = x, t.scopes.resolve name.text = y at hfound ⊢
  cases hfound with
  | error _ => exact ⟨.error (h.slack.same _), hst⟩
  | ok scope hab =>
    dsimp only
    rw [h.aliases hst, (h.slack.like hab).instanceName?]
    split
    · exact ⟨.error (h.slack.same _), hst⟩
    · split
      · exact ⟨.ok hab, (h.noteRead scope name.text s t hst).2⟩
      · exact ⟨.ok hab, hst⟩

theorem member {fs gs : Table Ty} (hflds : Ty.Fields V fs gs) {a b : Ty} (hab : V a b)
    (kind : MemberKind) (field : Ident) :
    Abreast R (Agreed D V) (member fs a kind field).run (member gs b kind field).run := by
  unfold Session.member
  have hfind := hflds.find? field.text
  generalize Table.find? fs field.text = x, Table.find? gs field.text = y at hfind ⊢
  cases hfind with
  | none =>
    exact Abreast.throw (h.slack.blame
      (fun x _ => .typeError (.noMember x kind field.text) field.span) hab hab fun _ _ => rfl)
  | some hab => exact Abreast.run_pure hab

theorem resourceOf? (hst : R s t) (schema n : String) :
    Option.Rel (fun r r' : ScopeId × Ty => r.1 = r'.1 ∧ V r.2 r'.2) (s.resourceOf? schema n)
      (t.resourceOf? schema n) := by
  unfold Session.resourceOf?
  have hfound := h.resolve hst n
  generalize s.scopes.resolve n = x, t.scopes.resolve n = y at hfound ⊢
  cases hfound with
  | error _ => exact .none
  | ok scope hab =>
    cases h.slack.shape hab with
    | resource name owner _ =>
      dsimp only
      split
      · exact .some ⟨rfl, hab⟩
      · exact .none
    | _ => exact .none

/-- Members of types that count as one do so too. -/
theorem inferMember {a b : Ty} (hab : V a b) (field : Ident) :
    Abreast R (Agreed D V) (inferMember a field).run (inferMember b field).run := by
  have hnone : Abreast R (Agreed D V) (throw (.typeError (.noAccess field.text a) field.span) :
      Inferring Ty).run (throw (.typeError (.noAccess field.text b) field.span) :
        Inferring Ty).run :=
    Abreast.throw (h.slack.blame (fun x _ => .typeError (.noAccess field.text x) field.span) hab hab
      fun _ _ => rfl)
  cases h.slack.shape hab with
  | scalar kind =>
    cases kind with
    | any => exact Abreast.run_pure (h.slack.refl _)
    | _ => exact hnone
  | object fields =>
    cases fields with
    | nil => exact Abreast.run_pure (h.slack.refl _)
    | cons hfst hrest => exact h.member (.cons hfst hrest) hab _ field
  | resource _ _ props => exact h.member props hab _ field
  | component _ inst _ outputs _ =>
    cases inst with
    | none => exact hnone
    | some _ => exact h.member outputs hab _ field
  | schema schema _ _ =>
    intro s t hst
    rw [run_inferMember_schema, run_inferMember_schema]
    have hrsc := h.resourceOf? hst schema field.text
    generalize s.resourceOf? schema field.text = x, t.resourceOf? schema field.text = y
      at hrsc ⊢
    cases hrsc with
    | none =>
      exact ⟨.error (h.slack.blame (fun x _ => .typeError (.noMember x .inst field.text) field.span)
        hab hab fun _ _ => rfl), hst⟩
    | @some r r' hr =>
      obtain ⟨scope, a⟩ := r
      obtain ⟨scope', b⟩ := r'
      obtain ⟨rfl, hab⟩ : scope = scope' ∧ V a b := hr
      exact ⟨.ok hab, (h.noteRead scope field.text s t hst).2⟩
  | array _ => exact hnone
  | union _ _ => exact hnone
  | function _ _ => exact hnone

end Tracks

mutual

/-- In related sessions an expression has related types, or what is found is related. -/
theorem Tracks.infer (h : Tracks V D R) : ∀ (e : Expr) {x y : Option Ty}, Option.Rel V x y →
    Abreast R (Agreed D V) (infer k e x).run (infer k e y).run
  | .lit value span, _, _, _ => by
    rw [Session.infer, Session.infer]
    exact h.nested span (Abreast.run_pure (h.slack.refl _))
  | .var name, _, _, _ => by
    rw [Session.infer, Session.infer]
    exact h.nested _ (h.inferVar name)
  | .paren inner span, _, _, hxy => by
    rw [Session.infer, Session.infer]
    exact h.nested span (h.infer inner hxy)
  | .member base field span, _, _, _ => by
    rw [Session.infer, Session.infer]
    exact h.nested span
      ((h.infer base .none).run_bind fun _ _ hab => h.inferMember hab field)
  | .array items span, x, y, hxy => by
    rw [Session.infer, Session.infer]
    refine h.nested span ?_
    refine (h.inferItems items (h.slack.elem? hxy)).run_bind fun ts us hall => ?_
    cases hall with
    | nil => exact Abreast.run_pure (h.slack.array (h.slack.getD_any (h.slack.elem? hxy)))
    | cons hfst hrest =>
      exact Abreast.run_pure (h.slack.array (h.slack.ofVariants (.cons hfst hrest)))
  | .object fields span, x, y, hxy => by
    unfold Session.infer
    refine h.nested span ((h.inferFields fields ?_ .nil).run_bind
      fun fs gs hflds => Abreast.run_pure (h.slack.object hflds))
    -- an object is expected on both sides or on none
    cases hxy with
    | none => exact .nil
    | some hab =>
      cases h.slack.shape hab with
      | object fields => exact fields
      | _ => exact .nil
  | .unary op operand span, _, _, _ => by
    rw [Session.infer, Session.infer]
    refine h.nested span ((h.infer operand .none).run_bind fun a b hab => ?_)
    have hop : a.isAnyOr op.type = b.isAnyOr op.type := by
      cases op <;> exact (h.slack.like hab).isAnyOr _
    rw [hop]
    split
    · exact Abreast.run_pure (h.slack.refl _)
    · exact Abreast.throw (h.slack.blame
        (fun x _ => .typeError (.wrongOperand op op.type x) span) hab hab fun _ _ => rfl)
  | .binary lhs op rhs span, _, _, _ => by
    rw [Session.infer, Session.infer]
    refine h.nested span ((h.infer lhs .none).run_bind fun l l' hl =>
      (h.infer rhs .none).run_bind fun r r' hr => ?_)
    rw [(h.slack.like hl).type? op (h.slack.like hr)]
    split
    · exact Abreast.run_pure (h.slack.refl _)
    · exact Abreast.throw (h.slack.blame
        (fun x y => .typeError (.wrongOperands op x y) span) hl hr fun _ _ => rfl)
  | .call callee args span, _, _, _ => by
    rw [Session.infer, Session.infer]
    refine h.nested span ((h.infer callee .none).run_bind fun a b hab => ?_)
    have hnone : Abreast R (Agreed D V) (throw (.typeError (.notCallable a) span) :
        Inferring Ty).run (throw (.typeError (.notCallable b) span) : Inferring Ty).run :=
      Abreast.throw (h.slack.blame (fun x _ => .typeError (.notCallable x) span) hab hab
        fun _ _ => rfl)
    cases h.slack.shape hab with
    | function params result =>
      dsimp only
      rw [params.length_eq]
      split
      · exact (h.inferArgs 1 args params).run_bind fun _ _ _ => Abreast.run_pure result
      · exact Abreast.throw (h.slack.same _)
    | scalar kind =>
      cases kind with
      | any =>
        exact (h.inferItems args .none).run_bind fun _ _ _ => Abreast.run_pure (h.slack.refl _)
      | _ => exact hnone
    | _ => exact hnone

theorem Tracks.inferItems (h : Tracks V D R) : ∀ (es : List Expr) {x y : Option Ty},
    Option.Rel V x y →
    Abreast R (Agreed D (Forall₂ V)) (inferItems k es x).run (inferItems k es y).run
  | [], _, _, _ => by
    rw [Session.inferItems, Session.inferItems]
    exact Abreast.run_pure .nil
  | e :: es, _, _, hxy => by
    rw [Session.inferItems, Session.inferItems]
    exact (h.infer e hxy).run_bind fun _ _ hab =>
      (h.inferItems es hxy).run_bind fun _ _ hall => Abreast.run_pure (.cons hab hall)

theorem Tracks.inferFields (h : Tracks V D R) : ∀ (fields : List ObjectField)
    {hints hints' types types' : Table Ty}, Ty.Fields V hints hints' → Ty.Fields V types types' →
    Abreast R (Agreed D (Ty.Fields V)) (inferFields k hints types fields).run
      (inferFields k hints' types' fields).run
  | [], _, _, _, _, _, htys => by
    rw [Session.inferFields, Session.inferFields]
    exact Abreast.run_pure htys
  | .mk key value _ :: fields, _, _, _, _, hhints, htys => by
    rw [Session.inferFields, Session.inferFields, htys.contains]
    split
    · exact Abreast.throw (h.slack.same _)
    · exact (h.infer value (hhints.find? key.text)).run_bind fun _ _ hab =>
        h.inferFields fields hhints (htys.insert key.text hab)

theorem Tracks.inferArgs (h : Tracks V D R) : ∀ (position : Nat) (args : List Expr)
    {ps qs : List Ty}, Forall₂ V ps qs →
    Abreast R (Agreed D Eq) (inferArgs k position ps args).run (inferArgs k position qs args).run
  | position, arg :: args, p :: ps, q :: qs, .cons hp hps => by
    rw [Session.inferArgs, Session.inferArgs]
    refine (h.infer arg (.some hp)).run_bind fun a b hab => ?_
    rw [(h.slack.like hab).assignable (h.slack.like hp)]
    split
    · exact h.inferArgs _ args hps
    · exact Abreast.throw (h.slack.blame
        (fun x y => .typeError (.wrongCallArgument position x y) arg.span) hp hab fun _ _ => rfl)
  | _, [], p :: ps, q :: qs, _ => by
    rw [Session.inferArgs, Session.inferArgs]
    · exact Abreast.run_pure rfl
    · exact nofun
    · exact nofun
  | _, _, [], [], _ => by
    rw [Session.inferArgs]
    · exact Abreast.run_pure rfl
    · exact nofun

end

end Session

end Provision
