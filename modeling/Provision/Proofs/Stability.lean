import Provision.Proofs.Checker
import Provision.Proofs.Session.Visits

/-!
# What the check of declarations leaves alone

After registration names can be used before their declaration, since the check of declarations does
not bind them anew. `Session.Frozen` says what it does to scopes: a name keeps its type, except that
a function without a written result may get another result, and only variables without a written
type are added to the scopes that are there. It holds of the whole pass and of the check of every
declaration that the pass comes to (`Checker.frozen_while_checking`).

Every check ends where it began, with or without findings: in the same scope and body, reading for
the same instance, as deep in an expression (`Session.Returns`).
-/

namespace Provision

open Table

variable {c : Option String}

/-- A body declares something: the top level one of its items, a component one of its members,
wherever the component itself stands. -/
inductive Program.Holds (p : Program) : Option String → Decl → Prop
  | item {d : Decl} (h : d ∈ p.items) : p.Holds none d
  | member {c : Option String} {decs : List Decoration} {name : Ident} {body : List Decl}
      {span : Span} {d : Decl} (h : p.Holds c (.component decs name body span))
      (hd : d ∈ body) : p.Holds (some name.text) d

namespace Session

variable {k : Checker} {p : Program} {r s t u : Session} {F V : ScopeId → String → Prop}

/-! ### Where a check is -/

/-- The check is in the same scope and body, reads for the same instance, and is as deep in an
expression. -/
structure Returns (s t : Session) : Prop where
  current : t.scopes.current = s.scopes.current
  body : t.body = s.body
  reader : t.reader = s.reader
  depth : t.depth = s.depth

instance : IsPreorder Session Returns where
  refl _ := ⟨rfl, rfl, rfl, rfl⟩
  trans _ _ _ h h' := ⟨h'.current.trans h.current, h'.body.trans h.body, h'.reader.trans h.reader,
    h'.depth.trans h.depth⟩

/-- Scopes, what is registered and where components have their bodies are the same. -/
structure Still (s t : Session) : Prop extends Returns s t where
  scopes : t.scopes = s.scopes
  registered : t.registered = s.registered
  home : ∀ n,
    (find? t.components n).map (·.scope) = (find? s.components n).map (·.scope)

instance : IsPreorder Session Still where
  refl _ := ⟨⟨rfl, rfl, rfl, rfl⟩, rfl, rfl, fun _ => rfl⟩
  trans _ _ _ h h' := ⟨IsTrans.trans _ _ _ h.toReturns h'.toReturns, h'.scopes.trans h.scopes,
    h'.registered.trans h.registered, fun n => (h'.home n).trans (h.home n)⟩

theorem still_report (d : Diagnostic) : Moves Still (report d) :=
  fun _ => ⟨⟨rfl, rfl, rfl, rfl⟩, rfl, rfl, fun _ => rfl⟩

theorem still_modifyComponent (name : String) {f : ComponentInfo → ComponentInfo}
    (hf : ∀ i, (f i).scope = i.scope) : Moves Still (modifyComponent name f) := by
  refine fun s => ⟨⟨rfl, rfl, rfl, rfl⟩, rfl, rfl, fun n => ?_⟩
  rw [find?_modifyComponent]
  split
  · rw [Option.map_map]
    exact congrArg (Option.map · _) (funext hf)
  · rfl

theorem noting_still : Noting Still where
  edge _ _ _ _ _ := ⟨⟨rfl, rfl, rfl, rfl⟩, rfl, rfl, fun _ => rfl⟩
  external c ys := still_modifyComponent c
    (f := fun i => { i with externals := ys.foldl addOnce i.externals }) fun _ => rfl
  dependency _ _ _ := ⟨⟨rfl, rfl, rfl, rfl⟩, rfl, rfl, fun _ => rfl⟩

theorem still_infer (e : Expr) (expected : Option Ty) : Moves Still (infer k e expected).run := by
  refine (closed_moves (R := Still) (fun {_} span {m} hm s => ?_) fun _ _ =>
    noting_still.noteRead _ _ _).infer e expected
  rw [run_nested]
  split
  · -- one level down and up again
    have hdeeper := hm { s with depth := s.depth + 1 }
    exact ⟨⟨hdeeper.current, hdeeper.body, hdeeper.reader, Nat.sub_eq_of_eq_add hdeeper.depth⟩,
      hdeeper.scopes, hdeeper.registered, hdeeper.home⟩
  · exact Std.Refl.refl s

theorem still_runDecorators (ds : List Decoration) (site : Site) (type : Ty)
    (value : Option Expr) : Moves Still (runDecorators k ds site type value) :=
  moves_runDecorators still_report
    (fun _ _ _ _ _ => ⟨⟨rfl, rfl, rfl, rfl⟩, rfl, rfl, fun _ => rfl⟩) ds site type value

theorem still_recordDecorations (x : String) (ds : List Decoration) :
    Moves Still (recordDecorations x ds) :=
  fun _ => ⟨⟨rfl, rfl, rfl, rfl⟩, rfl, rfl, fun _ => rfl⟩

theorem traversed_returns : Traversed k Returns where
  report d s := (still_report d s).toReturns
  infer e expected s := (still_infer e expected s).toReturns
  runDecorators ds site type value s := (still_runDecorators ds site type value s).toReturns
  depend x scope y kind s := (noting_still.depend x scope y kind s).toReturns
  record x ds s := (still_recordDecorations x ds s).toReturns
  declare name _ s := of_declare (P := Returns s) name (fun _ => ⟨rfl, rfl, rfl, rfl⟩)
    fun _ => ⟨rfl, rfl, rfl, rfl⟩
  readingFor x _ hm s :=
    ⟨(hm (s.readingFor x)).current, (hm (s.readingFor x)).body, rfl, (hm (s.readingFor x)).depth⟩
  inChild hm s := ⟨rfl, (hm s.inChild).body, (hm s.inChild).reader, (hm s.inChild).depth⟩
  refine _ _ := ⟨rfl, rfl, rfl, rfl⟩
  inBody comp scope _ hm s :=
    ⟨rfl, rfl, (hm (s.inside comp scope)).reader, (hm (s.inside comp scope)).depth⟩

/-- The checks that the pass over declarations is made of. -/
inductive Check (k : Checker) : Checking Unit → Prop
  | decls (ds : List Decl) : Check k (checkDecls k ds)
  | decl (d : Decl) : Check k (checkDecl k d)
  | schema (d : SchemaDecl) : Check k (checkSchema k d)
  | resource (d : ResourceDecl) : Check k (checkResource k d)
  | inst (d : InstanceDecl) : Check k (checkInstance k d)
  | inits (x : String) (holder : Holder) (span : Span) (fields : Table Ty) (required : List String)
      (inits : List Init) : Check k (checkInits k x holder span fields required inits)
  | input (d : InputDecl) : Check k (checkInput k d)
  | output (d : OutputDecl) : Check k (checkOutput k d)
  | var (d : VarDecl) : Check k (checkVariable k d)
  | function (d : FunDecl) : Check k (checkFunction k d)
  | alias (d : AliasDecl) : Check k (checkAlias d)
  | value (subject : Subject) (type : Ty) (e : Expr) : Check k (checkValue k subject type e)

theorem Traversed.check {R : Session → Session → Prop} [IsPreorder Session R] (h : Traversed k R)
    {m : Checking Unit} (hm : Check k m) : Moves R m := by
  cases hm with
  | decls ds => exact h.checkDecls ds
  | decl d => exact h.checkDecl d
  | schema d => exact h.checkSchema d
  | resource d => exact h.toInstanced.checkResource h.toRespected d
  | inst d => exact h.toInstanced.checkInstance h.toRespected d
  | inits => exact h.toInstanced.checkInits _ _ _ _ _ _
  | input d => exact h.checkInput d
  | output d => exact h.checkOutput d
  | var d => exact h.checkVariable d
  | function d => exact h.checkFunction d
  | «alias» d => exact h.checkAlias d
  | value => exact h.checkValue _ _ _

/-! ### What stays bound -/

/-- Names keep their types, except that functions among `F` may get other results, and the scopes
that are there get no names but those among `V`. -/
structure Frozen (F V : ScopeId → String → Prop) (s t : Session) : Prop extends Returns s t where
  length_le : s.scopes.all.length ≤ t.scopes.all.length
  bound : ∀ {scope n type}, find? (s.scopes.bindings scope) n = some type →
    find? (t.scopes.bindings scope) n = some type ∨
      F scope n ∧ ∃ params result result', type = .function params result ∧
        find? (t.scopes.bindings scope) n = some (.function params result')
  added : ∀ {scope n}, scope < s.scopes.all.length →
    find? (s.scopes.bindings scope) n = none →
    (find? (t.scopes.bindings scope) n).isSome → V scope n
  registered : t.registered = s.registered
  home : ∀ n,
    (find? t.components n).map (·.scope) = (find? s.components n).map (·.scope)

instance : IsPreorder Session (Frozen F V) where
  refl s := by
    refine ⟨⟨rfl, rfl, rfl, rfl⟩, le_rfl, fun h => Or.inl h, fun _ hnone hsome => ?_, rfl,
      fun _ => rfl⟩
    rw [hnone] at hsome
    cases hsome
  trans s t u h h' := by
    refine ⟨IsTrans.trans _ _ _ h.toReturns h'.toReturns, h.length_le.trans h'.length_le,
      fun {scope n type} hbd => ?_, fun {scope n} hlt hnone hsome => ?_,
      h'.registered.trans h.registered, fun n => (h'.home n).trans (h.home n)⟩
    · rcases h.bound hbd with hsame | ⟨hF, params, result, result', rfl, hfun⟩
      · exact h'.bound hsame
      · refine Or.inr ⟨hF, params, result, ?_⟩
        rcases h'.bound hfun with hsame | ⟨-, params', _, result'', heq, hfun'⟩
        · exact ⟨result', rfl, hsame⟩
        · obtain ⟨rfl, rfl⟩ := Ty.function.inj heq
          exact ⟨result'', rfl, hfun'⟩
    · cases hmiddle : find? (t.scopes.bindings scope) n with
      | none => exact h'.added (hlt.trans_le h.length_le) hmiddle hsome
      | some type => exact h.added hlt hnone (by rw [hmiddle]; rfl)

theorem Frozen.trans (h : Frozen F V s t) (h' : Frozen F V t u) : Frozen F V s u :=
  IsTrans.trans _ _ _ h h'

theorem Still.frozen (h : Still s t) : Frozen F V s t where
  toReturns := h.toReturns
  length_le := by rw [h.scopes]
  bound hbd := Or.inl (by rw [h.scopes]; exact hbd)
  added _ hnone hsome := by
    rw [h.scopes, hnone] at hsome
    cases hsome
  registered := h.registered
  home := h.home

theorem frozen_declare {name : Ident} (type : Ty) (hV : V s.scopes.current name.text) :
    Frozen F V s ((declare name type).run s).2 := by
  refine of_declare (P := Frozen F V s) name (fun hunb => ?_) fun d => (still_report d s).frozen
  have hfind : ∀ scope n,
      find? ((s.scopes.set name.text type).bindings scope) n =
        if scope = s.scopes.current ∧ scope < s.scopes.all.length ∧ n = name.text then some type
        else find? (s.scopes.bindings scope) n := fun _ _ => Scopes.find?_bindings_set
  refine ⟨⟨rfl, rfl, rfl, rfl⟩, Scopes.length_modifyBindings.ge, fun {scope n type'} hbd => ?_,
    fun {scope n} _ hnone hsome => ?_, rfl, fun _ => rfl⟩
  · refine Or.inl ((hfind scope n).trans ?_)
    rw [if_neg, hbd]
    rintro ⟨rfl, -, rfl⟩
    rw [hunb] at hbd
    cases hbd
  · have hsome : (find? ((s.scopes.set name.text type).bindings scope) n).isSome := hsome
    rw [hfind] at hsome
    split at hsome
    · next hnew => rw [hnew.1, hnew.2.2]; exact hV
    · rw [hnone] at hsome
      cases hsome

/-- A function that is refined keeps its parameters. -/
theorem frozen_setResult {name : String} {params : List Ty} {result body : Ty}
    (hbd : find? (s.scopes.bindings s.scopes.current) name =
      some (.function params result)) (hF : F s.scopes.current name) :
    Frozen F V s { s with scopes := s.scopes.set name (.function params body) } := by
  have hfind : ∀ scope n,
      find? ((s.scopes.set name (.function params body)).bindings scope) n =
        if scope = s.scopes.current ∧ scope < s.scopes.all.length ∧ n = name then
          some (.function params body)
        else find? (s.scopes.bindings scope) n := fun _ _ => Scopes.find?_bindings_set
  refine ⟨⟨rfl, rfl, rfl, rfl⟩, Scopes.length_modifyBindings.ge, fun {scope n type} hty => ?_,
    fun {scope n} _ hnone hsome => ?_, rfl, fun _ => rfl⟩
  · by_cases hnew : scope = s.scopes.current ∧ scope < s.scopes.all.length ∧ n = name
    · obtain ⟨rfl, -, rfl⟩ := id hnew
      obtain rfl := Option.some.inj (hty.symm.trans hbd)
      exact Or.inr ⟨hF, params, result, body, rfl, (hfind _ _).trans (if_pos hnew)⟩
    · exact Or.inl (((hfind scope n).trans (if_neg hnew)).trans hty)
  · have hsome : (find? ((s.scopes.set name (.function params body)).bindings scope)
        n).isSome := hsome
    rw [hfind] at hsome
    split at hsome
    · next hnew =>
      rw [hnew.1, hnew.2.2, hbd] at hnone
      cases hnone
    · rw [hnone] at hsome
      cases hsome

theorem Frozen.outOfChild (h : Frozen F (fun scope _ => scope = s.scopes.all.length) s.inChild t) :
    Frozen F V s (t.within s.scopes.current) := by
  have hlen : s.inChild.scopes.all.length = s.scopes.all.length + 1 :=
    List.length_append
  have hbs : ∀ scope, s.inChild.scopes.bindings scope = s.scopes.bindings scope :=
    fun _ => Scopes.bindings_newChild
  refine ⟨⟨rfl, h.body, h.reader, h.depth⟩, ?_, fun {scope n type} hbd => ?_,
    fun {scope n} hlt hnone hsome => ?_, h.registered, h.home⟩
  · have hle := h.length_le
    rw [hlen] at hle
    exact (Nat.le_succ _).trans hle
  · exact h.bound ((congrArg (find? · n) (hbs scope)).trans hbd)
  · have hch : scope = s.scopes.all.length := h.added (hlen ▸ hlt.trans (Nat.lt_succ_self _))
      ((congrArg (find? · n) (hbs scope)).trans hnone) hsome
    exact absurd hch hlt.ne

theorem instanced_frozen : Instanced k (Frozen F V) where
  report d s := (still_report d s).frozen
  infer e expected s := (still_infer e expected s).frozen
  depend x scope y kind s := (noting_still.depend x scope y kind s).frozen
  record x ds s := (still_recordDecorations x ds s).frozen
  readingFor x _ hm s :=
    have h := hm (s.readingFor x)
    ⟨⟨h.current, h.body, rfl, h.depth⟩, h.length_le, h.bound, h.added, h.registered, h.home⟩

theorem respected_frozen : Respected k (Frozen F V) where
  toValued := instanced_frozen.toValued
  runDecorators ds site type value s := (still_runDecorators ds site type value s).frozen

/-! ### Variables and functions -/

theorem frozen_variableType? {d : VarDecl} (hV : d.type = none → V s.scopes.current d.name.text) :
    Frozen F V s ((variableType? k d).run s).2 := by
  cases hty : d.type with
  | some e =>
    unfold variableType?
    rw [hty]
    refine Moves.get_bind (R := Frozen F V) (fun s => ?_) s
    split
    · exact Moves.bind (instanced_frozen.checkValue _ _ _) (fun _ => Moves.pure _) s
    · exact Std.Refl.refl s
  | none =>
    rw [run_variableType?_none hty]
    have hval : Frozen F V s ((inferred? k d.value).run s).2 :=
      instanced_frozen.inferred? d.value s
    exact hval.trans (frozen_declare _ (hval.current ▸ hV hty))

theorem frozen_checkVariable {d : VarDecl} (hV : d.type = none → V s.scopes.current d.name.text) :
    Frozen F V s ((checkVariable k d).run s).2 := by
  unfold checkVariable
  rw [run_bind]
  refine (frozen_variableType? (k := k) hV).trans ?_
  split
  · exact respected_frozen.runDecorators _ _ _ _ _
  · exact Std.Refl.refl _

theorem frozen_declareParams (ps : List Param) (types : List Ty)
    (hV : ∀ n, V s.scopes.current n) : Frozen F V s ((declareParams ps types).run s).2 := by
  induction ps generalizing s types with
  | nil => cases types <;> exact Std.Refl.refl s
  | cons q ps ih =>
    cases types with
    | nil => exact Std.Refl.refl s
    | cons type types =>
      have hfst : Frozen F V s ((declare q.name type).run s).2 := frozen_declare type (hV _)
      exact hfst.trans (ih types fun n => hfst.current.symm ▸ hV n)

theorem frozen_bodyType? (d : FunDecl) (params : List Ty) (result : Ty) :
    Moves (Frozen F V) (bodyType? k d params result) := by
  intro s
  rw [run_bodyType?]
  have hps : Frozen F (fun scope _ => scope = s.scopes.all.length) s.inChild
      (s.withParams d.params params) := frozen_declareParams d.params params fun _ => rfl
  exact (hps.trans (instanced_frozen.checkBody _)).outOfChild

/-- Nothing but the result of a function is found out with it. -/
theorem frozen_checkFunction {d : FunDecl}
    (hF : d.result = none → F s.scopes.current d.name.text) :
    Frozen F V s ((checkFunction k d).run s).2 := by
  unfold checkFunction
  rw [run_get_bind]
  rw [run_bind]
  have hdecs : Frozen F V s ((runDecorators k d.decorations ⟨.function, d.name.text, false⟩
      (s.boundType d.name) none).run s).2 := respected_frozen.runDecorators _ _ _ _ s
  cases hty : s.boundType d.name with
  | function params result =>
    rw [hty] at hdecs
    rw [run_bind]
    have hbody := hdecs.trans (frozen_bodyType? (k := k) d params result _)
    split
    · next body hsome =>
      have hrt : d.result = none := by
        cases hrt : d.result with
        | none => rfl
        | some e => rw [bodyType?, hrt] at hsome; cases hsome
      have hbd : find? (s.scopes.bindings s.scopes.current) d.name.text =
          some (.function params result) := by
        rw [boundType] at hty
        cases hget : s.scopes.get? d.name.text with
        | none => rw [hget] at hty; cases hty
        | some type => rw [hget] at hty; rw [← hty]; exact hget
      -- the function is still bound, with these parameters
      have hlater : ∃ result', find? (((bodyType? k d params result).run
          ((runDecorators k d.decorations ⟨.function, d.name.text, false⟩
            (.function params result) none).run s).2).2.scopes.bindings s.scopes.current)
          d.name.text = some (.function params result') := by
        rcases hbody.bound hbd with hsame | ⟨-, params', _, result', heq, hfun⟩
        · exact ⟨result, hsame⟩
        · obtain ⟨rfl, -⟩ := Ty.function.inj heq
          exact ⟨result', hfun⟩
      obtain ⟨result', hlater⟩ := hlater
      rw [← hbody.current] at hlater
      exact hbody.trans (frozen_setResult hlater (hbody.current.symm ▸ hF hrt))
    · exact hbody
  | _ =>
    rw [hty] at hdecs
    exact hdecs

/-! ### The pass -/

/-- A scope is that of a body in which a function of the given name without a written result was
registered. -/
def Refinable (p : Program) (r : Session) (scope : ScopeId) (n : String) : Prop :=
  ∃ c d, r.BodyAt scope c ∧ p.Holds c (.function d) ∧ d.result = none ∧ r.isRegistered d.name ∧
    d.name.text = n

/-- A scope is that of a body that declares a variable of the given name without a written type. -/
def Pending (p : Program) (r : Session) (scope : ScopeId) (n : String) : Prop :=
  ∃ c d, r.BodyAt scope c ∧ p.Holds c (.var d) ∧ d.type = none ∧ d.name.text = n

/-- The pass that began in `r` is in the body of `c`. -/
structure Passing (r s : Session) (c : Option String) : Prop where
  bodyAt : r.BodyAt s.scopes.current c
  registered : s.registered = r.registered
  home : ∀ {n i}, find? s.components n = some i → r.BodyAt i.scope (some n)

theorem Passing.frozen (h : Passing r s c) (hf : Frozen F V s t) : Passing r t c where
  bodyAt := hf.current.symm ▸ h.bodyAt
  registered := hf.registered.trans h.registered
  home {n i} hi := by
    have hhome := hf.home n
    rw [hi, Option.map_some] at hhome
    obtain ⟨i', hi', hsc⟩ := Option.map_eq_some_iff.mp hhome.symm
    exact hsc ▸ h.home hi'

theorem Passing.atStart (h : Passing r s c) (decs : List Decoration) {name : Ident}
    {info : ComponentInfo} (hinfo : find? s.components name.text = some info) :
    Passing r (s.atStart k decs name info.scope) (some name.text) := by
  have hstill : Still s ((runDecorators k decs ⟨.component, name.text, true⟩
    (s.boundType name) none).run s).2 := still_runDecorators _ _ _ _ s
  have hlater := h.frozen (F := fun _ _ => False) (V := fun _ _ => False) hstill.frozen
  exact ⟨h.home hinfo, hlater.registered, hlater.home⟩

mutual

/-- The check of a declaration binds and refines nothing but what it may. -/
theorem frozen_checkDecl : ∀ (d : Decl) {s : Session} {c : Option String}, Passing r s c →
    p.Holds c d → Frozen (Refinable p r) (Pending p r) s ((checkDecl k d).run s).2
  | .schema d, s, _, _, _ => by
    rw [checkDecl]
    exact moves_ifRegistered d.name (respected_frozen.checkSchema d) s
  | .resource d, s, _, _, _ =>
    instanced_frozen.checkDecl respected_frozen (d := .resource d) rfl s
  | .component decs name body span, s, c, hs, hd => by
    by_cases hreg : s.isRegistered name
    · cases hinfo : find? s.components name.text with
      | none =>
        rw [checkDecl, run_ifRegistered name hreg, run_get_bind]
        rw [run_bind, hinfo]
        exact respected_frozen.runDecorators _ _ _ _ s
      | some info =>
        rw [run_checkDecl_component hreg hinfo]
        have hbody := frozen_checkDecls body (hs.atStart (k := k) decs hinfo)
          fun e he => .member hd he
        have hdecs : Frozen (Refinable p r) (Pending p r) s ((runDecorators k decs
          ⟨.component, name.text, true⟩ (s.boundType name) none).run s).2 :=
            respected_frozen.runDecorators _ _ _ _ s
        refine hdecs.trans ?_
        exact ⟨⟨rfl, rfl, hbody.reader, hbody.depth⟩, hbody.length_le, hbody.bound, hbody.added,
          hbody.registered, hbody.home⟩
    · rw [checkDecl]
      unfold ifRegistered
      rw [run_get_bind]
      rw [if_neg hreg]
      exact Std.Refl.refl s
  | .inst d, s, _, _, _ => instanced_frozen.checkDecl respected_frozen (d := .inst d) rfl s
  | .input d, s, _, _, _ => by
    rw [checkDecl]
    exact moves_ifRegistered d.name (respected_frozen.checkInput d) s
  | .output d, s, _, _, _ => by
    rw [checkDecl]
    exact moves_ifRegistered d.name (respected_frozen.checkOutput d) s
  | .var d, s, c, hs, hd => by
    rw [checkDecl]
    exact frozen_checkVariable fun hty => ⟨c, d, hs.bodyAt, hd, hty, rfl⟩
  | .function d, s, c, hs, hd => by
    rw [checkDecl]
    unfold ifRegistered
    rw [run_get_bind]
    split
    · next hreg =>
      refine frozen_checkFunction fun hrt => ⟨c, d, hs.bodyAt, hd, hrt, ?_, rfl⟩
      rw [isRegistered, ← hs.registered]
      exact hreg
    · exact Std.Refl.refl s
  | .alias d, s, _, _, _ => by
    rw [checkDecl]
    exact (respected_frozen (k := k)).checkAlias d s

theorem frozen_checkDecls : ∀ (ds : List Decl) {s : Session} {c : Option String}, Passing r s c →
    (∀ d ∈ ds, p.Holds c d) → Frozen (Refinable p r) (Pending p r) s ((checkDecls k ds).run s).2
  | [], s, _, _, _ => by
    rw [checkDecls]
    exact Std.Refl.refl s
  | d :: ds, s, c, hs, hds => by
    rw [run_checkDecls_cons]
    have hfst := frozen_checkDecl d hs (hds d List.mem_cons_self)
    exact hfst.trans
      (frozen_checkDecls ds (hs.frozen hfst) fun e he => hds e (List.mem_cons_of_mem d he))

end

theorem Reaches.passing {d e : Decl} (h : Reaches k d s e u)
    (hs : Passing r s c) (hd : p.Holds c d) : ∃ c', Passing r u c' ∧ p.Holds c' e := by
  induction h generalizing c with
  | here => exact ⟨c, hs, hd⟩
  | @inside decs _ _ _ _ _ _ _ _ _ _ _ hinfo hbody _ ih =>
    subst hbody
    have hsta := hs.atStart (k := k) decs hinfo
    refine ih (hsta.frozen (frozen_checkDecls (p := p) _ hsta fun e he => ?_)) ?_
    · exact .member hd (List.mem_append_left _ he)
    · exact .member hd (List.mem_append_right _ List.mem_cons_self)

end Session

namespace Checker

theorem passing_registered (k : Checker) (p : Program) :
    Session.Passing (k.registered p) (k.registered p) none := by
  obtain ⟨-, hs, -⟩ := Session.registers_program (atTop k p).1
  refine ⟨?_, rfl, fun hi => (hs.component hi).1⟩
  have hbody := hs.bodyAt
  rw [← hs.current, hs.component_none] at hbody
  exact hbody

/-- **Forward references.** Between registration and the end of the check of declarations, and in
the check of every declaration in between, a name keeps its type in every scope, except that a
function without a written result may get another result, and only variables without a written type
are added to the scopes that are there. Every check, whatever it finds, ends in the scope and the
body in which it began, reading for the same instance and as deep in an expression. -/
theorem frozen_while_checking (k : Checker) (p : Program) :
    Session.Frozen (Session.Refinable p (k.registered p)) (Session.Pending p (k.registered p))
      (k.registered p) (k.checked p) ∧
    (∀ {e u}, Session.ReachesIn k p.items (k.registered p) e u →
      Session.Frozen (Session.Refinable p (k.registered p)) (Session.Pending p (k.registered p))
        u ((Session.checkDecl k e).run u).2) ∧
    ∀ {m}, Session.Check k m → ∀ s, Session.Returns s (m.run s).2 := by
  have hsta := passing_registered k p
  refine ⟨Session.frozen_checkDecls p.items hsta fun d hd => .item hd, fun {e u} h => ?_,
    fun hm => Session.traversed_returns.check hm⟩
  obtain ⟨before, d, after, hits, hrch⟩ := h
  have hbef := Session.frozen_checkDecls (k := k) (p := p) before hsta fun d' hd' =>
    .item (hits ▸ List.mem_append_left _ hd')
  have hd : p.Holds none d := .item (hits ▸ List.mem_append_right _ List.mem_cons_self)
  obtain ⟨c, hu, he⟩ := hrch.passing (hsta.frozen hbef) hd
  exact Session.frozen_checkDecl e hu he

/-- A function whose result is found in its body, and a variable that gets its type from a call. -/
def findsResult : String :=
  "fun f(number n) \x7b n + 1 \x7d
   var v = f(2)"

instance : Program.Spelled findsResult := ⟨_, rfl⟩

theorem frozen_while_checking_findsResult : ∃ p, Program.parse findsResult = .ok p ∧
    Session.Frozen (Session.Refinable p (builtin.registered p))
      (Session.Pending p (builtin.registered p)) (builtin.registered p) (builtin.checked p) ∧
    (Table.find? ((builtin.registered p).scopes.bindings ScopeId.global) "f").map Ty.text =
      some "(number) -> any" ∧
    (Table.find? ((builtin.checked p).scopes.bindings ScopeId.global) "f").map Ty.text =
      some "(number) -> number" ∧
    Session.Pending p (builtin.registered p) ScopeId.global "v" := by
  have hrun : ((Program.parse findsResult).toOption.any fun p => decide (
      (Table.find? ((builtin.registered p).scopes.bindings ScopeId.global) "f").map Ty.text =
        some "(number) -> any" ∧
      (Table.find? ((builtin.checked p).scopes.bindings ScopeId.global) "f").map Ty.text =
        some "(number) -> number" ∧ 0 < (builtin.registered p).scopes.all.length ∧
      (Table.find? ((builtin.registered p).scopes.bindings ScopeId.global) "v").isNone ∧
      (Table.find? ((builtin.checked p).scopes.bindings ScopeId.global) "v").isSome)) = true := by
    decide +kernel
  obtain ⟨p, hprs, hfacts⟩ := exists_of_parse hrun
  obtain ⟨hbef, haft, hlen, hnone, hsome⟩ := of_decide_eq_true hfacts
  obtain ⟨hfrozen, -, -⟩ := frozen_while_checking builtin p
  exact ⟨p, hprs, hfrozen, hbef, haft,
    hfrozen.added hlen (Option.isNone_iff_eq_none.mp hnone) hsome⟩

end Checker

end Provision
