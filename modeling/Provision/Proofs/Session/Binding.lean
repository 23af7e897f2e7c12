import Provision.Proofs.Session
import Provision.Session.Registration

/-!
# Steps of registration

Registration is made of few steps. A schema is bound and noted (`Session.withSchema`), an alias is
bound and noted (`Session.bindAlias`), a schema gets its properties (`Session.fill`), a member is
declared and an instance entered; else there is a finding. A relation that these steps stay in is
one that all of registration stays in: `Session.Binds`, `Session.BindsTypes` and `Session.Fills` say
so of types, and `Session.Enlists` of members. The names that may be bound on the way are those that
`N` admits.
-/

namespace Provision

open List

variable {ds : List Decl} {a : AliasDecl}

namespace Decl

/-- The name that a schema or an alias gives to a type. -/
def typeName? : Decl → Option String
  | .schema d => some d.name.text
  | .alias d => some d.name.text
  | _ => none

/-- The names that schemas and aliases among declarations give. -/
def typeNames (ds : List Decl) : List String := ds.filterMap typeName?

def memberNames (ds : List Decl) : List String := (ds.filter isMember).map (·.name.text)

theorem mem_typeNames {n : String} : n ∈ typeNames ds ↔ ∃ d ∈ ds, d.typeName? = some n := by
  simp [typeNames]

theorem mem_memberNames {n : String} :
    n ∈ memberNames ds ↔ ∃ d ∈ ds, d.isMember = true ∧ d.name.text = n := by
  simp [memberNames, and_assoc]

end Decl

namespace Session

variable {s : Session} {N : String → Prop} {R : Session → Session → Prop}

/-! ### Steps -/

/-- The session in which a schema is bound and noted, as yet without properties. -/
def withSchema (s : Session) (d : SchemaDecl) : Session :=
  { s with
    scopes := s.scopes.set d.name.text (.schema d.name.text [] [])
    registered := d.name.span :: s.registered
    schemas := ((s.scopes.current, d.name.text), d) :: s.schemas }

def bindAlias (s : Session) (b : String × Ty) : Session :=
  { s with
    scopes := s.scopes.set b.1 b.2
    aliases := (s.scopes.current, b.1) :: s.aliases }

def fill (props : Table Ty) : Ty → Ty
  | .schema name _ resources => .schema name props resources
  | other => other

theorem run_declareSchemas_step (d : SchemaDecl) (ds : List Decl) (s : Session) :
    s.scopes.get? d.name.text = none ∧
        (declareSchemas (.schema d :: ds)).run s = (declareSchemas ds).run (s.withSchema d) ∨
      ∃ finding, (declareSchemas (.schema d :: ds)).run s =
        (declareSchemas ds).run ((report finding).run s).2 := by
  rw [declareSchemas, run_bind, run_declare_of_get?]
  cases hget : s.scopes.get? d.name.text with
  | none => exact Or.inl ⟨rfl, rfl⟩
  | some _ => exact Or.inr ⟨_, rfl⟩

/-- An alias whose type does not resolve is left for the next round. -/
theorem run_bindAliases_of_error {as : List AliasDecl} {d : Diagnostic}
    (h : s.resolveType a.type = .error d) : (bindAliases (a :: as)).run s =
      (a :: ((bindAliases as).run s).1, ((bindAliases as).run s).2) := by
  rw [bindAliases, run_get_bind]
  simp only [h]
  rfl

/-- An alias whose type resolves is bound, or its name is reported as taken. -/
theorem run_bindAliases_of_ok (as : List AliasDecl) {type : Ty}
    (h : s.resolveType a.type = .ok type) :
    s.scopes.get? a.name.text = none ∧
        (bindAliases (a :: as)).run s = (bindAliases as).run (s.bindAlias (a.name.text, type)) ∨
      ∃ finding, s.scopes.get? a.name.text ≠ none ∧
        (bindAliases (a :: as)).run s = (bindAliases as).run ((report finding).run s).2 := by
  rw [bindAliases, run_get_bind]
  simp only [h]
  rw [run_bind, run_declare_of_get?]
  cases hget : s.scopes.get? a.name.text with
  | none => exact Or.inl ⟨rfl, rfl⟩
  | some _ => exact Or.inr ⟨_, Option.some_ne_none _, rfl⟩

/-- The aliases left over are in the order in which they were written. -/
theorem sublist_bindAliases (as : List AliasDecl) (s : Session) :
    ((bindAliases as).run s).1.Sublist as := by
  induction as generalizing s with
  | nil => exact Sublist.refl _
  | cons a as ih =>
    cases hres : s.resolveType a.type with
    | error d =>
      rw [run_bindAliases_of_error hres]
      exact (ih s).cons_cons a
    | ok type =>
      rcases run_bindAliases_of_ok as hres with ⟨-, hrun⟩ | ⟨d, -, hrun⟩
      · rw [hrun]
        exact (ih _).cons a
      · rw [hrun]
        exact (ih _).cons a

/-! ### Declarations that are skipped -/

section Skips

variable {keep : Decl → Bool} {ds es : List Decl}

variable (h : es.filter keep = ds.filter keep)
include h

/-- A pass over declarations does not see those that it skips. -/
theorem eq_of_filter {α : Type} {f : List Decl → α}
    (hcons : ∀ d l l', f l = f l' → f (d :: l) = f (d :: l'))
    (hskip : ∀ d, keep d = false → ∀ l, f (d :: l) = f l) : f es = f ds := by
  have hfilter : ∀ l, f l = f (l.filter keep) := by
    intro l
    induction l with
    | nil => rfl
    | cons d l ih =>
      rw [filter_cons]
      split
      · exact hcons d _ _ ih
      · next hkeep => exact (hskip d (Bool.eq_false_of_not_eq_true hkeep) l).trans ih
  rw [hfilter, h, ← hfilter]

theorem declareSchemas_congr (hkeep : ∀ d, keep (.schema d) = true) :
    declareSchemas es = declareSchemas ds := by
  refine eq_of_filter h (fun d l l' hl => ?_) fun d hd l => ?_
  · cases d <;> simp only [declareSchemas, hl]
  · cases d with
    | schema d => rw [hkeep] at hd; cases hd
    | _ => rfl

theorem fillSchemas_congr (hkeep : ∀ d, keep (.schema d) = true) :
    fillSchemas es = fillSchemas ds := by
  refine eq_of_filter h (fun d l l' hl => ?_) fun d hd l => ?_
  · cases d <;> simp only [fillSchemas, hl]
  · cases d with
    | schema d => rw [hkeep] at hd; cases hd
    | _ => rfl

theorem aliasesOf_congr (hkeep : ∀ a, keep (.alias a) = true) : aliasesOf es = aliasesOf ds := by
  refine eq_of_filter h (fun d l l' hl => ?_) fun d hd l => ?_
  · unfold aliasesOf at hl ⊢
    rw [filterMap_cons, filterMap_cons, hl]
  · cases d with
    | «alias» d => rw [hkeep] at hd; cases hd
    | _ => rfl

/-- Registering types looks at schemas and aliases alone. -/
theorem registerTypes_congr (hsch : ∀ d, keep (.schema d) = true)
    (halias : ∀ a, keep (.alias a) = true) : registerTypes es = registerTypes ds := by
  rw [registerTypes, declareSchemas_congr h hsch, aliasesOf_congr h halias,
    fillSchemas_congr h hsch, registerTypes]

end Skips

theorem mem_aliasesOf : a ∈ aliasesOf ds ↔ .alias a ∈ ds := by
  refine mem_filterMap.trans ⟨?_, fun h => ⟨_, h, rfl⟩⟩
  rintro ⟨d, hd, ha⟩
  cases d with
  | «alias» d => exact Option.some.inj ha ▸ hd
  | _ => cases ha

/-! ### Types -/

/-- A relation that the steps of binding aliases stay in. -/
structure Binds (N : String → Prop) (R : Session → Session → Prop) : Prop where
  report : ∀ d, Moves R (report d)
  bindAlias : ∀ {s e n type}, N n → s.resolveType e = .ok type → s.scopes.get? n = none →
    R s (s.bindAlias (n, type))

/-- A relation that the steps of binding types stay in. -/
structure BindsTypes (N : String → Prop) (R : Session → Session → Prop) : Prop
    extends Binds N R where
  withSchema : ∀ {s d}, N d.name.text → s.scopes.get? d.name.text = none → R s (s.withSchema d)

/-- The relation holds where a schema gets its properties. -/
def Fills (R : Session → Session → Prop) : Prop :=
  ∀ n types, Moves R
    (modify fun s => { s with scopes := s.scopes.modify n (fill types) } : Checking Unit)

section Types

variable [IsPreorder Session R]

namespace Binds

variable (h : Binds N R)
include h

theorem bindAliases {as : List AliasDecl} (hN : ∀ a ∈ as, N a.name.text) :
    Moves R (bindAliases as) := by
  induction as with
  | nil => exact Moves.pure _
  | cons a as ih =>
    obtain ⟨ha, hN⟩ := forall_mem_cons.mp hN
    intro s
    cases hres : s.resolveType a.type with
    | error d =>
      rw [run_bindAliases_of_error hres]
      exact ih hN s
    | ok type =>
      rcases run_bindAliases_of_ok as hres with ⟨hfree, hrun⟩ | ⟨d, -, hrun⟩
      · rw [hrun]
        exact IsTrans.trans _ _ _ (h.bindAlias ha hres hfree) (ih hN _)
      · rw [hrun]
        exact IsTrans.trans _ _ _ (h.report d s) (ih hN _)

theorem reportAliases (as : List AliasDecl) : Moves R (reportAliases as) := by
  induction as with
  | nil => exact Moves.pure _
  | cons a as ih =>
    rw [Session.reportAliases]
    refine Moves.get_bind fun s => ?_
    cases s.resolveType a.type with
    | error d => exact Moves.bind (h.report d) (fun _ => ih) s
    | ok type => exact ih s

theorem registerAliases (rounds : Nat) {as : List AliasDecl} (hN : ∀ a ∈ as, N a.name.text) :
    Moves R (registerAliases rounds as) := by
  induction rounds generalizing as with
  | zero => exact Moves.pure _
  | succ rounds ih =>
    cases as with
    | nil => exact Moves.pure _
    | cons a as =>
      rw [Session.registerAliases]
      · intro s
        rw [run_bind]
        refine IsTrans.trans _ _ _ (h.bindAliases hN s) ?_
        split
        · exact h.reportAliases _ _
        · exact ih (fun b hb => hN b ((sublist_bindAliases _ s).subset hb)) _
      · exact cons_ne_nil a as

theorem propertyTypes (types : Table Ty) (ps : List SchemaProperty) :
    Moves R (propertyTypes types ps) := by
  induction ps generalizing types with
  | nil => exact Moves.pure _
  | cons p ps ih =>
    rw [Session.propertyTypes]
    split
    · exact Moves.bind (h.report _) fun _ => ih _
    · refine Moves.get_bind fun s => ?_
      cases s.resolveType p.type with
      | ok type => exact ih _ s
      | error d => exact Moves.bind (h.report d) (fun _ => ih _) s

theorem signatureOf (comp : String) (sig : Signature) (ds : List Decl) :
    Moves R (signatureOf comp sig ds) := by
  induction ds generalizing sig with
  | nil => exact Moves.pure _
  | cons d ds ih =>
    cases d with
    | input d => exact Moves.get_bind fun s => ih _ s
    | output d => exact Moves.get_bind fun s => ih _ s
    | component _ name _ _ => exact Moves.bind (h.report _) fun _ => ih _
    | _ => exact ih _

theorem fillSchemas (hfill : Fills R) (ds : List Decl) : Moves R (fillSchemas ds) := by
  induction ds with
  | nil => exact Moves.pure _
  | cons d ds ih =>
    cases d with
    | schema d =>
      rw [Session.fillSchemas]
      refine Moves.get_bind fun s => ?_
      split
      · exact Moves.bind (h.propertyTypes _ _)
          (fun types => Moves.bind (hfill d.name.text types) fun _ => ih) s
      · exact ih s
    | _ => exact ih

end Binds

namespace BindsTypes

variable (h : BindsTypes N R)
include h

theorem declareSchemas {ds : List Decl} (hN : ∀ n ∈ Decl.typeNames ds, N n) :
    Moves R (declareSchemas ds) := by
  induction ds with
  | nil => exact Moves.pure _
  | cons d ds ih =>
    cases d with
    | schema d =>
      obtain ⟨hd, hN⟩ := forall_mem_cons.mp hN
      intro s
      rcases run_declareSchemas_step d ds s with ⟨hfree, hrun⟩ | ⟨finding, hrun⟩
      · rw [hrun]
        exact IsTrans.trans _ _ _ (h.withSchema hd hfree) (ih hN _)
      · rw [hrun]
        exact IsTrans.trans _ _ _ (h.report finding s) (ih hN _)
    | «alias» d => exact ih (forall_mem_cons.mp hN).2
    | _ => exact ih hN

theorem registerTypes (hfill : Fills R) {ds : List Decl} (hN : ∀ n ∈ Decl.typeNames ds, N n) :
    Moves R (registerTypes ds) := by
  have hals : ∀ a ∈ aliasesOf ds, N a.name.text := fun a ha =>
    hN _ (Decl.mem_typeNames.mpr ⟨_, mem_aliasesOf.mp ha, rfl⟩)
  exact Moves.bind (h.declareSchemas hN) fun _ =>
    Moves.bind (h.registerAliases _ hals) fun _ => h.fillSchemas hfill ds

end BindsTypes

end Types

/-! ### Members -/

theorem exists_of_functionType {d : FunDecl} {type : Ty} (h : s.functionType d = .ok type) :
    ∃ params result, s.resolveTypes (d.params.map (·.type)) = .ok params ∧
      type = .function params result := by
  unfold functionType at h
  cases hps : s.resolveTypes (d.params.map (·.type)) with
  | error f =>
    rw [hps] at h
    cases h
  | ok params =>
    rw [hps] at h
    cases hrt : d.result with
    | none =>
      rw [hrt] at h
      exact ⟨params, .any, rfl, (Except.ok.inj h).symm⟩
    | some e =>
      rw [hrt] at h
      have h : (do return .function params (← s.resolveType e) : Except Diagnostic Ty) =
        .ok type := h
      cases he : s.resolveType e with
      | error f =>
        rw [he] at h
        cases h
      | ok result =>
        rw [he] at h
        exact ⟨params, result, rfl, (Except.ok.inj h).symm⟩

/-- What a member of a body may be bound to: what a written type means, a function, a resource or an
instance of a component. -/
inductive Admits (s : Session) : Ty → Prop
  | written {e : TypeExpr} {type : Ty} (h : s.resolveType e = .ok type) : Admits s type
  | function (params : List Ty) (result : Ty) : Admits s (.function params result)
  | resource (name schema : String) (props : Table Ty) :
      Admits s (.resource name schema props)
  | inst {n comp : String} {inputs outputs : Table Ty} {nested : List Ty}
      (h : s.scopes.lookup n = .ok (.component comp none inputs outputs nested))
      (name : String) : Admits s (.component comp (some name) inputs outputs nested)

/-- A relation that the steps of registering members stay in. -/
structure Enlists (N : String → Prop) (R : Session → Session → Prop) : Prop where
  report : ∀ d, Moves R (report d)
  declare : ∀ {s type} name, N name.text → Admits s type → R s ((declare name type).run s).2
  mark : ∀ name, Moves R (markRegistered name)
  addResource : ∀ n name type, Moves R
    (modify fun s => { s with scopes := s.scopes.modify n (addResource name type) } : Checking Unit)
  addInstance : ∀ name kind span, Moves R (addInstance name kind span)
  tell : ∀ name f, Moves R (modifyComponent name f)

namespace Enlists

variable (h : Enlists N R)
include h

theorem registerTyped {name : Ident} (hN : N name.text) (type : TypeExpr) :
    Moves R (registerTyped name type) := by
  unfold Session.registerTyped
  refine Moves.get_bind fun s => ?_
  cases hres : s.resolveType type with
  | ok type => exact h.declare name hN (.written hres)
  | error d => exact h.report d s

theorem registerFunction {d : FunDecl} (hN : N d.name.text) : Moves R (registerFunction d) := by
  unfold Session.registerFunction
  refine Moves.get_bind fun s => ?_
  cases hty : s.functionType d with
  | ok type =>
    obtain ⟨params, result, -, rfl⟩ := exists_of_functionType hty
    exact h.declare d.name hN (.function params result)
  | error d => exact h.report d s

variable [IsPreorder Session R]

theorem registerResource {d : ResourceDecl} (hN : N d.name.text) :
    Moves R (registerResource d) := by
  unfold Session.registerResource
  refine Moves.get_bind fun s => ?_
  split
  · next schema props _ _ =>
    rw [run_bind]
    refine IsTrans.trans _ _ _ (h.declare d.name hN (.resource d.name.text schema props)) ?_
    split
    · exact Moves.bind (h.addResource _ _ _) (fun _ =>
        Moves.bind (h.addInstance _ _ _) fun _ => Moves.pure _) _
    · exact Std.Refl.refl _
  · exact h.report _ s
  · exact h.report _ s

theorem registerInstance {d : InstanceDecl} (hN : N d.name.text) :
    Moves R (registerInstance d) := by
  unfold Session.registerInstance
  refine Moves.get_bind fun s => ?_
  split
  · next comp inputs outputs nested hlk =>
    rw [run_bind]
    refine IsTrans.trans _ _ _ (h.declare d.name hN (.inst hlk d.name.text)) ?_
    split
    · refine Moves.bind (h.addInstance _ _ _) (fun _ => Moves.get_bind fun s => ?_) _
      -- the component around it is told, or the one that it is an instance of
      split
      · exact Moves.bind (h.tell _ _) (fun _ => Moves.pure _) s
      · exact Moves.bind (h.tell _ _) (fun _ => Moves.pure _) s
    · exact Std.Refl.refl _
  · exact h.report _ s
  · exact h.report _ s

theorem registerMember {d : Decl} (hN : d.isMember = true → N d.name.text) :
    Moves R (registerMember d) := by
  cases d with
  | function d => exact h.registerFunction (hN rfl)
  | input d => exact h.registerTyped (hN rfl) d.type
  | output d => exact h.registerTyped (hN rfl) d.type
  | var d =>
    rw [Session.registerMember]
    split
    · next type hty =>
      refine h.registerTyped (hN ?_) _
      rw [Decl.isMember, hty]
      rfl
    · exact Moves.pure _
  | resource d => exact h.registerResource (hN rfl)
  | inst d => exact h.registerInstance (hN rfl)
  | _ => exact Moves.pure _

theorem registerMembers (ds : List Decl) (hN : ∀ n ∈ Decl.memberNames ds, N n) :
    Moves R (registerMembers ds) := by
  induction ds with
  | nil => exact Moves.pure _
  | cons d ds ih =>
    have hrest : Moves R (Session.registerMembers ds) := ih fun n hn => hN n <| by
      obtain ⟨d', hd', hn⟩ := Decl.mem_memberNames.mp hn
      exact Decl.mem_memberNames.mpr ⟨d', mem_cons_of_mem d hd', hn⟩
    rw [Session.registerMembers]
    refine Moves.bind (h.registerMember fun hmb => ?_) fun registered => ?_
    · exact hN _ (Decl.mem_memberNames.mpr ⟨d, mem_cons_self, hmb, rfl⟩)
    · split
      · exact Moves.bind (h.mark d.name) fun _ => hrest
      · exact hrest

end Enlists

end Session

end Provision
