import Provision.Proofs.Session.Declarations

/-!
# What the check of all declarations does

A relation that the basic operations of a check stay in is one that the check of any declaration
stays in (`Session.Traversed.checkDecls`). Unlike `Session.Advances` it is found without knowing
anything about the session.
-/

namespace Provision.Session

variable {k : Checker} {R : Session → Session → Prop} [IsPreorder Session R]

/-- A relation that every basic operation of a check of instances stays in, decorators apart. -/
structure Instanced (k : Checker) (R : Session → Session → Prop) : Prop extends Valued k R where
  depend : ∀ x scope y kind, Moves R (depend x scope y kind)
  record : ∀ x ds, Moves R (recordDecorations x ds)
  /-- Reading for an instance, and going back. -/
  readingFor : ∀ x {m : Checking Unit}, Moves R m →
    ∀ s, R s { (m.run (s.readingFor x)).2 with reader := s.reader }

namespace Instanced

theorem checkInits (h : Instanced k R) (x : String) (holder : Holder) (span : Span)
    (fields : Table Ty) (required : List String) (inits : List Init) :
    Moves R (checkInits k x holder span fields required inits) := by
  intro s
  rw [run_checkInits]
  exact h.readingFor x h.initialise s

variable (h : Instanced k R) (hr : Respected k R)
include h hr

theorem checkInstanceDecorators (ds : List Decoration) (target : Target) (n : String) (type : Ty) :
    Moves R (checkInstanceDecorators k ds target n type) :=
  moves_checkInstanceDecorators hr h.depend h.record

theorem checkResource (d : ResourceDecl) : Moves R (checkResource k d) := by
  unfold Session.checkResource
  refine Moves.get_bind fun s =>
    Moves.bind (h.checkInstanceDecorators hr _ _ _ _) (fun _ => ?_) s
  split
  · exact Moves.get_bind fun s => h.checkInits _ _ _ _ _ _ s
  · exact Moves.pure _

theorem checkInstance (d : InstanceDecl) : Moves R (checkInstance k d) := by
  unfold Session.checkInstance
  refine Moves.get_bind fun s =>
    Moves.bind (h.checkInstanceDecorators hr _ _ _ _) (fun _ => ?_) s
  split
  · exact Moves.get_bind fun s => h.checkInits _ _ _ _ _ _ s
  · exact Moves.pure _

/-- Checking a resource or an instance relates the sessions before and after it. -/
theorem checkDecl {d : Decl} (hd : d.instanceName?.isSome) : Moves R (checkDecl k d) := by
  cases d with
  | resource d =>
    rw [Session.checkDecl]
    exact moves_ifRegistered d.name (h.checkResource hr d)
  | inst d =>
    rw [Session.checkDecl]
    exact moves_ifRegistered d.name (h.checkInstance hr d)
  | _ => cases hd

end Instanced

/-- A relation that every basic operation of a check of declarations stays in, decorators and the
bodies of components apart. -/
structure Visited (k : Checker) (R : Session → Session → Prop) : Prop extends Instanced k R where
  declare : ∀ name type, Moves R (declare name type)
  /-- Going into a new scope, and back. -/
  inChild : ∀ {m : Checking (Option Ty)}, Moves R m →
    ∀ s, R s ((m.run s.inChild).2.within s.scopes.current)
  /-- A function gets another result in the end. -/
  refine : ∀ {s t name params result body}, s.scopes.get? name = some (.function params result) →
    R s t → R t { t with scopes := t.scopes.set name (.function params body) }

namespace Visited

variable (h : Visited k R)
include h

theorem variableType? (d : VarDecl) : Moves R (variableType? k d) := by
  unfold Session.variableType?
  split
  · refine Moves.get_bind fun s => ?_
    split
    · exact Moves.bind (h.checkValue _ _ _) (fun _ => Moves.pure _) s
    · exact Std.Refl.refl s
  · refine Moves.bind (h.inferred? _) fun _ => Moves.bind (h.declare _ _) fun declared => ?_
    split <;> exact Moves.pure _

theorem declareParams (ps : List Param) (types : List Ty) : Moves R (declareParams ps types) := by
  induction ps generalizing types with
  | nil => cases types <;> exact Moves.pure _
  | cons q ps ih =>
    cases types with
    | nil => exact Moves.pure _
    | cons type types =>
      rw [Session.declareParams]
      exact Moves.bind (h.declare _ _) fun _ => ih types

/-- Typing a function's body in a scope of its own relates the two sessions. -/
theorem bodyType? (d : FunDecl) (params : List Ty) (result : Ty) :
    Moves R (bodyType? k d params result) := by
  have hbody : Moves R (checkBody k d result) := h.checkBody
  exact h.inChild (Moves.bind (h.declareParams d.params params) fun _ => hbody)

end Visited

/-- Besides, decorators and the bodies of components stay in it. -/
structure Traversed (k : Checker) (R : Session → Session → Prop) : Prop
    extends Respected k R, Visited k R where
  inBody : ∀ comp scope {m : Checking Unit}, Moves R m → Moves R (inBody comp scope m)

namespace Traversed

variable (h : Traversed k R)
include h

theorem checkVariable (d : VarDecl) : Moves R (checkVariable k d) := by
  unfold Session.checkVariable
  refine Moves.bind (h.variableType? d) fun type => ?_
  split
  · exact Moves.bind (h.runDecorators _ _ _ _) fun _ => Moves.pure _
  · exact Moves.pure _

/-- Checking a function relates the sessions before and after it. -/
theorem checkFunction (d : FunDecl) : Moves R (checkFunction k d) := by
  unfold Session.checkFunction
  refine Moves.get_bind fun s => ?_
  rw [run_bind]
  have hdecs := h.runDecorators d.decorations ⟨.function, d.name.text, false⟩
    (s.boundType d.name) none s
  cases hty : s.boundType d.name with
  | function params result =>
    rw [hty] at hdecs
    -- a name that means a function is bound to one
    have hbd : s.scopes.get? d.name.text = some (.function params result) := by
      rw [boundType] at hty
      cases hget : s.scopes.get? d.name.text with
      | none => rw [hget] at hty; cases hty
      | some type => rw [hget] at hty; rw [← hty]; rfl
    rw [run_bind]
    have hbody := IsTrans.trans (r := R) _ _ _ hdecs (h.bodyType? d params result _)
    split
    · exact IsTrans.trans (r := R) _ _ _ hbody (h.refine hbd hbody)
    · exact hbody
  | _ =>
    rw [hty] at hdecs
    exact hdecs

end Traversed

mutual

/-- Checking a declaration relates the sessions before and after it, by recursion into bodies. -/
theorem Traversed.checkDecl (h : Traversed k R) : ∀ d : Decl, Moves R (checkDecl k d)
  | .schema d => by
    rw [Session.checkDecl]
    exact moves_ifRegistered d.name (h.checkSchema d)
  | .resource d => h.toInstanced.checkDecl h.toRespected (d := .resource d) rfl
  | .component ds name body _ => by
    rw [Session.checkDecl]
    refine moves_ifRegistered name (Moves.get_bind fun s =>
      Moves.bind (h.runDecorators _ _ _ _) (fun _ => ?_) s)
    split
    · exact h.inBody _ _ (h.checkDecls body)
    · exact Moves.pure _
  | .inst d => h.toInstanced.checkDecl h.toRespected (d := .inst d) rfl
  | .input d => by
    rw [Session.checkDecl]
    exact moves_ifRegistered d.name (h.checkInput d)
  | .output d => by
    rw [Session.checkDecl]
    exact moves_ifRegistered d.name (h.checkOutput d)
  | .var d => by
    rw [Session.checkDecl]
    exact h.checkVariable d
  | .function d => by
    rw [Session.checkDecl]
    exact moves_ifRegistered d.name (h.checkFunction d)
  | .alias d => by
    rw [Session.checkDecl]
    exact h.checkAlias d

theorem Traversed.checkDecls (h : Traversed k R) : ∀ ds : List Decl, Moves R (checkDecls k ds)
  | [] => by
    rw [Session.checkDecls]
    exact Moves.pure _
  | d :: ds => by
    rw [Session.checkDecls]
    exact Moves.bind (h.checkDecl d) fun _ => h.checkDecls ds

end

end Provision.Session
