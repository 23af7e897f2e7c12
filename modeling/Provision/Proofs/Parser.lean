import Mathlib.Tactic
import Provision.Decl.Parser

/-!
# Readers of lists

Most readers of lists have one of two forms: members up to a closing mark with any separators around
them (`Parse.Bracketed`), or one or more items with commas between them (`Parse.Commas`). What holds
of all lists of a form is shown once for the form.
-/

namespace Provision

namespace Parse

variable {α β : Type}

/-- A sequence that succeeds is two readers that do, one after the other. -/
theorem exists_of_run_bind {m : Parse α} {f : α → Parse β} {c c'' : Cursor} {b : β}
    (h : (m >>= f).run c = .ok (b, c'')) :
    ∃ a c', m.run c = .ok (a, c') ∧ (f a).run c' = .ok (b, c'') := by
  have hrun : (m.run c >>= fun r => (f r.1).run r.2) = .ok (b, c'') := h
  cases hm : m.run c with
  | error e =>
    rw [hm] at hrun
    cases hrun
  | ok r =>
    rw [hm] at hrun
    exact ⟨r.1, r.2, rfl, hrun⟩

/-- A reader of members up to a mark. -/
structure Bracketed (mark : Punct) (loop : Nat → Parse (List α)) (item : Nat → Parse α) : Prop where
  zero : loop 0 = throw .stalled
  succ : ∀ steps, loop (steps + 1) = do
    skipSeparators
    if ← isAt mark then return []
    else
      let a ← item steps
      return a :: (← loop steps)

/-- A reader of one or more items with commas between them. -/
structure Commas (loop : Nat → Parse (List α)) (item : Nat → Parse α) : Prop where
  zero : loop 0 = throw .stalled
  succ : ∀ steps, loop (steps + 1) = do
    let a ← item steps
    if ← isAt .comma then
      advance
      return a :: (← loop steps)
    else return [a]

end Parse

open Parse

namespace Expr

theorem bracketed_items (depth : Nat) :
    Bracketed .closeBracket (parseItems · depth) (parse · depth 0) :=
  ⟨by rw [parseItems], fun steps => by rw [parseItems]⟩

def parseField (steps depth : Nat) : Parse ObjectField := do
  let start ← start
  let key ← name
  expectMark .colon
  let value ← parse steps depth 0
  return .mk key value (← spanFrom start)

theorem bracketed_fields (depth : Nat) :
    Bracketed .closeBrace (parseFields · depth) (parseField · depth) :=
  ⟨by rw [parseFields], fun steps => by
    rw [parseFields]
    simp only [parseField, bind_assoc, pure_bind]⟩

theorem commas_list (depth : Nat) : Commas (parseList · depth) (parse · depth 0) :=
  ⟨by rw [parseList], fun steps => by rw [parseList]⟩

end Expr

def NamedArg.parse (steps : Nat) : Parse NamedArg := do
  let start ← start
  let name ← ident
  expectMark .assign
  let value ← Expr.parse steps 0 0
  return ⟨name, value, ← spanFrom start⟩

theorem NamedArg.commas : Commas NamedArg.parseList NamedArg.parse :=
  ⟨rfl, fun steps => by
    rw [NamedArg.parseList]
    simp only [NamedArg.parse, bind_assoc, pure_bind]⟩

def Decoration.parse (steps : Nat) : Parse Decoration := do
  let start ← start
  advance
  let name ← ident
  let args ← do
    if ← isAt .openParen then
      advance
      let args ← Arguments.parse steps
      expectMark .closeParen
      pure args
    else pure Arguments.bare
  return ⟨name, args, ← spanFrom start⟩

theorem Decoration.parseList_succ (steps : Nat) : Decoration.parseList (steps + 1) = do
    if ← isAt .atSign then
      let d ← Decoration.parse steps
      return d :: (← Decoration.parseList steps)
    else return [] := by
  rw [Decoration.parseList]
  simp only [Decoration.parse, bind_assoc, pure_bind]
  refine bind_congr fun atSign => ?_
  cases atSign with
  | false => rfl
  | true =>
    refine bind_congr fun _ => bind_congr fun _ => bind_congr fun _ => bind_congr fun paren => ?_
    cases paren with
    | false => rfl
    | true => simp only [if_true, bind_assoc, pure_bind]

def SchemaProperty.parse (steps : Nat) : Parse SchemaProperty := do
  let start ← start
  let decs ← Decoration.parseList steps
  let type ← TypeExpr.parse steps
  let name ← Parse.name
  let default ← Expr.parseInitializer steps
  return ⟨decs, type, name, default, ← spanFrom start⟩

theorem SchemaProperty.bracketed :
    Bracketed .closeBrace SchemaProperty.parseList SchemaProperty.parse :=
  ⟨rfl, fun steps => by
    rw [parseList]
    simp only [SchemaProperty.parse, bind_assoc, pure_bind]⟩

def Init.parse (steps : Nat) : Parse Init := do
  let start ← start
  let name ← Parse.name
  expectMark .assign
  let value ← Expr.parse steps 0 0
  return ⟨name, value, ← spanFrom start⟩

theorem Init.bracketed : Bracketed .closeBrace Init.parseList Init.parse :=
  ⟨rfl, fun steps => by
    rw [parseList]
    simp only [Init.parse, bind_assoc, pure_bind]⟩

def Param.parse (steps : Nat) : Parse Param := do
  let start ← start
  let type ← TypeExpr.parse steps
  let name ← ident
  return ⟨type, name, ← spanFrom start⟩

theorem Param.commas : Commas Param.parseList Param.parse :=
  ⟨rfl, fun steps => by
    rw [parseList]
    simp only [Param.parse, bind_assoc, pure_bind]⟩

theorem Decl.bracketed_body : Bracketed .closeBrace Decl.parseBody Decl.parse :=
  ⟨by rw [parseBody], fun steps => by rw [parseBody]⟩

end Provision
