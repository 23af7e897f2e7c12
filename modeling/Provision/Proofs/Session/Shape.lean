import Provision.Proofs.Offsets
import Provision.Proofs.Session
import Provision.Session.Shape

/-!
# What the walk over shapes finds

The walk over the decorations of a program comes to every list of them in turn
(`Session.walkShapes_eq`). It adds one finding for each list that is out of shape and notes where
the list starts, and changes nothing else (`Session.run_walkShapes`). If it finds nothing, then
every decoration is one of a decorator that takes its arguments (`Session.shaped_of_walkShapes`).
-/

namespace Provision.Session

open List Decl

variable {k : Checker} {s : Session} {ds : List Decoration}

/-- Every one of some decorations is one of a decorator that takes its arguments. -/
def Shaped (k : Checker) (ds : List Decoration) : Prop :=
  ∀ d ∈ ds, ∃ decorator,
    k.registry.get? d.name.text = some decorator ∧ decorator.checkShape d = .ok ()

theorem Shaped.known (h : Shaped k ds) : ∀ d ∈ ds, (k.registry.get? d.name.text).isSome := by
  intro d hd
  obtain ⟨decorator, hdec, -⟩ := h d hd
  rw [hdec]
  rfl

/-- The decorations of a declaration and of the properties of a schema are in shape. -/
structure WellShaped (k : Checker) (d : Decl) : Prop where
  own : Shaped k d.decorations
  properties : ∀ q ∈ d.properties, Shaped k q.decorations

theorem shapeFinding?_eq_none (h : shapeFinding? k ds = none) :
    ∀ d ∈ ds, checkDecoration k d = .ok () := by
  induction ds with
  | nil => exact forall_mem_nil _
  | cons d ds ih =>
    rw [shapeFinding?] at h
    split at h
    · next hd => exact forall_mem_cons.mpr ⟨hd, ih h⟩
    · cases h

theorem shaped_of_shapeFinding? (h : shapeFinding? k ds = none) : Shaped k ds := by
  intro d hd
  have hok := shapeFinding?_eq_none h d hd
  unfold checkDecoration at hok
  split at hok
  · next decorator hdec => exact ⟨decorator, hdec, hok⟩
  · cases hok

/-- Where a list of decorations starts that is out of shape. -/
def haltedAt? (k : Checker) (ds : List Decoration) : Option Span :=
  (shapeFinding? k ds).bind fun _ => ds.head?.map (·.span)

theorem run_checkShapes (ds : List Decoration) : ((checkShapes k ds).run s).2 =
    { s with
      findings := s.findings ++ (shapeFinding? k ds).toList
      halted := (haltedAt? k ds).toList ++ s.halted } := by
  unfold checkShapes haltedAt?
  cases hfnd : shapeFinding? k ds with
  | none =>
    rw [Option.toList_none, append_nil]
    rfl
  | some finding =>
    cases ds with
    | nil => cases hfnd
    | cons first rest => rfl

/-! ### All lists -/

theorem checkPropertyShapes_eq (qs : List SchemaProperty) :
    checkPropertyShapes k qs = forM (qs.map (·.decorations)) (checkShapes k) := by
  induction qs with
  | nil => rfl
  | cons q qs ih => rw [checkPropertyShapes, ih, map_cons, forM_cons]

theorem walkShapes_eq (ds : List Decl) : walkShapes k ds = forM (listsAll ds) (checkShapes k) := by
  have hall : ∀ ds : List Decl, (∀ d ∈ ds, walkShape k d = forM d.lists (checkShapes k)) →
      walkShapes k ds = forM (listsAll ds) (checkShapes k) := by
    intro ds h
    induction ds with
    | nil => rfl
    | cons d ds ih =>
      obtain ⟨hd, hds⟩ := forall_mem_cons.mp h
      rw [walkShapes, hd, ih hds, listsAll, forM_append]
  refine hall ds fun d hd => ?_
  clear hd
  induction d using members_induction with
  | h d ih =>
    cases d with
    | schema d => rw [walkShape, checkPropertyShapes_eq, lists, forM_cons]
    | component ds name body span => rw [walkShape, lists, forM_cons, hall body ih]
    | _ => rw [walkShape, lists, forM_cons, forM_nil, bind_pure_unit]

/-- The walk over shapes adds findings and stops decorations, nothing else. -/
theorem run_walkShapes (ds : List Decl) : ((walkShapes k ds).run s).2 =
    { s with
      findings := s.findings ++ (listsAll ds).filterMap (shapeFinding? k)
      halted := ((listsAll ds).filterMap (haltedAt? k)).reverse ++ s.halted } := by
  rw [walkShapes_eq]
  induction listsAll ds generalizing s with
  | nil =>
    rw [filterMap_nil, append_nil]
    rfl
  | cons l ls ih =>
    rw [forM_cons, run_bind, ih, run_checkShapes, filterMap_cons, filterMap_cons]
    cases shapeFinding? k l <;> cases haltedAt? k l <;> simp

section Unfound

variable {ds : List Decl} (h : ((walkShapes k ds).run s).2.findings = [])
include h

theorem shapeFinding?_of_walkShapes : ∀ l ∈ listsAll ds, shapeFinding? k l = none := by
  rw [run_walkShapes] at h
  exact filterMap_eq_nil_iff.mp (append_eq_nil_iff.mp h).2

theorem halted_walkShapes : ((walkShapes k ds).run s).2.halted = s.halted := by
  have hnone : (listsAll ds).filterMap (haltedAt? k) = [] := filterMap_eq_nil_iff.mpr fun l hl => by
    rw [haltedAt?, shapeFinding?_of_walkShapes h l hl]
    rfl
  rw [run_walkShapes, hnone]
  rfl

theorem shaped_of_walkShapes : ∀ d ∈ ds, d.EveryList (Shaped k) := fun d hd l hl =>
  shaped_of_shapeFinding? (shapeFinding?_of_walkShapes h l (mem_listsAll.mpr ⟨d, hd, hl⟩))

end Unfound

end Provision.Session
