import Provision.Decl.Parser
import Provision.Proofs.Program

/-!
# Lists of decorations

A list of decorations is known by the span of its first (`Decoration.mark?`). A declaration has a
list of its own, and those of its properties and of the declarations inside it (`Decl.lists`).
-/

namespace Provision

/-- What a list of decorations is known by: the span of the first of them. -/
def Decoration.mark? (ds : List Decoration) : Option Span := ds.head?.map (·.span)

namespace Decl

mutual

/-- The lists of decorations of a declaration: its own, and those inside it. -/
def lists : Decl → List (List Decoration)
  | .schema d => d.decorations :: d.properties.map (·.decorations)
  | .component ds _ body _ => ds :: listsAll body
  | .resource d => [d.decorations]
  | .inst d => [d.decorations]
  | .input d => [d.decorations]
  | .output d => [d.decorations]
  | .var d => [d.decorations]
  | .function d => [d.decorations]
  | .alias d => [d.decorations]

def listsAll : List Decl → List (List Decoration)
  | [] => []
  | d :: ds => lists d ++ listsAll ds

end

theorem listsAll_eq_flatMap (ds : List Decl) : listsAll ds = ds.flatMap lists := by
  induction ds with
  | nil => rfl
  | cons d ds ih => rw [listsAll, ih, List.flatMap_cons]

theorem mem_listsAll {ds : List Decl} {l : List Decoration} :
    l ∈ listsAll ds ↔ ∃ d ∈ ds, l ∈ d.lists := by
  rw [listsAll_eq_flatMap, List.mem_flatMap]

/-- The lists of decorations right at a declaration: before it, and before its properties. -/
def ownLists (d : Decl) : List (List Decoration) :=
  d.decorations :: d.properties.map (·.decorations)

/-- The lists of a declaration are those right at it and those of its members. -/
theorem lists_eq_append (d : Decl) : d.lists = d.ownLists ++ listsAll d.members := by
  cases d <;> simp [lists, ownLists, decorations, properties, members, listsAll]

theorem mem_lists {d : Decl} {l : List Decoration} :
    l ∈ d.lists ↔ l ∈ d.ownLists ∨ l ∈ listsAll d.members := by
  rw [lists_eq_append, List.mem_append]

theorem decorations_mem_lists (d : Decl) : d.decorations ∈ d.lists := by
  cases d <;> (rw [lists]; exact List.mem_cons_self)

/-- Every list of decorations of a declaration has a property. -/
def EveryList (P : List Decoration → Prop) (d : Decl) : Prop := ∀ l ∈ d.lists, P l

namespace EveryList

variable {P : List Decoration → Prop} {d : Decl}

theorem own (h : d.EveryList P) : P d.decorations := h _ d.decorations_mem_lists

theorem properties (h : d.EveryList P) : ∀ q ∈ d.properties, P q.decorations := by
  intro q hq
  cases d with
  | schema d =>
    refine h _ ?_
    rw [lists]
    exact List.mem_cons_of_mem _ (List.mem_map_of_mem hq)
  | _ => exact (List.not_mem_nil hq).elim

theorem members (h : d.EveryList P) : ∀ e ∈ d.members, e.EveryList P := by
  intro e he l hl
  cases d with
  | component ds name body span =>
    refine h l ?_
    rw [lists]
    exact List.mem_cons_of_mem _ (mem_listsAll.mpr ⟨e, he, hl⟩)
  | _ => exact (List.not_mem_nil he).elim

end EveryList

end Decl

/-- What some lists of decorations are known by; an empty list is not counted. -/
def Decoration.marks (lists : List (List Decoration)) : List Span := lists.filterMap mark?

end Provision
