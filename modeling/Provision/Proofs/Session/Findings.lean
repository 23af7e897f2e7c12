import Provision.Proofs.Session.Orders
import Provision.Proofs.Session.Traversal

/-!
# No finding is withdrawn

Whatever a check of declarations or of orders does, the findings before it stay
(`Session.notes_checkDecls`, `Session.notes_linkComponents`). So a check that ends without findings
never had one.
-/

namespace Provision.Session

variable {k : Checker} {s t : Session}

/-- The findings of one session are still there in another. -/
def Notes (s t : Session) : Prop := s.findings <+: t.findings

instance : IsPreorder Session Notes where
  refl _ := List.prefix_rfl
  trans _ _ _ h h' := List.IsPrefix.trans h h'

theorem Notes.findings_eq_nil (h : Notes s t) (ht : t.findings = []) : s.findings = [] :=
  List.prefix_nil.mp (ht ▸ h)

theorem notes_of_eq (h : t.findings = s.findings) : Notes s t := by
  rw [Notes, h]

theorem notes_of_frame {m : Checking α} (h : Moves Frame m) : Moves Notes m :=
  fun s => (h s).findings

/-! ### Expressions -/

theorem notes_report (d : Diagnostic) : Moves Notes (report d) := notes_of_frame (frame_report d)

theorem notes_declare (name : Ident) (type : Ty) : Moves Notes (declare name type) := fun s =>
  of_declare (P := Notes s) name (fun _ => notes_of_eq rfl) fun d => notes_report d s

theorem Books.notes (h : Books s t) : Notes s t := by
  obtain ⟨_, _, _, rfl⟩ := h
  exact notes_of_eq rfl

/-- No check takes a finding back. -/
theorem traversed_notes : Traversed k Notes where
  report := notes_report
  infer e expected s := (books_infer e expected s).notes
  runDecorators ds site type value := notes_of_frame (frame_runDecorators ds site type value)
  depend x scope y kind s := (books_depend x scope y kind s).notes
  record x ds := notes_of_frame (frame_recordDecorations x ds)
  declare := notes_declare
  readingFor x _ hm s := hm (s.readingFor x)
  inChild hm s := hm s.inChild
  refine _ _ := notes_of_eq rfl
  inBody comp scope _ hm s := hm (s.inside comp scope)

theorem notes_checkDecls (ds : List Decl) : Moves Notes (checkDecls k ds) :=
  traversed_notes.checkDecls ds

theorem unbound_of_checkVariable {d : VarDecl} (hty : d.type = none)
    (hfs : ((checkVariable k d).run s).2.findings = []) :
    Table.find? (s.scopes.bindings s.scopes.current) d.name.text = none := by
  have hlast : Notes ((variableType? k d).run s).2 ((checkVariable k d).run s).2 := by
    unfold checkVariable
    rw [run_bind]
    split
    · exact traversed_notes.runDecorators _ _ _ _ _
    · exact Std.Refl.refl (r := Notes) _
  have hnil := hlast.findings_eq_nil hfs
  have hstd : Steady s ((inferred? k d.value).run s).2 := respected_steady.inferred? d.value s
  rw [run_variableType?_none hty] at hnil
  rcases run_declare ((inferred? k d.value).run s).2 d.name
    ((((inferred? k d.value).run s).1).getD .any) with ⟨hnone, -⟩ | ⟨finding, hrun⟩
  · rwa [hstd.scopes] at hnone
  · rw [hrun] at hnil
    exact absurd hnil (List.concat_ne_nil _ _)

/-! ### Orders -/

theorem moves_linkComponents {R : Session → Session → Prop} [IsPreorder Session R]
    (hrep : ∀ d, Moves R (report d)) (hnoting : Noting R) : Moves R linkComponents := by
  have hinherit : ∀ names, Moves R (inheritExternals names) := by
    intro names
    induction names with
    | nil => exact Moves.pure _
    | cons name names ih =>
      rw [inheritExternals]
      exact Moves.get_bind fun s => Moves.bind (hnoting.external name _) (fun _ => ih) s
  have hlink : ∀ ls, Moves R (linkExternals ls) := by
    intro ls
    induction ls with
    | nil => exact Moves.pure _
    | cons l ls ih =>
      rw [linkExternals]
      exact Moves.bind (hnoting.edge _ _ _ _) fun _ =>
        Moves.bind (hnoting.dependency _ _) fun _ => ih
  unfold linkComponents
  refine Moves.get_bind fun s => ?_
  split
  · exact Moves.bind (hinherit _) (fun _ => Moves.get_bind fun s => hlink _ s) s
  · exact Moves.bind (hrep _) (fun _ => Moves.get_bind fun s => hlink _ s) s

theorem notes_linkComponents : Moves Notes linkComponents :=
  moves_linkComponents notes_report
    ⟨fun _ _ _ _ _ => notes_of_eq rfl, fun _ _ _ => notes_of_eq rfl, fun _ _ _ => notes_of_eq rfl⟩

theorem notes_orderBodies (o : Orders) (bs : List (ScopeId × Body)) :
    Moves Notes (orderBodies o bs) := by
  induction bs generalizing o with
  | nil => exact Moves.pure _
  | cons b bs ih =>
    rw [orderBodies]
    split
    · exact ih _
    · exact Moves.bind (notes_report _) fun _ => ih _

end Provision.Session
