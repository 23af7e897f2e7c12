import Provision.Proofs.Session.Coupling
import Provision.Proofs.Session.Traversal

/-!
# Checks of instances can change places

The check of an instance leaves notes, and does not change how the session looks
(`Session.rests_checkDecl`). So the check of another one comes to the same whether it is made before
or after (`Session.twin_swap`). Steps of which two can change places can be taken in any order
(`Session.Exchangeable.foldl_perm`), and so the order in which instances are checked does not show
(`Session.Twin.checkDecls_perm`).
-/

namespace Provision.Session

open List

variable {k : Checker} {s t u : Session}

/-! ### Twins -/

namespace Twin

theorem refl (h : Sound s) : Twin s s := ⟨.refl h, rfl⟩

theorem trans (h : Twin s t) (h' : Twin t u) : Twin s u :=
  ⟨h.toMirrors.trans h'.toMirrors, h'.notes.trans h.notes⟩

theorem has_iff (h : Twin s t) (n : Note) : t.Has n ↔ s.Has n := Set.ext_iff.mp h.notes n

theorem couples {α β : Type} {Q : α → β → Prop} {m : Checking α} {m' : Checking β}
    (h : Twin s t) (hm : Couples Q m m') : Twin (m.run s).2 (m'.run t).2 := by
  obtain ⟨hmir, new, hs, ht⟩ := hm.coupled h.toMirrors
  exact ⟨hmir, by rw [hs, ht, h.notes]⟩

end Twin

theorem twin_swap {m m' : Checking Unit} (hm : Couples Eq m m) (hm' : Couples Eq m' m')
    (hrst : Moves Rests m) (hrst' : Moves Rests m') (hs : Sound s) :
    Twin (m'.run (m.run s).2).2 (m.run (m'.run s).2).2 := by
  have hfst : Mirrors s (m.run s).2 := hrst s hs
  have hfst' : Mirrors s (m'.run s).2 := hrst' s hs
  have hsnd := hrst' _ hfst.sound'
  have hsnd' := hrst _ hfst'.sound'
  -- each check leaves the same notes in the first place and in the second
  obtain ⟨-, new, hnew, hlater⟩ := hm.coupled hfst'
  obtain ⟨-, new', hnew', hlater'⟩ := hm'.coupled hfst
  refine ⟨(hsnd.symm.trans (hfst.symm.trans hfst')).trans hsnd', ?_⟩
  calc ((m.run (m'.run s).2).2).notes = s.notes ∪ new' ∪ new := by rw [hlater, hnew']
    _ = s.notes ∪ new ∪ new' := Set.union_right_comm _ _ _
    _ = ((m'.run (m.run s).2).2).notes := by rw [hlater', hnew]

/-! ### What a check of an instance leaves alone -/

theorem noting_rests : Noting Rests where
  edge := rests_addEdge
  external := rests_addExternals
  dependency x _ := rests_modifyInstance x _

theorem rests_infer (e : Expr) (expected : Option Ty) : Moves Rests (infer k e expected).run := by
  refine (closed_moves (fun span m hm s => ?_) fun {s n scope type} _ _ =>
    noting_rests.noteRead scope n s).infer e expected
  rw [run_nested]
  split
  · intro hs
    have hmir := hm { s with depth := s.depth + 1 } hs
    exact { hmir with depth := by rw [hmir.depth]; rfl }
  · exact Std.Refl.refl s

theorem respected_rests : Respected k Rests where
  report := rests_report
  infer := rests_infer
  runDecorators := moves_runDecorators rests_report fun _ _ _ _ _ hs => { Mirrors.refl hs with }

theorem instanced_rests : Instanced k Rests where
  toValued := respected_rests.toValued
  depend := noting_rests.depend
  record x _ := rests_modifyInstance x _
  readingFor x _ hm s hs := { hm (s.readingFor x) hs with reader := rfl }

/-- The check of an instance does not change how the session looks. -/
theorem rests_checkDecl {d : Decl} (hd : d.instanceName?.isSome) : Moves Rests (checkDecl k d) :=
  instanced_rests.checkDecl respected_rests hd

/-! ### Any order -/

/-- Steps over declarations that keep a relation, and two of which can change places if their
declarations are apart. -/
structure Exchangeable (R : Session → Session → Prop) (step : Session → Decl → Session)
    (Fit : Decl → Prop) (Apart : Decl → Decl → Prop) : Prop where
  trans : ∀ {s t u}, R s t → R t u → R s u
  right : ∀ {s t}, R s t → R t t
  keeps : ∀ {s t d}, Fit d → R s t → R (step s d) (step t d)
  swaps : ∀ {s d e}, Fit d → Fit e → Apart d e → R s s → R (step (step s d) e) (step (step s e) d)
  symm : ∀ {d e}, Apart d e → Apart e d

namespace Exchangeable

variable {R : Session → Session → Prop} {step : Session → Decl → Session} {Fit : Decl → Prop}
  {Apart : Decl → Decl → Prop} {ds es : List Decl}

theorem foldl (hx : Exchangeable R step Fit Apart) (hds : ∀ d ∈ ds, Fit d) (hst : R s t) :
    R (ds.foldl step s) (ds.foldl step t) := by
  induction ds generalizing s t with
  | nil => exact hst
  | cons d ds ih =>
    obtain ⟨hd, hds⟩ := forall_mem_cons.mp hds
    exact ih hds (hx.keeps hd hst)

theorem foldl_perm (hx : Exchangeable R step Fit Apart) (h : ds.Perm es) (hds : ∀ d ∈ ds, Fit d)
    (hapart : ds.Pairwise Apart) (hst : R s t) : R (ds.foldl step s) (es.foldl step t) := by
  induction h generalizing s t with
  | nil => exact hst
  | cons d _ ih =>
    obtain ⟨hd, hds⟩ := forall_mem_cons.mp hds
    exact ih hds (pairwise_cons.mp hapart).2 (hx.keeps hd hst)
  | swap d e rest =>
    obtain ⟨he, hds⟩ := forall_mem_cons.mp hds
    obtain ⟨hd, hds⟩ := forall_mem_cons.mp hds
    have hed : Apart e d := (pairwise_cons.mp hapart).1 d mem_cons_self
    -- first the same two steps on both sides, then the other order on the right
    have hsame := hx.keeps hd (hx.keeps he hst)
    exact hx.foldl hds (hx.trans hsame (hx.swaps he hd hed (hx.right hst)))
  | trans hperm _ ih ih' =>
    have hmiddle := ih hds hapart hst
    exact hx.trans hmiddle (ih' (fun d hd => hds d (hperm.mem_iff.mpr hd))
      ((hperm.pairwise_iff hx.symm).mp hapart) (hx.right hst))

end Exchangeable

theorem run_checkDecls (ds : List Decl) :
    ((checkDecls k ds).run s).2 = ds.foldl (fun s d => ((checkDecl k d).run s).2) s := by
  induction ds generalizing s with
  | nil =>
    rw [checkDecls]
    rfl
  | cons d ds ih => rw [run_checkDecls_cons, ih, foldl_cons]

theorem exchangeable_checkDecl (hk : k.registry.Extensional) :
    Exchangeable Twin (fun s d => ((checkDecl k d).run s).2) (·.instanceName?.isSome)
      fun _ _ => True where
  trans := Twin.trans
  right h := .refl h.sound'
  keeps _ h := h.couples (couples_checkDecl hk _)
  swaps hd he _ h := twin_swap (couples_checkDecl hk _) (couples_checkDecl hk _)
    (rests_checkDecl hd) (rests_checkDecl he) h.sound
  symm := id

/-- The order in which instances are checked does not matter. -/
theorem Twin.checkDecls_perm (hk : k.registry.Extensional) {ds es : List Decl} (h : ds.Perm es)
    (hds : ∀ d ∈ ds, d.instanceName?.isSome) (hst : Twin s t) :
    Twin ((checkDecls k ds).run s).2 ((checkDecls k es).run t).2 := by
  rw [run_checkDecls, run_checkDecls]
  exact (exchangeable_checkDecl hk).foldl_perm h hds
    (pairwise_of_forall fun _ _ => trivial) hst

end Provision.Session
