import Provision.Proofs.Session.Findings
import Provision.Proofs.Session.Meaning

/-!
# The rounds in which aliases are bound

A round binds those aliases whose types can be resolved and puts off the others. Whatever the order,
aliases are bound one after the other, each to what is written for it with those before it
(`Session.Grown`). The rounds go on as long as one of them binds an alias, and what is left then is
reported (`Session.Expands.registerAliases`). A name that is taken is a finding as well.
-/

namespace Provision.Session

open List Table

variable {s t : Session} {all as : List AliasDecl} {bs : Table Ty} {n : String} {rounds : Nat}

/-! ### Bound aliases -/

theorem denotes?_set {name : String} {type : Ty} (hlt : s.scopes.current < s.scopes.all.length)
    (hscs : t.scopes = s.scopes.set name type)
    (hals : ∀ scope, name ≠ n → ((scope, n) ∈ t.aliases ↔ (scope, n) ∈ s.aliases))
    (hwr : (s.scopes.current, name) ∈ t.aliases ∨ type.isNominal = true) :
    t.denotes? n = if n = name then some type else s.denotes? n := by
  rw [denotes?, hscs, Scopes.resolve_set hlt]
  by_cases hn : n = name
  · subst hn
    rw [if_pos rfl, if_pos rfl]
    have hwr : (t.aliases.contains (s.scopes.current, n) || type.isNominal) = true :=
      Bool.or_eq_true_iff.mpr (hwr.imp_left contains_iff_mem.mpr)
    dsimp only
    rw [if_pos hwr]
  · rw [if_neg hn, if_neg hn]
    have hsame : ∀ scope, t.aliases.contains (scope, n) = s.aliases.contains (scope, n) := by
      intro scope
      rw [Bool.eq_iff_iff, contains_iff_mem, contains_iff_mem]
      exact hals scope (Ne.symm hn)
    simp only [hsame, denotes?]

/-- The session in which some aliases are bound, the last one first. -/
def withAliases (s : Session) : Table Ty → Session
  | [] => s
  | b :: bs => (s.withAliases bs).bindAlias b

theorem current_withAliases (bs : Table Ty) :
    (s.withAliases bs).scopes.current = s.scopes.current ∧
      (s.withAliases bs).scopes.all.length = s.scopes.all.length := by
  induction bs with
  | nil => exact ⟨rfl, rfl⟩
  | cons b bs ih => exact ⟨ih.1, Scopes.length_modifyBindings.trans ih.2⟩

theorem mem_aliases_withAliases (bs : Table Ty) (x : ScopeId × String) :
    x ∈ (s.withAliases bs).aliases ↔ x ∈ s.aliases ∨ x.1 = s.scopes.current ∧ x.2 ∈ bs.names := by
  induction bs with
  | nil => simp [withAliases, names]
  | cons b bs ih =>
    have hcur := (current_withAliases (s := s) bs).1
    simp only [withAliases, bindAlias, mem_cons, ih, names, map_cons, hcur,
      Prod.ext_iff]
    tauto

theorem findings_withAliases (bs : Table Ty) : (s.withAliases bs).findings = s.findings := by
  induction bs with
  | nil => rfl
  | cons b bs ih => exact ih

section Lookup

variable (hlt : s.scopes.current < s.scopes.all.length) (bs : Table Ty)

include hlt

theorem current_lt_withAliases :
    (s.withAliases bs).scopes.current < (s.withAliases bs).scopes.all.length := by
  obtain ⟨hcur, hlen⟩ := current_withAliases (s := s) bs
  rwa [hcur, hlen]

theorem get?_withAliases :
    (s.withAliases bs).scopes.get? n = (find? bs n).or (s.scopes.get? n) := by
  induction bs with
  | nil => rfl
  | cons b bs ih =>
    have hset : (s.withAliases (b :: bs)).scopes.get? n = _ :=
      Scopes.get?_set (current_lt_withAliases hlt bs)
    rw [hset, Table.find?_cons, ih]
    split <;> rfl

theorem denotes?_withAliases :
    (s.withAliases bs).denotes? n = (find? bs n).or (s.denotes? n) := by
  induction bs with
  | nil => rfl
  | cons b bs ih =>
    have hset : (s.withAliases (b :: bs)).denotes? n = _ :=
      denotes?_set (current_lt_withAliases hlt bs) rfl
        (fun _ hne => by simp [withAliases, bindAlias, hne.symm]) (Or.inl mem_cons_self)
    rw [hset, Table.find?_cons, ih]
    split <;> rfl

end Lookup

/-! ### A round -/

/-- A round puts off no more aliases than it gets. If it puts off all of them, it does nothing
else. -/
theorem length_bindAliases (as : List AliasDecl) (s : Session) :
    ((bindAliases as).run s).1.length ≤ as.length ∧
      (((bindAliases as).run s).1.length = as.length → (bindAliases as).run s = (as, s) ∧
        ∀ a ∈ as, ∃ d, s.resolveType a.type = .error d) := by
  induction as generalizing s with
  | nil => exact ⟨le_rfl, fun _ => ⟨rfl, forall_mem_nil _⟩⟩
  | cons b as ih =>
    cases hres : s.resolveType b.type with
    | error d =>
      obtain ⟨hle, heq⟩ := ih s
      rw [run_bindAliases_of_error hres, length_cons, length_cons]
      refine ⟨Nat.succ_le_succ hle, fun hlen => ?_⟩
      obtain ⟨hsame, herrs⟩ := heq (Nat.succ_injective hlen)
      rw [hsame]
      exact ⟨rfl, forall_mem_cons.mpr ⟨⟨d, hres⟩, herrs⟩⟩
    | ok type =>
      -- an alias that can be resolved is not put off
      have hlt : ∀ u, ((bindAliases as).run u).1.length < (b :: as).length := fun u =>
        Nat.lt_succ_of_le (ih u).1
      rcases run_bindAliases_of_ok as hres with ⟨-, hrun⟩ | ⟨d, -, hrun⟩
      · rw [hrun]
        exact ⟨(hlt _).le, fun hlen => absurd hlen (hlt _).ne⟩
      · rw [hrun]
        exact ⟨(hlt _).le, fun hlen => absurd hlen (hlt _).ne⟩

/-- Aliases are bound one after the other, each to what is written for it with those before it. -/
inductive Grown (s : Session) (as : List AliasDecl) : Table Ty → Prop
  | nil : Grown s as []
  | cons {a : AliasDecl} {type : Ty} {bs : Table Ty} (h : Grown s as bs) (ha : a ∈ as)
      (hfree : (s.withAliases bs).scopes.get? a.name.text = none)
      (hty : (s.withAliases bs).resolveType a.type = .ok type) :
      Grown s as ((a.name.text, type) :: bs)

theorem Grown.moves {R : Session → Session → Prop} [IsPreorder Session R]
    (hR : Binds (fun _ => True) R) (h : Grown s as bs) : R s (s.withAliases bs) := by
  induction h with
  | nil => exact Std.Refl.refl s
  | cons _ _ hfree hty ih => exact IsTrans.trans _ _ _ ih (hR.bindAlias trivial hty hfree)

theorem Grown.nodup (hlt : s.scopes.current < s.scopes.all.length) (h : Grown s as bs) :
    bs.names.Nodup ∧ ∀ n ∈ bs.names, s.scopes.get? n = none := by
  induction h with
  | nil => exact ⟨nodup_nil, forall_mem_nil _⟩
  | cons _ _ hfree _ ih =>
    rw [get?_withAliases hlt, Option.or_eq_none_iff] at hfree
    exact ⟨nodup_cons.mpr ⟨find?_eq_none_iff.mp hfree.1, ih.1⟩,
      forall_mem_cons.mpr ⟨hfree.2, ih.2⟩⟩

/-- Some aliases are bound, and the others are pending. -/
structure Expands (s : Session) (all : List AliasDecl) (bs : Table Ty) (pending : List AliasDecl) :
    Prop where
  names : (bs.names ++ pending.map (·.name.text)).Perm (all.map (·.name.text))
  sublist : pending.Sublist all
  grown : Grown s all bs

def Taken (s : Session) (all : List AliasDecl) : Prop :=
  ∃ bs pending, Expands s all bs pending ∧
    ∃ a ∈ pending, (s.withAliases bs).scopes.get? a.name.text ≠ none

theorem expands_nil (s : Session) (all : List AliasDecl) : Expands s all [] all :=
  ⟨Perm.refl _, Sublist.refl _, .nil⟩

theorem binds_notes : Binds (fun _ => True) Notes := ⟨notes_report, fun _ _ _ => notes_of_eq rfl⟩

namespace Expands

variable {pending off : List AliasDecl}

section Names

variable (h : Expands s all bs pending) (hnd : (all.map (·.name.text)).Nodup)
include h hnd

theorem nodup : (bs.names ++ pending.map (·.name.text)).Nodup := h.names.nodup_iff.mpr hnd

theorem find?_of_mem {a : AliasDecl} (ha : a ∈ pending) : find? bs a.name.text = none := by
  have hnot : a.name.text ∉ bs.names := fun hmem =>
    (nodup_append.mp (h.nodup hnd)).2.2 _ hmem _ (mem_map_of_mem ha) rfl
  exact find?_eq_none_iff.mpr hnot

end Names

/-- A round binds what can be resolved, unless a name is taken. -/
theorem bindAliases (off : List AliasDecl) (h : Expands s all bs (off ++ as)) :
    (∃ bs', ((Session.bindAliases as).run (s.withAliases bs)).2 = s.withAliases bs' ∧
      Expands s all bs' (off ++ ((Session.bindAliases as).run (s.withAliases bs)).1)) ∨
    Taken s all ∧ ((Session.bindAliases as).run (s.withAliases bs)).2.findings ≠ [] := by
  induction as generalizing bs off with
  | nil => exact Or.inl ⟨bs, rfl, h⟩
  | cons a as ih =>
    have hmem : a ∈ off ++ a :: as := mem_append_right _ mem_cons_self
    cases hres : (s.withAliases bs).resolveType a.type with
    | ok type =>
      rcases run_bindAliases_of_ok as hres with ⟨hfree, hrun⟩ | ⟨d, htaken, hrun⟩
      · rw [hrun]
        refine ih off ⟨?_, ((sublist_cons_self a as).append_left off).trans h.sublist,
          h.grown.cons (h.sublist.subset hmem) hfree hres⟩
        refine Perm.trans ?_ h.names
        simp only [map_append, map_cons]
        exact perm_middle.symm.trans (perm_middle.symm.append_left _)
      · refine Or.inr ⟨⟨bs, _, h, a, hmem, htaken⟩, fun hnil => ?_⟩
        rw [hrun] at hnil
        have hrep := (binds_notes.bindAliases (fun _ _ => trivial) _).findings_eq_nil hnil
        exact absurd hrep (concat_ne_nil _ _)
    | error d =>
      rw [run_bindAliases_of_error hres]
      have hoff : ∀ l, off ++ a :: l = off ++ [a] ++ l := fun l => by simp
      rw [hoff] at h ⊢
      exact ih (off ++ [a]) h

end Expands

theorem not_taken (hlt : s.scopes.current < s.scopes.all.length)
    (hnd : (all.map (·.name.text)).Nodup)
    (hfree : ∀ a ∈ all, s.scopes.get? a.name.text = none) : ¬ Taken s all := by
  rintro ⟨bs, pending, h, a, ha, htaken⟩
  rw [get?_withAliases hlt, h.find?_of_mem hnd ha, Option.none_or] at htaken
  exact htaken (hfree a (h.sublist.subset ha))

/-! ### All rounds -/

theorem resolveType_findings (s : Session) (findings : List Diagnostic) (e : TypeExpr) :
    ({ s with findings } : Session).resolveType e = s.resolveType e :=
  resolveType_congr (s := s) (t := { s with findings }) (fun _ => rfl) (fun _ => rfl) e

theorem run_reportAliases (h : ∀ a ∈ as, ∃ d, s.resolveType a.type = .error d) :
    ∃ errors, (reportAliases as).run s = ((), { s with findings := s.findings ++ errors }) ∧
      Forall₂ (fun a d => s.resolveType a.type = .error d) as errors := by
  induction as generalizing s with
  | nil => exact ⟨[], by rw [append_nil]; rfl, .nil⟩
  | cons a as ih =>
    obtain ⟨⟨d, hd⟩, has⟩ := forall_mem_cons.mp h
    have hsame := resolveType_findings s (s.findings ++ [d])
    obtain ⟨errors, hrun, herrs⟩ := ih (s := { s with findings := s.findings ++ [d] })
      fun b hb => by rw [hsame]; exact has b hb
    refine ⟨d :: errors, ?_, .cons hd (herrs.imp fun b d hb => hsame b.type ▸ hb)⟩
    rw [reportAliases, run_get_bind]
    simp only [hd]
    refine hrun.trans ?_
    simp

theorem run_registerAliases_succ (rounds : Nat) (h : as ≠ []) :
    (registerAliases (rounds + 1) as).run s =
      if ((bindAliases as).run s).1.length = as.length then
        (reportAliases ((bindAliases as).run s).1).run ((bindAliases as).run s).2
      else (registerAliases rounds ((bindAliases as).run s).1).run ((bindAliases as).run s).2 := by
  rw [registerAliases, run_bind]
  · split <;> rfl
  · exact h

theorem run_registerAliases_eq {rounds' : Nat} (h : as.length < rounds) (h' : as.length < rounds') :
    (registerAliases rounds as).run s = (registerAliases rounds' as).run s := by
  induction rounds generalizing rounds' as s with
  | zero => exact absurd h (Nat.not_lt_zero _)
  | succ rounds ih =>
    cases as with
    | nil =>
      cases rounds' with
      | zero => exact absurd h' (Nat.not_lt_zero _)
      | succ rounds' => rfl
    | cons a as =>
      obtain ⟨rounds', rfl⟩ := Nat.exists_eq_add_of_le' (Nat.succ_le_of_lt (Nat.zero_lt_of_lt h'))
      obtain ⟨hle, -⟩ := length_bindAliases (a :: as) s
      rw [run_registerAliases_succ _ (cons_ne_nil a as),
        run_registerAliases_succ _ (cons_ne_nil a as)]
      split
      · rfl
      · next hlen => exact ih (by omega) (by omega)

/-- With rounds enough the aliases that cannot be resolved in the end are reported, each of them,
and the others are bound, unless a name is taken. -/
theorem Expands.registerAliases {pending : List AliasDecl} (h : Expands s all bs pending)
    (hrounds : pending.length < rounds) :
    (∃ bs' stuck errors, (Session.registerAliases rounds pending).run (s.withAliases bs) =
        ((), { s.withAliases bs' with findings := s.findings ++ errors }) ∧
      Expands s all bs' stuck ∧
      (∀ a ∈ stuck, ∃ d, (s.withAliases bs').resolveType a.type = .error d) ∧
      Forall₂ (fun a d => (s.withAliases bs').resolveType a.type = .error d) stuck errors) ∨
    Taken s all ∧
      ((Session.registerAliases rounds pending).run (s.withAliases bs)).2.findings ≠ [] := by
  induction rounds generalizing bs pending with
  | zero => exact absurd hrounds (Nat.not_lt_zero _)
  | succ rounds ih =>
    cases pending with
    | nil =>
      refine Or.inl ⟨bs, [], [], ?_, h, forall_mem_nil _, .nil⟩
      rw [append_nil, ← findings_withAliases bs]
      rfl
    | cons a as =>
      rw [run_registerAliases_succ _ (cons_ne_nil a as)]
      obtain ⟨hle, hsame⟩ := length_bindAliases (a :: as) (s.withAliases bs)
      split
      · next hlen =>
        obtain ⟨hrun, herrs⟩ := hsame hlen
        rw [hrun]
        obtain ⟨errors, hrep, hreports⟩ := run_reportAliases herrs
        rw [findings_withAliases] at hrep
        exact Or.inl ⟨bs, a :: as, errors, hrep, h, herrs, hreports⟩
      · next hlen =>
        rcases Expands.bindAliases [] h with ⟨bs', hrun, hexp⟩ | ⟨htaken, hfs⟩
        · rw [hrun]
          exact ih hexp (by omega)
        · exact Or.inr ⟨htaken, fun hnil => hfs
            ((binds_notes.registerAliases rounds (fun _ _ => trivial) _).findings_eq_nil hnil)⟩

/-- Without findings, every alias gets bound. -/
theorem grown_registerAliases (hlt : s.scopes.current < s.scopes.all.length)
    (hrounds : as.length < rounds) (hnil : ((registerAliases rounds as).run s).2.findings = []) :
    ∃ bs, (registerAliases rounds as).run s = ((), s.withAliases bs) ∧ Grown s as bs ∧
      bs.names.Perm (as.map (·.name.text)) ∧ (as.map (·.name.text)).Nodup ∧
      ∀ a ∈ as, s.scopes.get? a.name.text = none := by
  rcases (expands_nil s as).registerAliases hrounds with
    ⟨bs, stuck, errors, hrun, hexp, -, hstuck⟩ | ⟨-, hfs⟩
  · have hrun : (registerAliases rounds as).run s =
        ((), { s.withAliases bs with findings := s.findings ++ errors }) := hrun
    rw [hrun] at hnil
    obtain ⟨hnone, rfl⟩ := append_eq_nil_iff.mp hnil
    cases hstuck
    have hnms : bs.names.Perm (as.map (·.name.text)) := by
      have hnms := hexp.names
      rwa [map_nil, append_nil] at hnms
    obtain ⟨hnd, hfree⟩ := hexp.grown.nodup hlt
    refine ⟨bs, ?_, hexp.grown, hnms, hnms.nodup_iff.mp hnd, fun a ha =>
      hfree _ (hnms.mem_iff.mpr (mem_map_of_mem ha))⟩
    rw [hrun, append_nil, ← findings_withAliases bs]
  · exact absurd hnil hfs

end Provision.Session
