import Provision.Proofs.Session.Signing

/-!
# The two types of a port

An input or an output of a component has a type in the signature, and one that its name is bound to
in the body. Both come from the same written type, resolved at two moments. If all its names were
known at the first and no member took one of them since, the two types are equal
(`Session.Signing.same_of_known`). If one of its names was not known, the signature lists `any`, and
the body has another type (`Session.Signing.not_same_of_unknown`).
-/

namespace Provision.Session

open List Table

variable {p : Program} {s t u x : Session} {σ : ScopeId} {name : Ident} {e : TypeExpr}

/-! ### Registering a port -/

theorem run_registerTyped (h : ((registerTyped name e).run s).2.findings = []) :
    ∃ type, s.resolveType e = .ok type ∧
      find? (s.scopes.bindings s.scopes.current) name.text = none ∧
      ((registerTyped name e).run s).2 = { s with scopes := s.scopes.set name.text type } := by
  unfold registerTyped at h ⊢
  rw [run_get_bind] at h ⊢
  cases hres : s.resolveType e with
  | error d =>
    rw [hres] at h
    exact absurd h (concat_ne_nil _ _)
  | ok type =>
    rw [hres] at h
    rcases run_declare s name type with ⟨hunb, hrun⟩ | ⟨d, hrun⟩
    · rw [hrun]
      exact ⟨type, rfl, hunb, rfl⟩
    · rw [hrun] at h
      exact absurd h (concat_ne_nil _ _)

theorem registerMember_of_port? {d : Decl} {port : Port}
    (h : d.port? = some (port, name, e)) : registerMember d = registerTyped name e := by
  cases d with
  | input d => cases h; rfl
  | output d => cases h; rfl
  | _ => cases h

theorem enlist_port {d : Decl} {port : Port} (hport : d.port? = some (port, name, e))
    (hlt : s.scopes.current < s.scopes.all.length) (h : (s.enlist d).findings = []) :
    ∃ type, s.resolveType e = .ok type ∧
      find? (s.scopes.bindings s.scopes.current) name.text = none ∧
      find? ((s.enlist d).scopes.bindings s.scopes.current) name.text = some type := by
  obtain ⟨registered, heq⟩ := enlist_eq s d
  rw [heq, registerMember_of_port? hport] at h ⊢
  obtain ⟨type, hres, hunb, hrun⟩ := run_registerTyped h
  refine ⟨type, hres, hunb, ?_⟩
  rw [hrun]
  exact Scopes.find?_bindings_set.trans (if_pos ⟨rfl, hlt, rfl⟩)

/-! ### Comparing the two -/

/-- Where a signature is read, a name can be used if it is that of a type of the body or of the top
level, or of a component that stands before. -/
def Usable (p : Program) (before body : List Decl) (n : String) : Prop :=
  n ∈ Decl.typeNames body ∨ n ∈ Decl.typeNames p.items ∨ n ∈ Decl.componentNames before

instance (p : Program) (before body : List Decl) (n : String) :
    Decidable (Usable p before body n) :=
  inferInstanceAs (Decidable (_ ∨ _ ∨ _))

namespace Signing

variable {before body earlier later : List Decl} {name : Ident} {d : Decl} {port : Port}
  {i : Ident} {e : TypeExpr} (h : Signing p s before name body σ u x)
include h

theorem introduces_member (earlier : List Decl) :
    Introduces (fun scope n => scope = σ → n ∈ Decl.memberNames earlier)
      (fun scope => scope ≠ σ ∧ scope ≠ ScopeId.global) u ((registerMembers earlier).run x).2 := by
  have hsta : Introduces (fun scope n => scope = σ → n ∈ Decl.memberNames earlier)
      (fun scope => scope ≠ σ ∧ scope ≠ ScopeId.global) u x :=
    h.introduces.mono (fun _ _ hne heq => absurd heq hne) fun _ hA => hA
  have hmems := introducing_registerMembers
    (W := fun scope n => scope = σ → n ∈ Decl.memberNames earlier)
    (A := fun scope => scope ≠ σ ∧ scope ≠ ScopeId.global) earlier (fun n hn _ => hn) x
    rfl h.coherent_start
  exact hsta.trans hmems.1

theorem denotes?_isSome_iff (n : String) :
    (find? (u.scopes.bindings σ) n).isSome ∨
      (find? (u.scopes.bindings ScopeId.global) n).isSome ↔ Usable p before body n := by
  rw [h.types, h.globals, Usable]

theorem denotes?_eq_none {n : String} (hn : ¬ Usable p before body n) : u.denotes? n = none := by
  rw [← h.denotes?_isSome_iff, not_or, Option.not_isSome_iff_eq_none,
    Option.not_isSome_iff_eq_none] at hn
  rw [h.nested.denotes?_eq, writtenIn?, writtenIn?, hn.1, hn.2]
  rfl

theorem not_allAny_of_denotes? {n : String} (hn : ¬ Usable p before body n) {type : Ty}
    (hden : ((registerMembers earlier).run x).2.denotes? n = some type) : ¬ type.AllAny := by
  have hmb := h.introduces_member earlier
  obtain ⟨scope, hsc, -, halias | hnominal⟩ :=
    (h.nested.introduces hmb).exists_of_denotes? hden
  · -- an alias was bound when the signature was read, so the name could be used
    have hold := (hmb.aliased halias).resolve_right fun hA => hsc.elim hA.1 hA.2
    obtain ⟨type', hty', -⟩ := h.coherent.alias_flat hold
    have hbd := Option.isSome_iff_exists.mpr ⟨type', hty'⟩
    refine absurd ((h.denotes?_isSome_iff n).mp ?_) hn
    rcases hsc with rfl | rfl
    · exact Or.inl hbd
    · exact Or.inr hbd
  · intro hall
    cases type with
    | schema schema props resources => cases hall _ (mem_singleton_self _)
    | component comp inst inputs outputs nested => cases hall _ (mem_singleton_self _)
    | _ => cases hnominal

/-- A written type with a name that cannot be used is listed as `any`, and its port is bound to
something else. -/
theorem listed_of_unusable {n : String} (hn : n ∈ e.names) (hunusable : ¬ Usable p before body n)
    {type : Ty} (hcoh : ((registerMembers earlier).run x).2.Coherent)
    (hty : ((registerMembers earlier).run x).2.resolveType e = .ok type) :
    u.listed e = .any ∧ ¬ type.AllAny := by
  have hnone : (u.resolveType e).toOption = none := by
    rw [resolveType_eq, TypeExpr.meaning_eq_none]
    exact ⟨n, hn, h.denotes?_eq_none hunusable⟩
  refine ⟨by rw [listed, hnone, Option.getD_none], fun hall => ?_⟩
  have hmean : e.meaning ((registerMembers earlier).run x).2.denotes? = some type := by
    rw [← resolveType_eq, hty]
    rfl
  obtain ⟨found, hfound, hany⟩ := TypeExpr.allAny_meaning
    (fun _ _ hden => (hcoh.denotes hden).1) e hmean hall n hn
  exact h.not_allAny_of_denotes? hunusable hfound hany

/-- A written type whose names can all be used, and were not taken since, is listed with the outline
of what its port is bound to. -/
theorem listed_of_usable (hnms : ∀ n ∈ e.names, Usable p before body n)
    (hfree : ∀ n ∈ e.names, n ∉ Decl.memberNames earlier) {type : Ty}
    (hty : ((registerMembers earlier).run x).2.resolveType e = .ok type) :
    (u.listed e).Flat ∧ (u.listed e).outline = type.outline := by
  have hview : ∀ n ∈ e.names, (u.denotes? n).map Ty.outline =
      (((registerMembers earlier).run x).2.denotes? n).map Ty.outline := by
    intro n hn
    have hbd := (h.denotes?_isSome_iff n).mpr (hnms n hn)
    refine (denotes?_outline_eq (h.introduces_member earlier) h.coherent h.nested
      ⟨fun hA => hA.1 rfl, fun hA => hA.2 rfl⟩ (hbd.imp_right fun hgl => ⟨hgl, ?_⟩)).symm
    exact fun hW => hfree n hn (hW rfl)
  have hotl : (e.meaning u.denotes?).map Ty.outline = some type.outline := by
    rw [TypeExpr.outline_meaning, TypeExpr.meaning_congr e hview, ← TypeExpr.outline_meaning,
      ← resolveType_eq, hty]
    rfl
  obtain ⟨found, hfound, heq⟩ := Option.map_eq_some_iff.mp hotl
  have hlst : u.listed e = found := by
    rw [listed, resolveType_eq, hfound, Option.getD_some]
  rw [hlst]
  exact ⟨TypeExpr.flat_meaning (fun _ _ hden => (h.coherent.denotes hden).1) e hfound, heq⟩

section Body

variable (hs : AtTop p s) (hcoh : s.Coherent)
  (hnil : ((registerProgram p.items).run s).2.findings = [])
  (hbody : body = earlier ++ d :: later) (hport : d.port? = some (port, i, e))
include hs hcoh hnil hbody hport

theorem registers_port : ∃ type, ((registerMembers earlier).run x).2.resolveType e = .ok type ∧
    find? (((registerMembers earlier).run x).2.scopes.bindings σ) i.text = none ∧
    find? ((((registerMembers earlier).run x).2.enlist d).scopes.bindings σ) i.text =
      some type := by
  have hcoming := (h.comes hbody).spec hs hcoh hnil
  have hregisters := enlist_port hport hcoming.current_lt hcoming.findings
  rwa [(h.nested.introduces (h.introduces_member earlier)).current] at hregisters

theorem name_ne : ∀ d' ∈ later, ∀ i' e', d'.port? = some (port, i', e') → i'.text ≠ i.text := by
  intro d' hd' i' e' hport' heq
  obtain ⟨between, rest, rfl⟩ := append_of_mem hd'
  have hbody' : body = (earlier ++ d :: between) ++ d' :: rest := by
    rw [hbody, append_assoc, cons_append]
  obtain ⟨type, -, -, hbd⟩ := h.registers_port hs hcoh hnil hbody hport
  obtain ⟨-, -, hunb, -⟩ := h.registers_port hs hcoh hnil hbody' hport'
  -- the name is bound since the first of the two was registered
  obtain ⟨type', hty', -⟩ := (retains_registerMembers between _).bound hbd
  rw [run_registerMembers_append, run_registerMembers_cons, heq, hty'] at hunb
  cases hunb

/-- The type that a signature lists for a port, and the one that the port is bound to from then
on. -/
theorem exists_port (ht : Lasting ((registerProgram p.items).run s).2 t) : ∃ bound,
    find? (((signatureOf name.text {} body).run u).1.ports port) i.text =
      some (u.listed e) ∧
    find? (t.scopes.bindings σ) i.text = some bound ∧
    ((∃ n ∈ e.names, ¬ Usable p before body n) →
      u.listed e = .any ∧ Ty.same (u.listed e) bound = false) ∧
    ((∀ n ∈ e.names, Usable p before body n ∧ n ∉ Decl.memberNames earlier) →
      Ty.same (u.listed e) bound = true) := by
  have hcoming := (h.comes hbody).spec hs hcoh hnil
  obtain ⟨type, hres, -, hreg⟩ := h.registers_port hs hcoh hnil hbody hport
  obtain ⟨bound, hbd, -, hcore⟩ := (hcoming.lasting.trans ht) hreg
  have hflat : type.Flat := (hcoming.coherent.resolveType hres).1
  have hlst : find? (((signatureOf name.text {} body).run u).1.ports port) i.text =
      some (u.listed e) := by
    have hnm := h.name_ne hs hcoh hnil hbody hport
    have hcomps := h.flat
    rw [hbody] at hcomps ⊢
    exact find?_signatureOf_port hcomps hport hnm name.text {}
  refine ⟨bound, hlst, hbd, ?_, fun hnms => ?_⟩
  · rintro ⟨n, hn, hunusable⟩
    obtain ⟨hany, hall⟩ := h.listed_of_unusable hn hunusable hcoming.coherent hres
    refine ⟨hany, Bool.eq_false_iff.mpr fun hsame => hall ?_⟩
    -- only `any` itself is the same as `any`, and only it has its core
    rw [hany] at hsame
    obtain rfl := Ty.eq_any_of_any_same hsame
    rw [Ty.eq_any_of_core hcore.symm]
    exact forall_mem_singleton.mpr rfl
  · obtain ⟨hflat', hotl⟩ := h.listed_of_usable (fun n hn => (hnms n hn).1)
      (fun n hn => (hnms n hn).2) hres
    refine hflat'.same_of_outline ?_
    rw [hotl, Ty.outline_of_core hcore hflat.params?]

end Body

end Signing

end Provision.Session
