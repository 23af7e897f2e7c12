import Provision.Proofs.Session.Entry
import Provision.Proofs.Session.Exchange

/-!
# Instances of the top level can be registered in any order

Registering an instance of the top level makes an entry, or is a finding
(`Session.run_registerMember`). Whether it has an entry, and which, does not depend on the instances
before it that have other names (`Session.entryFor?_enrol`), so two neighbours can change places
(`Session.enrolling_swap`), and with them all instances (`Session.Enrolling.registerMembers_perm`).
-/

namespace Provision.Session

open List

variable {p : Program} {s t u : Session} {d : Decl} {e : Entry}

/-- The entry of a declaration at the top level; its name must not be taken. -/
def entryFor? (s : Session) (d : Decl) : Option Entry :=
  match s.scopes.get? d.name.text with
  | some _ => none
  | none => (d.model?.bind s.scopes.get?).bind d.entryOf?

/-- The session with a new instance under a qualified name. -/
def enrolAs (s : Session) (e : Entry) (x : String) : Session :=
  { s with
    scopes := e.bind s.scopes
    registered := e.name.span :: s.registered
    components := e.tell x s.components
    bodies := s.bodies.map fun b =>
      if b.1 = s.body then (b.1, { b.2 with graph := (b.2.graph.addNode x).2 }) else b
    instances := s.instances.insert x
      { name := x, kind := e.kind, component := s.component, span := e.span } }

def enrol (s : Session) (e : Entry) : Session := s.enrolAs e (s.qualified e.name.text)

theorem enrol_eq (s : Session) (e : Entry) :
    s.enrol e = s.enrolAs e ((e.bind s.scopes).qualify s.scopes.current e.name.text) := by
  rw [enrol, qualified, Entry.qualify_bind]

theorem AtTop.lookup (hs : AtTop p s) (n : String) : s.scopes.lookup n =
      match s.scopes.get? n with
      | some type => .ok type
      | none => .error (.notFound n) := by
  have hchain : s.scopes.chain s.scopes.current = [s.scopes.current] := by
    rw [hs.current]
    simpa [hs.component_none] using hs.chain hs.bodyAt
  unfold Scopes.lookup Scopes.resolve
  rw [hchain, findSome?_singleton]
  unfold Scopes.bindingIn? Scopes.get?
  cases Table.find? (s.scopes.bindings s.scopes.current) n <;> rfl

/-- An instance is entered, or there is a finding, which is no cycle. -/
theorem run_registerMember (hs : AtTop p s) (hd : d.instanceName?.isSome) :
    (∃ e, s.entryFor? d = some e ∧ e.name = d.name ∧
      (registerMember d).run s = (true, { s.enrol e with registered := s.registered })) ∨
      s.entryFor? d = none ∧ ∃ f : Diagnostic, f.isCycle = false ∧
        (registerMember d).run s = (false, { s with findings := s.findings ++ [f] }) := by
  cases d with
  | resource d =>
    rw [entryFor?, registerMember, registerResource, run_get_bind]
    dsimp only [Decl.name, Decl.model?, Option.bind_some]
    rw [hs.lookup]
    cases s.scopes.get? d.schema.text with
    | none => exact Or.inr ⟨by split <;> rfl, _, rfl, rfl⟩
    | some type =>
      cases type with
      | schema kind props resources =>
        rw [run_bind, run_declare_of_get?]
        cases s.scopes.get? d.name.text with
        | some _ => exact Or.inr ⟨rfl, _, rfl, rfl⟩
        | none =>
          refine Or.inl ⟨_, rfl, rfl, ?_⟩
          rw [enrol_eq]
          rfl
      | _ => exact Or.inr ⟨by split <;> rfl, _, rfl, rfl⟩
  | inst d =>
    rw [entryFor?, registerMember, registerInstance, run_get_bind]
    dsimp only [Decl.name, Decl.model?, Option.bind_some]
    rw [hs.lookup]
    cases s.scopes.get? d.component.text with
    | none => exact Or.inr ⟨by split <;> rfl, _, rfl, rfl⟩
    | some type =>
      cases type with
      | component kind inst inputs outputs nested =>
        cases inst with
        | some _ => exact Or.inr ⟨by split <;> rfl, _, rfl, rfl⟩
        | none =>
          rw [run_bind, run_declare_of_get?]
          cases s.scopes.get? d.name.text with
          | some _ => exact Or.inr ⟨rfl, _, rfl, rfl⟩
          | none =>
            -- the top level is in no component, so the component of the instance gets to know it
            refine Or.inl ⟨_, rfl, rfl, ?_⟩
            rw [enrol_eq]
            rw [if_pos rfl, run_bind, run_get_bind]
            split
            · next outer houter => cases hs.component_none.symm.trans houter
            · rfl
      | _ => exact Or.inr ⟨by split <;> rfl, _, rfl, rfl⟩
  | _ => cases hd

theorem enlist_of_entryFor? (hs : AtTop p s)
    (hd : d.instanceName?.isSome) (he : s.entryFor? d = some e) : s.enlist d = s.enrol e := by
  rw [enlist, registerMembers, run_bind]
  rcases run_registerMember hs hd with ⟨e', he', hnm, hrun⟩ | ⟨hnot, -⟩
  · obtain rfl : e = e' := Option.some.inj (he.symm.trans he')
    rw [hrun, ← hnm]
    rfl
  · cases he.symm.trans hnot

theorem enlist_of_none (hs : AtTop p s) (hd : d.instanceName?.isSome) (he : s.entryFor? d = none) :
    ∃ f : Diagnostic, f.isCycle = false ∧ s.enlist d = ((report f).run s).2 := by
  rw [enlist, registerMembers, run_bind]
  rcases run_registerMember hs hd with ⟨e, he', -⟩ | ⟨-, f, hf, hrun⟩
  · cases he.symm.trans he'
  · refine ⟨f, hf, ?_⟩
    rw [hrun]
    rfl

/-! ### Entries in a session -/

theorem fits_of_entryFor? (h : s.entryFor? d = some e) : e.name = d.name ∧ e.Fits s.scopes := by
  unfold entryFor? at h
  cases hnm : s.scopes.get? d.name.text with
  | some _ => rw [hnm] at h; cases h
  | none =>
    rw [hnm] at h
    cases d with
    | resource d =>
      obtain ⟨type, hty, hent⟩ := Option.bind_eq_some_iff.mp h
      cases type with
      | schema _ _ _ =>
        cases hent
        refine ⟨rfl, hnm, fun n hn => ?_, rfl⟩
        obtain rfl : d.schema.text = n := Option.some.inj hn
        exact Option.isSome_iff_exists.mpr ⟨_, hty⟩
      | _ => cases hent
    | inst d =>
      obtain ⟨type, -, hent⟩ := Option.bind_eq_some_iff.mp h
      cases type with
      | component _ inst _ _ _ =>
        cases inst with
        | none =>
          cases hent
          exact ⟨rfl, hnm, fun n hn => (Option.some_ne_none n hn.symm).elim, rfl⟩
        | some _ => cases hent
      | _ => cases hent
    | _ => cases h

theorem Mirrors.entryFor? (h : Mirrors s t) (d : Decl) :
    Option.Rel Entry.Like (s.entryFor? d) (t.entryFor? d) := by
  unfold Session.entryFor?
  have hget := h.scopes.get? d.name.text
  generalize s.scopes.get? d.name.text = x, t.scopes.get? d.name.text = y at hget ⊢
  cases hget with
  | some _ => exact .none
  | none =>
    cases d.model? with
    | none => exact .none
    | some n =>
      dsimp only [Option.bind_some]
      have hmodel := h.scopes.get? n
      generalize s.scopes.get? n = x, t.scopes.get? n = y at hmodel ⊢
      cases hmodel with
      | none => exact .none
      | some hlike => exact d.entryOf?_like hlike

/-- A declaration has the same entry after another one with a different name. -/
theorem entryFor?_enrol (hlt : s.scopes.current < s.scopes.all.length) (he : e.Fits s.scopes)
    (hne : d.name.text ≠ e.name.text) : (s.enrol e).entryFor? d = s.entryFor? d := by
  have hget : ∀ n, (s.enrol e).scopes.get? n = e.update n (s.scopes.get? n) :=
    fun n => Entry.get?_bind hlt n
  have hnm : ((s.enrol e).scopes.get? d.name.text).isSome =
      (s.scopes.get? d.name.text).isSome := by
    rw [hget, Entry.isSome_update_of_ne hne]
  have hmodel : (d.model?.bind (s.enrol e).scopes.get?).bind d.entryOf? =
      (d.model?.bind s.scopes.get?).bind d.entryOf? := by
    cases d.model? with
    | none => rfl
    | some n => rw [Option.bind_some, Option.bind_some, hget, he.bind_update]
  unfold entryFor?
  rw [hmodel]
  -- the name is taken in both sessions or in none
  revert hnm
  cases (s.enrol e).scopes.get? d.name.text <;> cases s.scopes.get? d.name.text <;> simp

theorem qualified_enrol (s : Session) (e : Entry) (n : String) :
    (s.enrol e).qualified n = s.qualified n := by
  show (e.bind s.scopes).qualify (e.bind s.scopes).current n = s.scopes.qualify s.scopes.current n
  rw [Entry.qualify_bind, Entry.current_bind]

theorem dependencies?_enrol (s : Session) (e : Entry) (y : String) :
    (s.enrol e).dependencies? y =
      if y = s.qualified e.name.text then some [] else s.dependencies? y :=
  dependencies?_insert (s := s) rfl

theorem bodies_enrol (s : Session) (e : Entry) :
    (s.enrol e).bodies.map (fun b => (b.1, b.2.component)) =
      s.bodies.map fun b => (b.1, b.2.component) := by
  show (s.bodies.map _).map _ = _
  rw [map_map]
  refine map_congr_left fun b _ => ?_
  by_cases hb : b.1 = s.body <;> simp [hb]

theorem sound_enrol (h : Sound s) (e : Entry) : Sound (s.enrol e) := by
  refine h.of_outline (Entry.outline_tell _ _) (bodies_enrol s e) fun b hb => ?_
  obtain ⟨b₀, hb₀, rfl⟩ := mem_map.mp hb
  split
  · exact (h.1 b₀ hb₀).addNode _
  · exact h.1 b₀ hb₀

theorem hasInstance_enrol (s : Session) (e : Entry) (c x : String) :
    (s.enrol e).HasInstance c x ↔ s.HasInstance c x ∨
      e.component = some c ∧ (Table.find? s.components c).isSome ∧ x = s.qualified e.name.text := by
  unfold HasInstance
  have hfind : Table.find? (s.enrol e).components c = _ := Entry.find?_tell _ s.components c
  rw [hfind]
  by_cases hc : e.component = some c
  · rw [if_pos hc]
    cases Table.find? s.components c with
    | none => simp
    | some i => simp [hc]
  · rw [if_neg hc]
    simp [hc]

theorem Mirrors.enrol (h : Mirrors s t) {e' : Entry} (he : e.Like e')
    (hlt : s.scopes.current < s.scopes.all.length) : Mirrors (s.enrol e) (t.enrol e') where
  scopes := Entry.bind_like h.scopes he hlt
  halted := h.halted
  registered x := by
    show x ∈ e'.name.span :: t.registered ↔ x ∈ e.name.span :: s.registered
    rw [mem_cons, mem_cons, he.name, h.registered]
  aliases := h.aliases
  schemas := h.schemas
  components := (Entry.outline_tell _ _).trans (h.components.trans (Entry.outline_tell _ _).symm)
  bodies := (bodies_enrol t e').trans (h.bodies.trans (bodies_enrol s e).symm)
  instances x := by
    rw [dependencies?_enrol, dependencies?_enrol, he.name, h.qualified]
    split
    · rfl
    · exact h.instances x
  body := h.body
  component := h.component
  reader := h.reader
  depth := h.depth
  sound := sound_enrol h.sound e
  sound' := sound_enrol h.sound' e'

/-- Two entries look the same in either order. -/
theorem mirrors_enrol_comm (hs : Sound s) (hlt : s.scopes.current < s.scopes.all.length)
    {e' : Entry} (he : e.Fits s.scopes) (he' : e'.Fits s.scopes)
    (hne : e.name.text ≠ e'.name.text) :
    Mirrors ((s.enrol e).enrol e') ((s.enrol e').enrol e) where
  scopes := Entry.bind_comm he he' hne hlt
  halted _ := Iff.rfl
  registered x := by
    show x ∈ e.name.span :: e'.name.span :: s.registered ↔
      x ∈ e'.name.span :: e.name.span :: s.registered
    simp only [mem_cons]
    tauto
  aliases := rfl
  schemas := rfl
  components := by
    have hotl : ∀ e e' : Entry, ((s.enrol e).enrol e').components.map
        (fun c => (c.1, c.2.outline)) = s.components.map fun c => (c.1, c.2.outline) :=
      fun _ _ => (Entry.outline_tell _ _).trans (Entry.outline_tell _ _)
    rw [hotl, hotl]
  bodies := by rw [bodies_enrol, bodies_enrol, bodies_enrol, bodies_enrol]
  instances x := by
    simp only [dependencies?_enrol, qualified_enrol]
    split <;> split <;> rfl
  body := rfl
  component := rfl
  reader := rfl
  depth := rfl
  sound := sound_enrol (sound_enrol hs e) e'
  sound' := sound_enrol (sound_enrol hs e') e

/-! ### Any order -/

theorem Registering.sound (hs : Registering p s) : Sound s :=
  ⟨fun _ hb => (hs.graph (hs.mem_bodies.mp hb)).1, hs.names, hs.nodup⟩

theorem notes_eq_of_registering (hs : Registering p s) (ht : Registering p t)
    (hfnd : t.Has .finding ↔ s.Has .finding) (hcyc : t.Has .cycle ↔ s.Has .cycle)
    (hmb : ∀ c x, t.HasInstance c x ↔ s.HasInstance c x) : t.notes = s.notes := by
  ext n
  cases n with
  | finding => exact hfnd
  | cycle => exact hcyc
  | edge scope x y => exact iff_of_false (ht.not_edge scope x y) (hs.not_edge scope x y)
  | dependency x y => exact iff_of_false (ht.not_depends x y) (hs.not_depends x y)
  | external c x => exact iff_of_false (ht.not_needs c x) (hs.not_needs c x)
  | member c x => exact hmb c x

/-- Registration is at work on the top level of two sessions that look the same. -/
structure Enrolling (p : Program) (s t : Session) : Prop extends Twin s t where
  left : Registering p s
  right : Registering p t
  top : s.component = none

theorem Enrolling.refl (hs : AtTop p s) : Enrolling p s s :=
  ⟨.refl hs.sound, hs.toRegistering, hs.toRegistering, hs.component_none⟩

theorem Enrolling.atTop (h : Enrolling p s t) : AtTop p s ∧ AtTop p t :=
  ⟨⟨h.left, h.top⟩, h.right, h.component.trans h.top⟩

theorem Enrolling.trans (h : Enrolling p s t) (h' : Enrolling p t u) : Enrolling p s u :=
  ⟨h.toTwin.trans h'.toTwin, h.left, h'.right, h.top⟩

theorem AtTop.enlist (hs : AtTop p s) (hd : d ∈ p.items) : AtTop p (s.enlist d) := by
  have hmems := hs.registerMembers (cons_subset.mpr ⟨hd, nil_subset _⟩)
  exact hs.grows hmems.grows hmems.registering

/-- An instance is registered in both sessions, or is a finding in both. -/
theorem Enrolling.enlist (h : Enrolling p s t) (hd : d ∈ p.items)
    (hinst : d.instanceName?.isSome) : Enrolling p (s.enlist d) (t.enlist d) := by
  obtain ⟨hs, ht⟩ := h.atTop
  have hleft := hs.enlist hd
  have hright := ht.enlist hd
  refine ⟨?_, hleft.toRegistering, hright.toRegistering, hleft.component_none⟩
  have hent := h.entryFor? d
  cases he : s.entryFor? d with
  | none =>
    rw [he] at hent
    cases he' : t.entryFor? d with
    | none =>
      obtain ⟨f, hf, hrun⟩ := enlist_of_none hs hinst he
      obtain ⟨f', hf', hrun'⟩ := enlist_of_none ht hinst he'
      rw [hrun, hrun']
      exact h.couples (couples_report (hf.trans hf'.symm))
    | some e' =>
      rw [he'] at hent
      cases hent
  | some e =>
    rw [he] at hent
    cases he' : t.entryFor? d with
    | none =>
      rw [he'] at hent
      cases hent
    | some e' =>
      rw [he'] at hent
      obtain ⟨hlike⟩ := hent
      rw [enlist_of_entryFor? hs hinst he] at hleft ⊢
      rw [enlist_of_entryFor? ht hinst he'] at hright ⊢
      refine ⟨h.enrol hlike h.left.current_lt, notes_eq_of_registering hleft.toRegistering
        hright.toRegistering (h.has_iff .finding) (h.has_iff .cycle) fun c x => ?_⟩
      rw [hasInstance_enrol, hasInstance_enrol, hlike.component, hlike.name, h.qualified,
        h.isSome_component]
      exact or_congr_left (h.has_iff (.member c x))

/-- Neighbours can change places, whether they are entered or not. -/
theorem enrolling_swap (hs : AtTop p s) {d' : Decl}
    (hd : d ∈ p.items) (hd' : d' ∈ p.items) (hinst : d.instanceName?.isSome)
    (hinst' : d'.instanceName?.isSome) (hne : d.name.text ≠ d'.name.text) :
    Enrolling p ((s.enlist d).enlist d') ((s.enlist d').enlist d) := by
  have hfst := hs.enlist hd
  have hfst' := hs.enlist hd'
  have hleft := hfst.enlist hd'
  have hright := hfst'.enlist hd
  refine ⟨?_, hleft.toRegistering, hright.toRegistering, hleft.component_none⟩
  -- a finding does not change any entry, and an entry does not change the other one
  have hlt := hs.current_lt
  cases he : s.entryFor? d with
  | none =>
    obtain ⟨f, hf, hrun⟩ := enlist_of_none hs hinst he
    cases he' : s.entryFor? d' with
    | none =>
      obtain ⟨f', hf', hrun'⟩ := enlist_of_none hs hinst' he'
      obtain ⟨g, hg, hsnd⟩ := enlist_of_none hfst' hinst
        (by rw [hrun']; exact he)
      obtain ⟨g', hg', hsnd'⟩ := enlist_of_none hfst hinst'
        (by rw [hrun]; exact he')
      rw [hsnd, hsnd', hrun, hrun']
      exact ((Twin.refl hs.sound).couples (couples_report (hf.trans hf'.symm))).couples
        (couples_report (hg'.trans hg.symm))
    | some e' =>
      obtain ⟨hnm', hfits'⟩ := fits_of_entryFor? he'
      have hrun' := enlist_of_entryFor? hs hinst' he'
      have hsnd := enlist_of_entryFor? hfst hinst' (by rw [hrun]; exact he')
      obtain ⟨g, hg, hsnd'⟩ := enlist_of_none hfst' hinst
        (by rw [hrun', entryFor?_enrol hlt hfits' (hnm' ▸ hne), he])
      rw [hsnd, hsnd', hrun, hrun']
      exact (Twin.refl (sound_enrol hs.sound e')).couples (couples_report (hf.trans hg.symm))
  | some e =>
    obtain ⟨hnm, hfits⟩ := fits_of_entryFor? he
    have hrun := enlist_of_entryFor? hs hinst he
    cases he' : s.entryFor? d' with
    | none =>
      obtain ⟨f', hf', hrun'⟩ := enlist_of_none hs hinst' he'
      have hsnd' := enlist_of_entryFor? hfst' hinst (by rw [hrun']; exact he)
      obtain ⟨g, hg, hsnd⟩ := enlist_of_none hfst hinst'
        (by rw [hrun, entryFor?_enrol hlt hfits (hnm ▸ hne.symm), he'])
      rw [hsnd, hsnd', hrun, hrun']
      exact (Twin.refl (sound_enrol hs.sound e)).couples (couples_report (hg.trans hf'.symm))
    | some e' =>
      obtain ⟨hnm', hfits'⟩ := fits_of_entryFor? he'
      have hrun' := enlist_of_entryFor? hs hinst' he'
      rw [enlist_of_entryFor? hfst hinst'
        (by rw [hrun, entryFor?_enrol hlt hfits (hnm ▸ hne.symm), he']), hrun] at hleft ⊢
      rw [enlist_of_entryFor? hfst' hinst
        (by rw [hrun', entryFor?_enrol hlt hfits' (hnm' ▸ hne), he]), hrun'] at hright ⊢
      refine ⟨mirrors_enrol_comm hs.sound hlt hfits hfits' (by rwa [hnm, hnm']),
        notes_eq_of_registering hleft.toRegistering hright.toRegistering Iff.rfl Iff.rfl
          fun c x => ?_⟩
      have hcomp : ∀ e : Entry, (Table.find? (s.enrol e).components c).isSome =
          (Table.find? s.components c).isSome := fun e => by
        have hotl : Table.find? (s.enrol e).components c = _ :=
          Entry.find?_tell _ s.components c
        rw [hotl]
        split
        · exact Option.isSome_map
        · rfl
      simp only [hasInstance_enrol, hcomp, qualified_enrol]
      tauto

theorem exchangeable_enlist : Exchangeable (Enrolling p) enlist
    (fun d => d ∈ p.items ∧ d.instanceName?.isSome) fun d e => d.name.text ≠ e.name.text where
  trans := Enrolling.trans
  right h := .refl h.atTop.2
  keeps hd h := h.enlist hd.1 hd.2
  swaps hd he hne h := enrolling_swap h.atTop.1 hd.1 he.1 hd.2 he.2 hne
  symm := Ne.symm

/-- The order in which instances of the top level are registered does not matter. -/
theorem Enrolling.registerMembers_perm {ds es : List Decl} (h : ds.Perm es)
    (hds : ∀ d ∈ ds, d ∈ p.items ∧ d.instanceName?.isSome) (hnd : (ds.map (·.name.text)).Nodup)
    (hst : Enrolling p s t) :
    Enrolling p ((registerMembers ds).run s).2 ((registerMembers es).run t).2 := by
  rw [run_registerMembers, run_registerMembers]
  exact exchangeable_enlist.foldl_perm h hds (pairwise_map.mp hnd) hst

end Provision.Session
