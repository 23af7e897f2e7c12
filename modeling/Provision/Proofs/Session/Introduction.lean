import Provision.Proofs.Session.Meaning
import Provision.Proofs.Session.Schemas

/-!
# Which names a part of registration introduces

Registration goes from one scope to the next and binds, in each, the names that its declarations
give. `Session.Introduces W A` says so of a part of it: names stay bound to types of one core, new
ones are among those that `W` admits, and new aliases lie in scopes that `A` admits. Each stage of
registration has a lemma of this form, so what a name means at two moments can be compared by
looking at the declarations between them.

All along the components that types speak of have the inputs and outputs of their definitions, and
aliases stand for flat types (`Session.Coherent`).
-/

namespace Provision

open List Table Scopes

variable {n : String} {scope : ScopeId} {type : Ty}

namespace Decl

def componentNames (ds : List Decl) : List String := (ds.filter isComponent).map (·.name.text)

theorem mem_componentNames {ds : List Decl} :
    n ∈ componentNames ds ↔
      ∃ decs name body span, .component decs name body span ∈ ds ∧ name.text = n := by
  rw [componentNames, mem_map]
  constructor
  · rintro ⟨d, hd, rfl⟩
    obtain ⟨hmem, hcomp⟩ := mem_filter.mp hd
    cases d with
    | component decs name body span => exact ⟨decs, name, body, span, hmem, rfl⟩
    | _ => cases hcomp
  · rintro ⟨decs, name, body, span, hmem, rfl⟩
    exact ⟨_, mem_filter.mpr ⟨hmem, rfl⟩, rfl⟩

end Decl

namespace Ty

variable {t u v : Ty} {definitions definitions' : Table Ty}

/-- Every component that a type admits has the inputs and the outputs of its definition. -/
def Conforms (definitions : Table Ty) (t : Ty) : Prop :=
  ∀ v ∈ t.variants, ∀ {name inst inputs outputs nested},
    v = .component name inst inputs outputs nested →
      ∃ nested', find? definitions name = some (.component name none inputs outputs nested')

/-- Only the instances in a component can differ. -/
theorem eq_component_of_core {name : String} {inst : Option String} {inputs outputs : Table Ty}
    {nested : List Ty} (h : u.core = (Ty.component name inst inputs outputs nested).core) :
    ∃ nested', u = .component name inst inputs outputs nested' := by
  cases u with
  | component _ _ _ _ nested' =>
    obtain ⟨rfl, rfl, rfl, rfl, -⟩ := Ty.component.inj h
    exact ⟨nested', rfl⟩
  | _ => cases h

theorem exists_variant_of_core (h : u.core = t.core) (hv : v ∈ u.variants) :
    ∃ w ∈ t.variants, w.core = v.core := by
  have hun := (Alike.of_core h).union?
  cases u with
  | union vs =>
    cases t with
    | union ws => exact ⟨v, Ty.union.inj h ▸ hv, rfl⟩
    | _ => cases hun
  | _ =>
    obtain rfl := mem_singleton.mp hv
    cases t with
    | union ws => cases hun
    | _ => exact ⟨_, mem_singleton_self _, h.symm⟩

theorem Conforms.of_core (ht : t.Conforms definitions) (h : u.core = t.core) :
    u.Conforms definitions := by
  rintro v hv name inst inputs outputs nested rfl
  obtain ⟨w, hw, hcore⟩ := exists_variant_of_core h hv
  obtain ⟨nested', rfl⟩ := eq_component_of_core hcore
  exact ht _ hw rfl

theorem Conforms.mono (ht : t.Conforms definitions)
    (h : ∀ {n u}, find? definitions n = some u →
      ∃ u', find? definitions' n = some u' ∧ u'.core = u.core) : t.Conforms definitions' := by
  rintro v hv name inst inputs outputs nested rfl
  obtain ⟨nested', hfind⟩ := ht _ hv rfl
  obtain ⟨u, hu, hcore⟩ := h hfind
  obtain ⟨nested'', rfl⟩ := eq_component_of_core hcore
  exact ⟨nested'', hu⟩

theorem conforms_of_isComponent (h : ∀ v ∈ t.variants, v.isComponent = false) :
    t.Conforms definitions := by
  rintro v hv name inst inputs outputs nested rfl
  cases h _ hv

end Ty

namespace Session

variable {s t u : Session} {W : ScopeId → String → Prop} {A : ScopeId → Prop} {σ : ScopeId}

/-! ### The invariant -/

/-- Aliases stand for flat types, and types speak of components as they are defined. -/
structure Coherent (s : Session) : Prop where
  current_lt : s.scopes.current < s.scopes.all.length
  alias_flat : ∀ {scope n}, (scope, n) ∈ s.aliases →
    ∃ type, find? (s.scopes.bindings scope) n = some type ∧ type.Flat
  conforms : ∀ {scope n type}, find? (s.scopes.bindings scope) n = some type →
    type.Conforms (s.scopes.bindings ScopeId.global)

theorem Coherent.within (h : s.Coherent) (hsc : scope < s.scopes.all.length) :
    (s.within scope).Coherent := ⟨hsc, h.alias_flat, h.conforms⟩

theorem Coherent.denotes (hs : s.Coherent) (h : s.denotes? n = some type) :
    type.Flat ∧ type.Conforms (s.scopes.bindings ScopeId.global) := by
  obtain ⟨scope, hres, hwr⟩ := resolve_of_denotes? h
  have hbd := (mem_chain_of_resolve hres).2
  refine ⟨?_, hs.conforms hbd⟩
  rcases hwr with halias | hnominal
  · obtain ⟨type', hty', hflat⟩ := hs.alias_flat halias
    exact Option.some.inj (hty'.symm.trans hbd) ▸ hflat
  · cases type with
    | schema name props resources => exact Ty.flat_schema name props resources
    | component name inst inputs outputs nested =>
      exact Ty.flat_component name inst inputs outputs nested
    | _ => cases hnominal

theorem Coherent.resolveType (hs : s.Coherent) {e : TypeExpr} (h : s.resolveType e = .ok type) :
    type.Flat ∧ type.Conforms (s.scopes.bindings ScopeId.global) := by
  have hmean : e.meaning s.denotes? = some type := by
    rw [← resolveType_eq, h]
    rfl
  have hflat : ∀ n u, s.denotes? n = some u → u.Flat := fun n u hu => (hs.denotes hu).1
  refine ⟨TypeExpr.flat_meaning hflat e hmean, ?_⟩
  rintro v hv name inst inputs outputs nested rfl
  obtain ⟨n, -, u, hu, hvariant⟩ :=
    TypeExpr.exists_of_mem_variants_meaning hflat e hmean hv rfl
  exact (hs.denotes hu).2 _ hvariant rfl

/-! ### The relation -/

/-- Names stay bound to types of one core; those that are new are admitted by `W`, and aliases that
are new lie in scopes that `A` admits. -/
structure Introduces (W : ScopeId → String → Prop) (A : ScopeId → Prop) (s t : Session) :
    Prop where
  current : t.scopes.current = s.scopes.current
  persists : s.scopes.Persists t.scopes
  bound : ∀ {scope n type}, find? (s.scopes.bindings scope) n = some type →
    ∃ type', find? (t.scopes.bindings scope) n = some type' ∧ type'.core = type.core
  fresh : ∀ {scope n}, (find? (t.scopes.bindings scope) n).isSome →
    (find? (s.scopes.bindings scope) n).isSome ∨ W scope n
  aliases : s.aliases ⊆ t.aliases
  aliased : ∀ {scope n}, (scope, n) ∈ t.aliases → (scope, n) ∈ s.aliases ∨ A scope

namespace Introduces

theorem refl (s : Session) : Introduces W A s s where
  current := rfl
  persists := Persists.refl _
  bound h := ⟨_, h, rfl⟩
  fresh := Or.inl
  aliases := Subset.refl _
  aliased := Or.inl

theorem trans (h : Introduces W A s t) (h' : Introduces W A t u) : Introduces W A s u where
  current := h'.current.trans h.current
  persists := h.persists.trans h'.persists
  bound hbd := by
    obtain ⟨type', hty', hcore⟩ := h.bound hbd
    obtain ⟨type'', hty'', hcore'⟩ := h'.bound hty'
    exact ⟨type'', hty'', hcore'.trans hcore⟩
  fresh hn := by
    rcases h'.fresh hn with hn | hn
    · exact h.fresh hn
    · exact Or.inr hn
  aliases := Subset.trans h.aliases h'.aliases
  aliased hn := by
    rcases h'.aliased hn with hn | hn
    · exact h.aliased hn
    · exact Or.inr hn

theorem mono {W' : ScopeId → String → Prop} {A' : ScopeId → Prop} (h : Introduces W A s t)
    (hW : ∀ scope n, W scope n → W' scope n) (hA : ∀ scope, A scope → A' scope) :
    Introduces W' A' s t :=
  { h with
    fresh := fun hn => (h.fresh hn).imp_right (hW _ _)
    aliased := fun hn => (h.aliased hn).imp_right (hA _) }

end Introduces

def Introducing (σ : ScopeId) (W : ScopeId → String → Prop) (A : ScopeId → Prop) (s t : Session) :
    Prop :=
  s.scopes.current = σ → s.Coherent → Introduces W A s t ∧ t.Coherent

instance : IsPreorder Session (Introducing σ W A) where
  refl s _ hs := ⟨Introduces.refl s, hs⟩
  trans s t u hst htu hcur hs := by
    obtain ⟨h, ht⟩ := hst hcur hs
    obtain ⟨h', hu⟩ := htu (h.current.trans hcur) ht
    exact ⟨h.trans h', hu⟩

theorem Introduces.coherent (h : Introduces W A s t) (hs : s.Coherent)
    (hconforms : ∀ {scope n type}, find? (t.scopes.bindings scope) n = some type →
      (∃ type', find? (s.scopes.bindings scope) n = some type' ∧ type.core = type'.core) ∨
        type.Conforms (s.scopes.bindings ScopeId.global) ∨
        type.Conforms (t.scopes.bindings ScopeId.global))
    (halias : ∀ {scope n}, (scope, n) ∈ t.aliases → (scope, n) ∈ s.aliases ∨
      ∃ type, find? (t.scopes.bindings scope) n = some type ∧ type.Flat) : t.Coherent where
  current_lt := by
    rw [h.current]
    exact hs.current_lt.trans_le h.persists.length_le
  alias_flat hn := by
    rcases halias hn with hn | hn
    · obtain ⟨type, hty, hflat⟩ := hs.alias_flat hn
      obtain ⟨type', hty', hcore⟩ := h.bound hty
      exact ⟨type', hty', hflat.of_core hcore⟩
    · exact hn
  conforms hty := by
    rcases hconforms hty with ⟨type', hty', hcore⟩ | hold | hnew
    · exact ((hs.conforms hty').of_core hcore).mono h.bound
    · exact hold.mono h.bound
    · exact hnew

theorem introducing_of_scopes (hscs : t.scopes = s.scopes) (hals : t.aliases = s.aliases) :
    Introducing σ W A s t := by
  intro _ hs
  refine ⟨⟨by rw [hscs], hscs ▸ Persists.refl _, fun h => ⟨_, hscs ▸ h, rfl⟩,
    fun h => Or.inl (hscs ▸ h), hals ▸ Subset.refl _,
    fun h => Or.inl (hals ▸ h)⟩, ?_, ?_, ?_⟩
  · rw [hscs]
    exact hs.current_lt
  · rw [hscs, hals]
    exact hs.alias_flat
  · rw [hscs]
    exact hs.conforms

theorem introducing_report (d : Diagnostic) : Moves (Introducing σ W A) (report d) :=
  fun _ => introducing_of_scopes rfl rfl

/-- A free name can be bound to a type that conforms. -/
theorem introducing_set {aliases : List (ScopeId × String)} (hW : W σ n)
    (hunb : find? (s.scopes.bindings s.scopes.current) n = none)
    (hty : s.Coherent → type.Conforms (s.scopes.bindings ScopeId.global) ∨
      type.Conforms ((s.scopes.set n type).bindings ScopeId.global))
    (hals : aliases = s.aliases ∨
      aliases = (s.scopes.current, n) :: s.aliases ∧ A σ ∧ (s.Coherent → type.Flat)) :
    Introducing σ W A s { s with scopes := s.scopes.set n type, aliases } := by
  intro hcur hs
  have hfind : ∀ scope m, find? ((s.scopes.set n type).bindings scope) m =
      if scope = s.scopes.current ∧ scope < s.scopes.all.length ∧ m = n then some type
      else find? (s.scopes.bindings scope) m := fun scope m => find?_bindings_set
  have hintr : Introduces W A s { s with scopes := s.scopes.set n type, aliases } := by
    refine ⟨rfl, persists_set hunb, fun {scope m type'} hbd => ⟨type', ?_, rfl⟩,
      fun {scope m} hm => ?_, ?_, fun {scope m} hm => ?_⟩
    · show find? ((s.scopes.set n type).bindings scope) m = some type'
      rw [hfind, if_neg, hbd]
      rintro ⟨rfl, -, rfl⟩
      rw [hunb] at hbd
      cases hbd
    · have hm : (find? ((s.scopes.set n type).bindings scope) m).isSome := hm
      rw [hfind] at hm
      split at hm
      · next hnew =>
        rw [hnew.1, hnew.2.2, hcur]
        exact Or.inr hW
      · exact Or.inl hm
    · rcases hals with rfl | ⟨rfl, -⟩
      · exact Subset.refl _
      · exact subset_cons_self _ _
    · rcases hals with rfl | ⟨rfl, hA, -⟩
      · exact Or.inl hm
      · rcases mem_cons.mp hm with heq | hm
        · cases heq
          exact Or.inr (hcur ▸ hA)
        · exact Or.inl hm
  refine ⟨hintr, hintr.coherent hs (fun {scope m type'} hm => ?_)
    fun {scope m} hm => ?_⟩
  · have hm : find? ((s.scopes.set n type).bindings scope) m = some type' := hm
    rw [hfind] at hm
    split at hm
    · exact Or.inr (Option.some.inj hm ▸ hty hs)
    · exact Or.inl ⟨type', hm, rfl⟩
  · rcases hals with rfl | ⟨rfl, -, hflat⟩
    · exact Or.inl hm
    · rcases mem_cons.mp hm with heq | hm
      · cases heq
        exact Or.inr ⟨type, (hfind _ _).trans (if_pos ⟨rfl, hs.current_lt, rfl⟩), hflat hs⟩
      · exact Or.inl hm

theorem introducing_declare (name : Ident) (type : Ty) (s : Session) (hW : W σ name.text)
    (hty : s.Coherent → type.Conforms (s.scopes.bindings ScopeId.global)) :
    Introducing σ W A s ((declare name type).run s).2 :=
  of_declare (P := Introducing σ W A s) name (fun hunb =>
    introducing_set hW hunb (fun hs => Or.inl (hty hs)) (Or.inl rfl)) fun d =>
      introducing_report d s

/-- A type may change in what is no part of its core. -/
theorem introducing_modify (n : String) {f : Ty → Ty} (hf : ∀ type, (f type).core = type.core) :
    Moves (Introducing σ W A)
      (modify fun s => { s with scopes := s.scopes.modify n f } : Checking Unit) := by
  intro s hcur hs
  have hbd : ∀ {scope m type}, find? (s.scopes.bindings scope) m = some type →
      ∃ type', find? ((s.scopes.modify n f).bindings scope) m = some type' ∧
        type'.core = type.core := by
    intro scope m type hm
    rw [find?_bindings_modify]
    split
    · exact ⟨f type, by rw [hm]; rfl, hf type⟩
    · exact ⟨type, hm, rfl⟩
  have hold : ∀ {scope m type}, find? ((s.scopes.modify n f).bindings scope) m = some type →
      ∃ type', find? (s.scopes.bindings scope) m = some type' ∧ type.core = type'.core := by
    intro scope m type hm
    obtain ⟨u, hu, rfl | rfl⟩ := exists_of_modify hm
    · exact ⟨type, hu, rfl⟩
    · exact ⟨u, hu, hf u⟩
  have hper : s.scopes.Persists (s.scopes.modify n f) :=
    (keeps_modify fun t => Ty.Alike.of_core (hf t)).toPersists
  have hintr : Introduces W A s { s with scopes := s.scopes.modify n f } := by
    refine ⟨rfl, hper, hbd, fun {scope m} hm => Or.inl ?_, Subset.refl _, Or.inl⟩
    obtain ⟨type, hty⟩ := Option.isSome_iff_exists.mp hm
    obtain ⟨type', hty', -⟩ := hold hty
    exact Option.isSome_iff_exists.mpr ⟨type', hty'⟩
  exact ⟨hintr, hintr.coherent hs (fun hm => Or.inl (hold hm)) Or.inl⟩

/-! ### Types and members -/

theorem binds_introducing (hA : A σ) : BindsTypes (W σ) (Introducing σ W A) where
  report := introducing_report
  bindAlias hn hres hfree := introducing_set hn hfree
    (fun hs => Or.inl (hs.resolveType hres).2)
    (Or.inr ⟨rfl, hA, fun hs => (hs.resolveType hres).1⟩)
  withSchema {s d} hn hfree := by
    have hset : Introducing σ W A s { s with
        scopes := s.scopes.set d.name.text (.schema d.name.text [] []) } :=
      introducing_set hn hfree
        (fun _ => Or.inl (Ty.conforms_of_isComponent (forall_mem_singleton.mpr rfl)))
        (Or.inl rfl)
    exact IsTrans.trans (r := Introducing σ W A) _ _ _ hset (introducing_of_scopes rfl rfl)

theorem fills_introducing : Fills (Introducing σ W A) :=
  fun n _ => introducing_modify n fun type => by cases type <;> rfl

theorem introducing_fillSchemas (ds : List Decl) : Moves (Introducing σ W A) (fillSchemas ds) :=
  Binds.fillSchemas (N := fun _ => False) ⟨introducing_report, fun hn => hn.elim⟩
    fills_introducing ds

theorem introducing_registerTypes (ds : List Decl) (hW : ∀ n ∈ Decl.typeNames ds, W σ n)
    (hA : A σ) : Moves (Introducing σ W A) (registerTypes ds) :=
  (binds_introducing hA).registerTypes fills_introducing hW

theorem Coherent.lookup (hs : s.Coherent)
    (h : s.scopes.lookup n = .ok type) : type.Conforms (s.scopes.bindings ScopeId.global) := by
  obtain ⟨scope, hres⟩ := exists_of_lookup h
  exact hs.conforms (mem_chain_of_resolve hres).2

theorem Coherent.admits (hs : s.Coherent) (h : s.Admits type) :
    type.Conforms (s.scopes.bindings ScopeId.global) := by
  cases h with
  | written h => exact (hs.resolveType h).2
  | function params result =>
    exact Ty.conforms_of_isComponent (forall_mem_singleton.mpr rfl)
  | resource name schema props =>
    exact Ty.conforms_of_isComponent (forall_mem_singleton.mpr rfl)
  | inst hlk name =>
    -- the instance has the inputs and the outputs of what was looked up, and that conforms
    intro v hv name inst inputs' outputs' nested' heq
    obtain rfl := mem_singleton.mp hv
    obtain ⟨rfl, -, rfl, rfl, -⟩ := Ty.component.inj heq
    exact hs.lookup hlk _ (mem_singleton_self _) rfl

theorem enlists_introducing : Enlists (W σ) (Introducing σ W A) where
  report := introducing_report
  declare {s type} name hn hadmits :=
    introducing_declare name type s hn fun hs => hs.admits hadmits
  mark _ _ := introducing_of_scopes rfl rfl
  addResource n _ _ := introducing_modify n fun type => by cases type <;> rfl
  addInstance _ _ _ _ := introducing_of_scopes rfl rfl
  tell _ _ _ := introducing_of_scopes rfl rfl

theorem introducing_registerMembers (ds : List Decl) (hW : ∀ n ∈ Decl.memberNames ds, W σ n) :
    Moves (Introducing σ W A) (registerMembers ds) :=
  enlists_introducing.registerMembers ds hW

/-! ### Components -/

theorem Introduces.within_back (h : Introduces W A (s.within scope) t) :
    Introduces W A s (t.within s.scopes.current) where
  current := rfl
  persists := (keeps_enter s.scopes scope).toPersists.trans
    (h.persists.trans (keeps_enter t.scopes s.scopes.current).toPersists)
  bound := h.bound
  fresh := h.fresh
  aliases := h.aliases
  aliased := h.aliased

theorem introducing_newChild (s : Session) (name : Option String) :
    Introducing σ W A s { s with scopes := (s.scopes.newChild name).2 } := by
  have hbs : ∀ scope, (s.scopes.newChild name).2.bindings scope = s.scopes.bindings scope :=
    fun scope => bindings_newChild
  have hintr : Introduces W A s { s with scopes := (s.scopes.newChild name).2 } := by
    refine ⟨rfl, (keeps_newChild s.scopes name).toPersists, fun {scope n type} hbd => ?_,
      fun {scope n} hn => Or.inl ?_, Subset.refl _, Or.inl⟩
    · exact ⟨type, (hbs scope).symm ▸ hbd, rfl⟩
    · exact hbs scope ▸ hn
  intro _ hs
  refine ⟨hintr, hintr.coherent hs (fun {scope n type} hbd => Or.inl ?_) Or.inl⟩
  exact ⟨type, hbs scope ▸ hbd, rfl⟩

/-- The session in which the types of a component are bound. -/
def inNewScope (s : Session) (name : Ident) : Session :=
  ({ s with scopes := (s.scopes.newChild (some name.text)).2 } : Session).within
    s.scopes.all.length

theorem introduces_inNewScope (hs : s.Coherent) (name : Ident) {m : Checking α}
    (hm : Moves (Introducing s.scopes.all.length W A) m) :
    Introduces W A s ((m.run (s.inNewScope name)).2.within s.scopes.current) ∧
      (m.run (s.inNewScope name)).2.Coherent := by
  have hlt := s.scopes.length_lt_newChild (some name.text)
  obtain ⟨hch, hcoh⟩ := introducing_newChild (W := W) (A := A) s (some name.text) rfl hs
  obtain ⟨hbody, hcoh'⟩ := hm (s.inNewScope name) rfl (hcoh.within hlt)
  exact ⟨hch.trans hbody.within_back, hcoh'⟩

theorem introduces_afterSignature (hs : s.Coherent) (name : Ident) {body : List Decl}
    (hW : ∀ n ∈ Decl.typeNames body, W s.scopes.all.length n) (hA : A s.scopes.all.length) :
    Introduces W A s (s.afterSignature name body).2 ∧ (s.afterSignature name body).2.Coherent := by
  obtain ⟨h, hcoh⟩ := introduces_inNewScope hs name
    (Moves.bind (introducing_registerTypes body hW hA)
      fun _ => (binds_introducing hA).signatureOf name.text {} body)
  exact ⟨h, hcoh.within (hs.current_lt.trans_le h.persists.length_le)⟩

/-- A new component is spoken of as it is defined. -/
theorem introduces_withComponent (hs : s.Coherent) (hgl : s.scopes.current = ScopeId.global)
    (name : Ident) (inputs outputs : Table Ty) (body : List Decl) (scope : ScopeId)
    (hunb : find? (s.scopes.bindings s.scopes.current) name.text = none)
    (hnm : W ScopeId.global name.text) :
    Introduces W A s
        (s.withComponent name (.component name.text none inputs outputs []) body scope) ∧
      (s.withComponent name (.component name.text none inputs outputs []) body scope).Coherent := by
  have hconforms : (Ty.component name.text none inputs outputs []).Conforms ((s.scopes.set name.text
      (.component name.text none inputs outputs [])).bindings ScopeId.global) := by
    intro v hv name' inst inputs' outputs' nested heq
    obtain rfl := mem_singleton.mp hv
    obtain ⟨rfl, -, rfl, rfl, -⟩ := Ty.component.inj heq
    refine ⟨[], ?_⟩
    rw [find?_bindings_set, if_pos ⟨hgl.symm, hgl ▸ hs.current_lt, rfl⟩]
  obtain ⟨hset, hcoh⟩ := introducing_set (A := A) hnm hunb
    (fun _ => Or.inr hconforms) (Or.inl rfl) hgl hs
  exact ⟨⟨hset.current, hset.persists, hset.bound, hset.fresh, hset.aliases, hset.aliased⟩,
    hcoh.current_lt, hcoh.alias_flat, hcoh.conforms⟩

theorem introduces_defineComponent (hs : s.Coherent) (hgl : s.scopes.current = ScopeId.global)
    (name : Ident) (body : List Decl) (hW : ∀ n ∈ Decl.typeNames body, W s.scopes.all.length n)
    (hA : A s.scopes.all.length) (hnm : W ScopeId.global name.text) :
    Introduces W A s ((defineComponent name body).run s).2 ∧
      ((defineComponent name body).run s).2.Coherent := by
  obtain ⟨hintr, hcoh⟩ := introduces_afterSignature hs name hW hA
  rcases run_defineComponent s name body with ⟨hunb, hrun⟩ | ⟨f, hrun⟩
  · obtain ⟨hset, hcoh'⟩ := introduces_withComponent (A := A) hcoh
      (hintr.current.trans hgl) name _ _ body s.scopes.all.length hunb hnm
    rw [hrun]
    exact ⟨hintr.trans hset, hcoh'⟩
  · obtain ⟨hrep, hcoh'⟩ := introducing_report (W := W) (A := A) f _ rfl hcoh
    rw [hrun]
    exact ⟨hintr.trans hrep, hcoh'⟩

/-- The scopes of components are new, and may bind anything. -/
theorem introduces_defineComponents (ds : List Decl) (hs : s.Coherent)
    (hgl : s.scopes.current = ScopeId.global)
    (hW : ∀ scope, s.scopes.all.length ≤ scope → A scope ∧ ∀ n, W scope n)
    (hnms : ∀ n ∈ Decl.componentNames ds, W ScopeId.global n) :
    Introduces W A s ((defineComponents ds).run s).2 ∧
      ((defineComponents ds).run s).2.Coherent := by
  induction ds generalizing s with
  | nil => exact ⟨Introduces.refl s, hs⟩
  | cons d ds ih =>
    have hnms' : ∀ n ∈ Decl.componentNames ds, W ScopeId.global n := fun n hn => hnms n <| by
      obtain ⟨decs, name, body, span, hmem, hn⟩ := Decl.mem_componentNames.mp hn
      exact Decl.mem_componentNames.mpr
        ⟨decs, name, body, span, mem_cons_of_mem d hmem, hn⟩
    cases d with
    | component decs name body span =>
      have hnm : W ScopeId.global name.text := hnms _ <|
        Decl.mem_componentNames.mpr ⟨decs, name, body, span, mem_cons_self, rfl⟩
      obtain ⟨hnew, hall⟩ := hW _ le_rfl
      obtain ⟨hone, hcoh⟩ := introduces_defineComponent hs hgl name body
        (fun n _ => hall n) hnew hnm
      have hrun : ((defineComponents (.component decs name body span :: ds)).run s).2 =
          ((defineComponents ds).run ((defineComponent name body).run s).2).2 := rfl
      obtain ⟨hrest, hcoh'⟩ := ih hcoh (hone.current.trans hgl)
        (fun scope hsc => hW scope (hone.persists.length_le.trans hsc)) hnms'
      rw [hrun]
      exact ⟨hone.trans hrest, hcoh'⟩
    | _ => exact ih hs hgl hW hnms'

/-! ### Bodies -/

theorem introduces_inBody (hs : s.Coherent) (comp : String)
    (hsc : scope < s.scopes.all.length) {ds : List Decl}
    (hW : ∀ n ∈ Decl.memberNames ds, W scope n) :
    Introduces W A s ((inBody comp scope (registerMembers ds)).run s).2 ∧
      ((inBody comp scope (registerMembers ds)).run s).2.Coherent := by
  have hins : (s.inside comp scope).Coherent := ⟨hsc, hs.alias_flat, hs.conforms⟩
  obtain ⟨h, hcoh⟩ := introducing_registerMembers (A := A) ds hW _ rfl hins
  have hback : Introduces W A s
      (s.outside ((registerMembers ds).run (s.inside comp scope)).2) := {
    current := rfl
    persists := (keeps_enter s.scopes scope).toPersists.trans
      (h.persists.trans (keeps_enter _ s.scopes.current).toPersists)
    bound := h.bound
    fresh := h.fresh
    aliases := h.aliases
    aliased := h.aliased }
  rw [run_inBody]
  exact ⟨hback, hs.current_lt.trans_le hback.persists.length_le, hcoh.alias_flat,
    hcoh.conforms⟩

theorem introduces_registerBody (hs : s.Coherent) {c : Defined}
    (hsc : c.scope < s.scopes.all.length) (hW : ∀ n ∈ Decl.memberNames c.body, W c.scope n) :
    Introduces W A s ((registerBody c).run s).2 ∧ ((registerBody c).run s).2.Coherent := by
  obtain ⟨hbody, hcoh⟩ := introduces_inBody (A := A) hs c.name.text hsc hW
  obtain ⟨nested, hrun⟩ := run_registerBody c s
  have hcore : ∀ type, (withNested nested type).core = type.core := fun type => by
    cases type <;> rfl
  obtain ⟨hmodify, hcoh'⟩ := introducing_modify c.name.text hcore _ hbody.current hcoh
  rw [hrun]
  exact ⟨hbody.trans hmodify, hcoh'⟩

theorem introduces_registerBodies {cs : List Defined} (hs : s.Coherent)
    (hsc : ∀ c ∈ cs, c.scope < s.scopes.all.length)
    (hW : ∀ c ∈ cs, ∀ n ∈ Decl.memberNames c.body, W c.scope n) :
    Introduces W A s ((registerBodies cs).run s).2 ∧
      ((registerBodies cs).run s).2.Coherent := by
  induction cs generalizing s with
  | nil => exact ⟨Introduces.refl s, hs⟩
  | cons c cs ih =>
    obtain ⟨hfst, hsc⟩ := forall_mem_cons.mp hsc
    obtain ⟨hWfirst, hW⟩ := forall_mem_cons.mp hW
    obtain ⟨hone, hcoh⟩ := introduces_registerBody (A := A) hs hfst hWfirst
    obtain ⟨hrest, hcoh'⟩ := ih hcoh
      (fun c' hc' => (hsc c' hc').trans_le hone.persists.length_le) hW
    rw [registerBodies, run_bind]
    exact ⟨hone.trans hrest, hcoh'⟩

end Session

end Provision
