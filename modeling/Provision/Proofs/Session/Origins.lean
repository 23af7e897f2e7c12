import Provision.Proofs.Session.Typing

/-!
# Where schemas come from

A name that stands for a schema need not be the name of one: it may be that of an alias, or of an
input, an output or a variable with a written type. It is bound to what the schema was bound to at
that moment. So each schema that a body binds has a declaration, in the body itself or at the top
level, and it has the properties of its declaration. Only an alias next to the declaration is bound
early enough to find a schema that has none yet (`Session.Comes.sees`).
-/

namespace Provision.Session

open List

variable {p : Program} {s t u : Session} {c : Option String} {ds : List Decl} {type : Ty}

/-! ### Types that speak of declared schemas -/

/-- A schema has a declaration in the body of `c` or at the top level, which `t` knows, and it has
the properties of its declaration, or none if there are aliases next to that. -/
def Stems (p : Program) (t : Session) (c : Option String) (schema : String)
    (props : Table Ty) : Prop :=
  ∃ home ds d scope types resources, (home = c ∨ home = none) ∧ p.Body home ds ∧ .schema d ∈ ds ∧
    d.name.text = schema ∧ t.BodyAt scope home ∧
    Table.find? (t.scopes.bindings scope) schema = some (.schema schema types resources) ∧
    (props = types ∨ props = [] ∧ ∃ a, .alias a ∈ ds)

/-- Every schema among the variants of a type has a declaration. -/
def Traced (p : Program) (t : Session) (c : Option String) (type : Ty) : Prop :=
  ∀ ⦃schema props resources⦄, .schema schema props resources ∈ type.leaves →
    Stems p t c schema props

theorem Traced.of_top (h : Traced p t none type) : Traced p t c type := by
  intro schema props resources hleaf
  obtain ⟨home, ds, d, scope, types, resources', hhome, hrest⟩ := h hleaf
  exact ⟨home, ds, d, scope, types, resources', Or.inr (hhome.elim id id), hrest⟩

theorem traced_schema {schema : String} {properties resources : Table Ty} :
    Traced p t c (.schema schema properties resources) ↔ Stems p t c schema properties := by
  have hleaves : (Ty.schema schema properties resources).leaves =
      [.schema schema properties resources] := Ty.leaves_of_union? rfl
  rw [Traced, hleaves]
  constructor
  · exact fun h => h (mem_singleton_self _)
  · rintro h schema' props' resources' hleaf
    obtain ⟨rfl, rfl, -⟩ := Ty.schema.inj (mem_singleton.mp hleaf)
    exact h

theorem traced_of_properties? (hun : type.union? = none)
    (hprops : type.properties? = none) : Traced p t c type := by
  intro schema props resources hleaf
  rw [Ty.leaves_of_union? hun] at hleaf
  rw [← mem_singleton.mp hleaf] at hprops
  cases hprops

/-! ### Sessions that bind such types -/

/-- What the scopes of bodies bind speaks of declared schemas. -/
def Tracing (p : Program) (t s : Session) : Prop :=
  ∀ ⦃scope c n type⦄, t.BodyAt scope c → Table.find? (s.scopes.bindings scope) n = some type →
    Traced p t c type

/-- Besides, the session is in the body of `c`, from where it sees the top level. -/
structure Sees (p : Program) (t : Session) (c : Option String) (s : Session) : Prop where
  tracing : Tracing p t s
  lt : s.scopes.current < s.scopes.all.length
  bodyAt : t.BodyAt s.scopes.current c
  global : t.BodyAt ScopeId.global none
  top : (s.scopes.scope ScopeId.global).parent = none
  parent : (s.scopes.scope s.scopes.current).parent = c.map fun _ => ScopeId.global

namespace Sees

theorem persists (h : Sees p t c s) (hscs : s.scopes.Persists u.scopes)
    (hcur : u.scopes.current = s.scopes.current) (hu : Tracing p t u) : Sees p t c u where
  tracing := hu
  lt := hcur ▸ h.lt.trans_le hscs.length_le
  bodyAt := hcur ▸ h.bodyAt
  global := h.global
  top := (hscs.parent _ (Nat.zero_lt_of_lt h.lt)).trans h.top
  parent := by rw [hcur, hscs.parent _ h.lt, h.parent]

theorem resolve (h : Sees p t c s) {n : String} {scope : ScopeId}
    (hn : s.scopes.resolve n = .ok (scope, type)) : Traced p t c type := by
  obtain ⟨hchain, hbd⟩ := Scopes.mem_chain_of_resolve hn
  have hpar : (s.scopes.scope s.scopes.current).parent = none ∨
      (s.scopes.scope s.scopes.current).parent = some ScopeId.global := by
    rw [h.parent]
    cases c <;> simp
  rcases Scopes.chainFrom_subset _ h.top hpar scope hchain with rfl | rfl
  · exact h.tracing h.bodyAt hbd
  · exact (h.tracing h.global hbd).of_top

theorem resolveType (h : Sees p t c s) {e : TypeExpr}
    (he : s.resolveType e = .ok type) : Traced p t c type := by
  intro schema props resources hleaf
  have hmean : e.meaning s.denotes? = some type := by
    rw [← resolveType_eq, he]
    rfl
  obtain ⟨n, -, type', hn, hleaf'⟩ := TypeExpr.exists_of_mem_leaves_meaning e hmean hleaf rfl
  obtain ⟨scope, hres, -⟩ := resolve_of_denotes? hn
  exact h.resolve hres hleaf'

theorem admits (h : Sees p t c s) (hty : s.Admits type) : Traced p t c type := by
  cases hty with
  | written he => exact h.resolveType he
  | _ => exact traced_of_properties? rfl rfl

theorem set (h : Sees p t c s) {n : String} (hfree : s.scopes.get? n = none)
    (hty : Traced p t c type) : Sees p t c { s with scopes := s.scopes.set n type } := by
  refine h.persists (Scopes.persists_set hfree) rfl fun scope c' m type' hb hfind => ?_
  rw [Scopes.find?_bindings_set] at hfind
  split at hfind
  · next hnew =>
    obtain ⟨rfl, -, -⟩ := hnew
    cases hfind
    exact hb.component_eq h.bodyAt ▸ hty
  · exact h.tracing hb hfind

theorem addResource (h : Sees p t c s) (n name : String) (type : Ty) : Sees p t c
    { s with scopes := s.scopes.modify n (Session.addResource name type) } := by
  refine h.persists (Scopes.keeps_modify (alike_addResource name type)).toPersists rfl
    fun scope c' m type' hb hfind => ?_
  rw [Scopes.find?_bindings_modify] at hfind
  split at hfind
  · obtain ⟨type₀, hbd, rfl⟩ := Option.map_eq_some_iff.mp hfind
    have htraced := h.tracing hb hbd
    cases type₀ with
    | schema _ _ _ => exact traced_schema.mpr (traced_schema.mp htraced)
    | _ => exact htraced
  · exact h.tracing hb hfind

end Sees

def Preserves (P : Session → Prop) (s t : Session) : Prop := P s → P t

instance {P : Session → Prop} : IsPreorder Session (Preserves P) where
  refl _ := id
  trans _ _ _ h h' := h' ∘ h

theorem enlists_sees : Enlists (fun _ => True) (Preserves (Sees p t c)) where
  report _ _ h := { h with }
  declare name _ hty h :=
    of_declare (P := Sees p t c) name (h.set · (h.admits hty)) fun _ => { h with }
  mark _ _ h := { h with }
  addResource n name type _ h := h.addResource n name type
  addInstance _ _ _ _ h := { h with }
  tell _ _ _ h := { h with }

theorem binds_sees : Binds (fun _ => True) (Preserves (Sees p t c)) where
  report _ _ h := { h with }
  bindAlias _ he hfree h := { h.set hfree (h.resolveType he) with }

/-! ### The types of a body -/

theorem find?_declareSchemas (hs : s.Regular)
    (hfs : ((declareSchemas ds).run s).2.findings = []) {n : String}
    (hn : n ∉ (schemasOf ds).map (·.name.text)) :
    Table.find? (((declareSchemas ds).run s).2.scopes.bindings s.scopes.current) n =
      Table.find? (s.scopes.bindings s.scopes.current) n := by
  induction ds generalizing s with
  | nil => rfl
  | cons d ds ih =>
    cases d with
    | schema d =>
      obtain ⟨-, hrest, hrgl⟩ := run_declareSchemas_cons hs hfs
      rw [hrest] at hfs ⊢
      have hne : n ≠ d.name.text := fun heq => hn (heq ▸ mem_cons_self)
      have hn' : n ∉ (schemasOf ds).map (·.name.text) := fun hmem =>
        hn (mem_cons_of_mem _ hmem)
      exact (ih hrgl hfs hn').trans ((find?_withSchema hs d n).trans (if_neg hne))
    | _ => exact ih hs hfs hn

namespace Typing

variable (h : Typing t c ds s) (hbody : p.Body c ds) (hgl : t.BodyAt ScopeId.global none)
include h hbody

theorem stems {d : SchemaDecl} (hd : .schema d ∈ ds) {types resources properties : Table Ty}
    (hbd : Table.find? (t.scopes.bindings s.scopes.current) d.name.text =
      some (.schema d.name.text types resources))
    (hprops : properties = types ∨ properties = [] ∧ ∃ a, .alias a ∈ ds) :
    Stems p t c d.name.text properties :=
  ⟨c, ds, d, s.scopes.current, types, resources, Or.inl rfl, hbody, hd, rfl, h.atBody, hbd,
    hprops⟩

include hgl

/-- Aliases speak of schemas that are declared. -/
theorem sees_aliased (hs : Tracing p t s) (halias : ∃ a, .alias a ∈ ds) :
    Sees p t c (s.aliased ds) := by
  obtain ⟨-, -, -, -, hnil, -⟩ := h.aliased_spec
  obtain ⟨hfr, hrgl⟩ := types_declareSchemas ds s h.regular
  obtain ⟨hdecl, -, -⟩ := declared_declareSchemas h.regular hnil
  have hsta : Sees p t c s := ⟨hs, h.regular.current_lt, h.atBody, hgl, h.top, h.parent⟩
  refine binds_sees.registerAliases _ (fun _ _ => trivial) _
    (hsta.persists hfr.scopes.toPersists hfr.current fun scope c' n type hb hfind => ?_)
  by_cases hsc : scope = s.scopes.current
  · subst hsc
    obtain rfl := hb.component_eq h.atBody
    by_cases hn : n ∈ (schemasOf ds).map (·.name.text)
    · -- a schema without properties
      obtain ⟨d, hd, rfl⟩ := mem_map.mp hn
      obtain ⟨-, resources, hbd⟩ := hdecl d hd
      rw [hfr.current] at hbd
      obtain rfl := Option.some.inj (hbd.symm.trans hfind)
      obtain ⟨types, ⟨resources', hlast⟩, -, -⟩ := h.describes (mem_schemasOf.mp hd)
      exact traced_schema.mpr (h.stems hbody (mem_schemasOf.mp hd) hlast
        (Or.inr ⟨rfl, halias⟩))
    · rw [find?_declareSchemas h.regular hnil hn, h.empty] at hfind
      cases hfind
  · rw [(binds_elsewhere.declareSchemas (fun _ _ => trivial) s).bindings scope hsc] at hfind
    exact hs hb hfind

/-- The types of a body speak of declared schemas. -/
theorem tracing (hs : Tracing p t s) : Tracing p t ((registerTypes ds).run s).2 := by
  intro scope c' n type hb hfind
  by_cases hsc : scope = s.scopes.current
  · subst hsc
    obtain rfl := hb.component_eq h.atBody
    by_cases hn : n ∈ (schemasOf ds).map (·.name.text)
    · -- a schema with its properties
      obtain ⟨d, hd, rfl⟩ := mem_map.mp hn
      obtain ⟨u, types, resources, -, -, -, -, -, hbd⟩ := h.exists_lists (mem_schemasOf.mp hd)
      obtain rfl := Option.some.inj (hbd.symm.trans hfind)
      obtain ⟨type', hty', hprops, hcore⟩ := h.lasting hbd
      obtain ⟨resources', rfl⟩ := Ty.eq_schema_of_core hcore hprops
      exact traced_schema.mpr (h.stems hbody (mem_schemasOf.mp hd) hty' (Or.inl rfl))
    · obtain ⟨hrgl, -, -, hintr, -⟩ := h.aliased_spec
      rw [run_registerTypes, find?_fillSchemas hrgl hn] at hfind
      -- what else the body binds are aliases
      have halias : ∃ a, .alias a ∈ ds := by
        rcases hintr.fresh (Option.isSome_iff_exists.mpr ⟨type, hfind⟩) with hbef | hmem
        · rw [h.empty] at hbef
          cases hbef
        · obtain ⟨d, hd, hnm⟩ := Decl.mem_typeNames.mp (hmem rfl)
          cases d with
          | schema d =>
            obtain rfl : d.name.text = n := Option.some.inj hnm
            exact absurd (mem_map_of_mem (mem_schemasOf.mpr hd)) hn
          | «alias» a => exact ⟨a, hd⟩
          | _ => cases hnm
      exact (h.sees_aliased hbody hgl hs halias).tracing hb hfind
  · rw [(elsewhere_registerTypes ds s).bindings scope hsc] at hfind
    exact hs hb hfind

end Typing

/-! ### The stages of registration -/

section Program

variable (hs : AtTop p s) (hcoh : s.Coherent)
  (hempty : ∀ scope n, Table.find? (s.scopes.bindings scope) n = none)
  (hnil : ((registerProgram p.items).run s).2.findings = [])
include hs

theorem sees_inside {cs cs' : List Defined} {d : Defined}
    (hcs : (defining p s).1 = cs ++ d :: cs')
    (htracing : Tracing p ((registerProgram p.items).run s).2 (bodied p s cs)) :
    Sees p ((registerProgram p.items).run s).2 (some d.name.text)
      ((bodied p s cs).inside d.name.text d.scope) := by
  have hd : d ∈ (defining p s).1 := hcs ▸ mem_append_right _ mem_cons_self
  have hbef : cs ⊆ (defining p s).1 := hcs ▸ subset_append_left cs (d :: cs')
  obtain ⟨hgr, htop⟩ := atTop_bodied hs hbef
  obtain ⟨hknows, -⟩ := knows_of_mem hs hd
  have hins := htop.inside (hknows.grows hgr)
  obtain ⟨i, hi, -, hsc⟩ := hknows
  have hb := ((atTop_defining hs).component hi).1
  rw [hsc] at hb
  exact {
    tracing := htracing
    lt := hins.current_lt
    bodyAt := (grows_registerProgram hs).bodyAt hb
    global := bodyAt_global hs
    top := hins.parent hins.top
    parent := hins.parent hins.bodyAt }

include hcoh hempty hnil

/-- They do so whatever components were defined before. -/
theorem tracing_reached (before : List Decl) {after : List Decl}
    (hits : p.items = before ++ after) :
    Tracing p ((registerProgram p.items).run s).2 (reached p s before).2 := by
  have hgl := bodyAt_global hs
  induction before using reverseRecOn generalizing after with
  | nil =>
    have hsta : Tracing p ((registerProgram p.items).run s).2 s := by
      intro scope c n type _ hfind
      rw [hempty] at hfind
      cases hfind
    exact (typing_top hs hcoh hempty hnil).tracing .top hgl hsta
  | append_singleton before d ih =>
    rw [append_assoc] at hits
    have hbef := ih hits
    have hstep : (reached p s (before ++ [d])).2 =
        ((defineComponents [d]).run (reached p s before).2).2 := by
      rw [reached, run_defineComponents_append]
      rfl
    rw [hstep]
    cases d with
    | component decs name body span =>
      have hnil' := (grows_registerProgram hs).findings_eq_nil hnil
      obtain ⟨hrun, -⟩ := run_defineComponent_reached hs hits hnil'
      obtain ⟨hpassed, -⟩ := passed_eq hs hits hnil'
      have hone : ((defineComponents [.component decs name body span]).run
          (reached p s before).2).2 = passed p s before name body := congrArg Prod.snd hrun
      rw [hone, hpassed]
      -- a new scope is empty
      have hnew : Tracing p ((registerProgram p.items).run s).2
          ((reached p s before).2.inNewScope name) := by
        intro scope c n type hb hfind
        exact hbef hb ((congrArg (Table.find? · n) Scopes.bindings_newChild).symm.trans hfind)
      have htys := (typing_component hs hcoh hnil hits).tracing
        (.component (hits ▸ mem_append_right _ mem_cons_self)) hgl hnew
      intro scope c n type hb hfind
      rcases ite_eq_iff.mp (Scopes.find?_bindings_set.symm.trans hfind) with ⟨-, hnew⟩ | ⟨-, hold⟩
      · exact Option.some.inj hnew ▸ traced_of_properties? rfl rfl
      · exact htys hb hold
    | _ => exact hbef

theorem tracing_bodied (cs : List Defined) {cs' : List Defined}
    (hcs : (defining p s).1 = cs ++ cs') :
    Tracing p ((registerProgram p.items).run s).2 (bodied p s cs) := by
  induction cs using reverseRecOn generalizing cs' with
  | nil => exact tracing_reached hs hcoh hempty hnil p.items (append_nil _).symm
  | append_singleton cs d ih =>
    rw [append_assoc] at hcs
    have hbody := enlists_sees.registerMembers d.body (fun _ _ => trivial) _
      (sees_inside hs hcs (ih hcs))
    have hstep : bodied p s (cs ++ [d]) = ((registerBody d).run (bodied p s cs)).2 := by
      rw [bodied, run_registerBodies_append]
      rfl
    rw [hstep]
    -- the component gets to know its instances, which are no schemas
    intro scope c n type hb hfind
    rcases ite_eq_iff.mp (Scopes.find?_bindings_modify.symm.trans hfind) with ⟨-, hnew⟩ | ⟨-, hold⟩
    · obtain ⟨type₀, hbd, rfl⟩ := Option.map_eq_some_iff.mp hnew
      cases type₀ with
      | component _ _ _ _ _ => exact traced_of_properties? rfl rfl
      | _ => exact hbody.tracing hb hbd
    · exact hbody.tracing hb hold

/-- Wherever registration comes to, names stand for schemas that are declared. -/
theorem Comes.sees {earlier : List Decl} {d : Decl} (h : Comes p s c earlier d u) :
    Sees p ((registerProgram p.items).run s).2 c u := by
  cases h with
  | @top earlier later d h =>
    obtain ⟨-, htop⟩ := atTop_bodied hs (Subset.refl (defining p s).1)
    have hcur := htop.current_eq_global
    refine enlists_sees.registerMembers earlier (fun _ _ => trivial) _ {
      tracing := tracing_bodied hs hcoh hempty hnil _ (append_nil _).symm
      lt := htop.current_lt
      bodyAt := by rw [hcur]; exact bodyAt_global hs
      global := bodyAt_global hs
      top := htop.parent htop.top
      parent := by rw [hcur]; exact htop.parent htop.top }
  | @member c cs cs' earlier later d hcs h =>
    exact enlists_sees.registerMembers earlier (fun _ _ => trivial) _ (sees_inside hs hcs
      (tracing_bodied hs hcoh hempty hnil cs hcs))

end Program

end Provision.Session
