import Provision.Proofs.Session.Binding

/-!
# Written types

What a written type means is never an instance, and if it is a component, that component is known
(`Session.writable_resolveType`). Binding schemas and aliases, and reading the signature of a
component, therefore leaves instances, bodies and dependencies alone: `Session.Types` holds of these
checks.
-/

namespace Provision

open List

namespace Ty

/-- No instance and no union; if it is a component, then one of those that are known. -/
structure Leaf (known : String → Prop) (t : Ty) : Prop where
  kind? : t.kind? = none
  union? : t.union? = none
  definition? : ∀ name, t.definition? = some name → known name

/-- A type that can be written: all its variants are no instances. -/
def Writable (known : String → Prop) (t : Ty) : Prop := ∀ v ∈ t.variants, v.Leaf known

variable {known : String → Prop} {t t' : Ty}

theorem Writable.mono {known' : String → Prop} (h : t.Writable known)
    (hknown : ∀ n, known n → known' n) : t.Writable known' := fun v hv =>
  { h v hv with definition? := fun n hn => hknown n ((h v hv).definition? n hn) }

theorem variants_of_union? (h : t.union? = none) : t.variants = [t] := by
  cases t <;> first | rfl | cases h

theorem Leaf.writable (h : t.Leaf known) : t.Writable known := by
  intro v hv
  rw [variants_of_union? h.union?, mem_singleton] at hv
  exact hv ▸ h

theorem Writable.leaf (h : t.Writable known) (hun : t.union? = none) : t.Leaf known := by
  refine h t ?_
  cases t <;> first | exact mem_singleton_self _ | cases hun

theorem Writable.kind? (h : t.Writable known) : t.kind? = none := by
  cases hun : t.union? with
  | none => exact (h.leaf hun).kind?
  | some vs => cases t <;> first | rfl | cases hun

theorem Writable.definition? (h : t.Writable known) {name : String}
    (hnm : t.definition? = some name) : known name := by
  cases hun : t.union? with
  | none => exact (h.leaf hun).definition? name hnm
  | some vs => cases t <;> first | cases hnm | cases hun

theorem Writable.alike (h : t.Writable known) (ha : t.Alike t') : t'.Writable known := by
  cases hun : t.union? with
  | none =>
    have hl := h.leaf hun
    refine Leaf.writable ⟨ha.kind?.trans hl.kind?, ha.union?.trans hun, fun name hn => ?_⟩
    exact hl.definition? name (ha.definition? ▸ hn)
  | some vs =>
    -- a union is only like itself
    have heq : t' = t := by
      have hun' := ha.union?.trans hun
      cases t <;> cases t' <;> simp_all [Ty.union?]
    exact heq ▸ h

theorem mem_foldl_addVariant {ts acc : List Ty} {v : Ty} (h : v ∈ ts.foldl addVariant acc) :
    v ∈ acc ∨ v ∈ ts := by
  induction ts generalizing acc with
  | nil => exact Or.inl h
  | cons u ts ih =>
    rcases ih h with hv | hv
    · unfold addVariant at hv
      split at hv
      · exact Or.inl hv
      · rw [mem_append, mem_singleton] at hv
        rcases hv with hv | rfl
        · exact Or.inl hv
        · exact Or.inr mem_cons_self
    · exact Or.inr (mem_cons_of_mem _ hv)

/-- A union of writable types is writable. -/
theorem Writable.ofVariants {ts : List Ty} (h : ∀ t ∈ ts, t.Writable known) :
    (Ty.ofVariants ts).Writable known := by
  have hleaf : ∀ v ∈ (ts.flatMap variants).foldl addVariant [], v.Leaf known := by
    intro v hv
    rcases mem_foldl_addVariant hv with hnil | hmem
    · cases hnil
    · obtain ⟨t, ht, hvt⟩ := mem_flatMap.mp hmem
      exact h t ht v hvt
  unfold Ty.ofVariants
  split
  · next t heq => exact (hleaf t (heq ▸ mem_singleton_self t)).writable
  · exact hleaf

end Ty

namespace Session

def HasComponent (s : Session) (name : String) : Prop :=
  ∃ i, Table.find? s.components name = some i

/-- Aliases are bound to types that can be written, and names of components to known ones. -/
structure Regular (s : Session) : Prop where
  current_lt : s.scopes.current < s.scopes.all.length
  aliases : ∀ {scope n}, (scope, n) ∈ s.aliases →
    ∃ t, Table.find? (s.scopes.bindings scope) n = some t ∧ t.Writable s.HasComponent
  definitions : ∀ {scope n t name}, Table.find? (s.scopes.bindings scope) n = some t →
    t.definition? = some name → s.HasComponent name

variable {s t : Session}

mutual

/-- What is written stands for a type that can be written. -/
theorem writable_resolveType (hs : s.Regular) :
    ∀ (e : TypeExpr) {type : Ty}, s.resolveType e = .ok type → type.Writable s.HasComponent
  | .named name, type, h => by
    rw [resolveType] at h
    split at h
    · obtain rfl := Except.ok.inj h
      exact Ty.Leaf.writable ⟨rfl, rfl, nofun⟩
    split at h
    · obtain rfl := Except.ok.inj h
      exact Ty.Leaf.writable ⟨rfl, rfl, nofun⟩
    split at h
    · cases h
    · next scope found hfound =>
      -- a name that is bound means something as an alias, a schema or a component
      have hbd := (Scopes.mem_chain_of_resolve hfound).2
      split at h
      · next halias =>
        obtain rfl := Except.ok.inj h
        obtain ⟨t, ht, hw⟩ := hs.aliases (contains_iff_mem.mp halias)
        exact Option.some.inj (ht.symm.trans hbd) ▸ hw
      split at h
      · obtain rfl := Except.ok.inj h
        exact Ty.Leaf.writable ⟨rfl, rfl, nofun⟩
      · obtain rfl := Except.ok.inj h
        exact Ty.Leaf.writable ⟨rfl, rfl, fun _ hn => hs.definitions hbd hn⟩
      · cases h
  | .array elem _, type, h => by
    rw [resolveType] at h
    cases helem : s.resolveType elem with
    | error d => rw [helem] at h; cases h
    | ok t =>
      rw [helem] at h
      obtain rfl := Except.ok.inj h
      exact Ty.Leaf.writable ⟨rfl, rfl, nofun⟩
  | .union variants _, type, h => by
    rw [resolveType] at h
    cases hvs : s.resolveTypes variants with
    | error d => rw [hvs] at h; cases h
    | ok ts =>
      rw [hvs] at h
      obtain rfl := Except.ok.inj h
      exact Ty.Writable.ofVariants (writable_resolveTypes hs variants hvs)

/-- Every type in a list that resolves is writable. -/
theorem writable_resolveTypes (hs : s.Regular) :
    ∀ (es : List TypeExpr) {types : List Ty}, s.resolveTypes es = .ok types →
      ∀ t ∈ types, t.Writable s.HasComponent
  | [], types, h => by
    rw [resolveTypes] at h
    obtain rfl := Except.ok.inj h
    exact fun _ ht => nomatch ht
  | e :: es, types, h => by
    rw [resolveTypes] at h
    cases he : s.resolveType e with
    | error d => rw [he] at h; cases h
    | ok u =>
      cases hes : s.resolveTypes es with
      | error d => rw [he, hes] at h; cases h
      | ok us =>
        rw [he, hes] at h
        obtain rfl := Except.ok.inj h
        rintro t (_ | ⟨_, ht⟩)
        · exact writable_resolveType hs e he
        · exact writable_resolveTypes hs es hes t ht

end

/-! ### Binding types -/

/-- Only names that are no instances were added, and they are bound regularly. -/
def Types (s t : Session) : Prop := s.Regular → Frame s t ∧ t.Regular

instance : IsPreorder Session Types where
  refl s h := ⟨Frame.refl s, h⟩
  trans s t u hst htu h := by
    obtain ⟨hfr, ht⟩ := hst h
    obtain ⟨hfr', hu⟩ := htu ht
    exact ⟨hfr.trans hfr', hu⟩

theorem Regular.scopes {e : Scopes} (h : s.Regular) (he : s.scopes.Persists e)
    (hcur : e.current < e.all.length)
    (hdefs : ∀ scope n t name, Table.find? (e.bindings scope) n = some t →
      t.definition? = some name → s.HasComponent name) : Regular { s with scopes := e } where
  current_lt := hcur
  aliases ha := by
    obtain ⟨t, ht, hw⟩ := h.aliases ha
    obtain ⟨t', ht', halike⟩ := he.bound _ _ t ht
    exact ⟨t', ht', hw.alike halike⟩
  definitions ht hn := hdefs _ _ _ _ ht hn

theorem types_report (d : Diagnostic) : Moves Types (report d) := fun s h =>
  ⟨frame_report d s, h.current_lt, h.aliases, h.definitions⟩

theorem types_reportProblem (p : Problem) (span : Span) : Moves Types (reportProblem p span) :=
  types_report _

theorem types_markRegistered (name : Ident) : Moves Types (markRegistered name) := fun s h =>
  ⟨frame_markRegistered name s, h.current_lt, h.aliases, h.definitions⟩

theorem Regular.set (h : s.Regular) {n : String} (type : Ty)
    (hunb : Table.find? (s.scopes.bindings s.scopes.current) n = none)
    (hty : ∀ name, type.definition? = some name → s.HasComponent name) :
    Regular { s with scopes := s.scopes.set n type } := by
  have hper : s.scopes.Persists (s.scopes.set n type) := Scopes.persists_set hunb
  refine h.scopes hper (h.current_lt.trans_le hper.length_le) ?_
  intro scope m t name ht hn
  rw [Scopes.find?_bindings_set] at ht
  split at ht
  · exact hty name (Option.some.inj ht ▸ hn)
  · exact h.definitions ht hn

/-- Declaring a name with a writable type keeps a session regular. -/
theorem types_declare (name : Ident) {type : Ty} (s : Session)
    (hty : type.Writable s.HasComponent) : Types s ((declare name type).run s).2 := by
  intro h
  exact ⟨frame_declare name hty.kind? s, of_declare (P := Regular) name
    (fun hunb => h.set type hunb fun _ hn => hty.definition? hn) fun d =>
      (types_report d s h).2⟩

theorem types_modify (n : String) {f : Ty → Ty} (hf : ∀ t : Ty, t.Alike (f t)) :
    Moves Types (modify fun s => { s with scopes := s.scopes.modify n f } : Checking Unit) := by
  intro s h
  have hkeeps : s.scopes.Keeps (s.scopes.modify n f) := Scopes.keeps_modify hf
  refine ⟨frame_scopes hkeeps rfl, h.scopes hkeeps.toPersists
    (h.current_lt.trans_le hkeeps.length_le) ?_⟩
  intro scope m t name ht hn
  obtain ⟨u, hu, rfl | rfl⟩ := Scopes.exists_of_modify ht
  · exact h.definitions hu hn
  · exact h.definitions hu ((hf u).definition? ▸ hn)

theorem hasComponent_modifyComponent (name : String) (f : ComponentInfo → ComponentInfo) :
    ((modifyComponent name f).run s).2.HasComponent = s.HasComponent := by
  funext n
  unfold HasComponent
  rw [find?_modifyComponent]
  split
  · simp
  · rfl

theorem Regular.modifyComponent (h : s.Regular) (name : String)
    (f : ComponentInfo → ComponentInfo) :
    Regular ((Session.modifyComponent name f).run s).2 where
  current_lt := h.current_lt
  aliases ha := by
    rw [hasComponent_modifyComponent]
    exact h.aliases ha
  definitions ht hn := by
    rw [hasComponent_modifyComponent]
    exact h.definitions ht hn

/-- Binding aliases and schemas keeps a session regular. -/
theorem binds_types : BindsTypes (fun _ => True) Types where
  report := types_report
  bindAlias {s e n type} _ hres hfree h := by
    have hty := writable_resolveType h e hres
    refine ⟨{ frame_scopes (Scopes.keeps_set hfree hty.kind?) rfl with }, ?_⟩
    obtain ⟨hlt, hals, hdefinitions⟩ := h.set type hfree fun _ => hty.definition?
    refine ⟨hlt, fun {scope m} ha => ?_, hdefinitions⟩
    rcases mem_cons.mp ha with heq | ha
    · cases heq
      exact ⟨type, Scopes.find?_bindings_set.trans (if_pos ⟨rfl, h.current_lt, rfl⟩), hty⟩
    · exact hals ha
  withSchema {s d} _ hfree h := by
    obtain ⟨hlt, hals, hdefinitions⟩ :=
      h.set (.schema d.name.text [] []) hfree fun _ hn => by cases hn
    have hfr := (frame_markRegistered d.name s).trans
      (frame_scopes (Scopes.keeps_set (t := .schema d.name.text [] []) hfree rfl) rfl)
    exact ⟨{ hfr with }, hlt, hals, hdefinitions⟩

theorem fills_types : Fills Types := fun n types => types_modify n fun t => by
  cases t with
  | schema name _ resources => exact ⟨rfl, rfl, rfl, rfl⟩
  | _ => exact Ty.Alike.refl _

theorem types_declareSchemas (ds : List Decl) : Moves Types (declareSchemas ds) :=
  binds_types.declareSchemas fun _ _ => trivial

theorem types_fillSchemas (ds : List Decl) : Moves Types (fillSchemas ds) :=
  binds_types.fillSchemas fills_types ds

theorem types_registerAliases (rounds : Nat) (as : List AliasDecl) :
    Moves Types (registerAliases rounds as) :=
  binds_types.registerAliases rounds fun _ _ => trivial

theorem types_registerTypes (ds : List Decl) : Moves Types (registerTypes ds) :=
  binds_types.registerTypes fills_types fun _ _ => trivial

theorem types_signatureOf (comp : String) (sig : Signature) (ds : List Decl) :
    Moves Types (signatureOf comp sig ds) :=
  binds_types.signatureOf comp sig ds

theorem signatureOf_flat (hs : s.Regular) {comp : String} {sig : Signature} {ds : List Decl}
    (h : ((signatureOf comp sig ds).run s).2.findings = []) :
    ∀ d ∈ ds, d.isComponent = false := by
  induction ds generalizing sig with
  | nil => exact fun d hd => (not_mem_nil hd).elim
  | cons e ds ih =>
    cases e with
    | component decs name body span =>
      have hrep := types_reportProblem (.nestedComponent name.text comp) name.span s hs
      have hrest := (types_signatureOf comp sig ds _ hrep.2).1
      have hnil := hrest.findings_eq_nil h
      exact absurd hnil (concat_ne_nil _ _)
    | _ =>
      intro d hd
      rcases mem_cons.mp hd with rfl | hd
      · rfl
      · exact ih h d hd

/-! ### The signature of a component -/

theorem types_newChild (s : Session) (name : Option String) :
    Types s { s with scopes := (s.scopes.newChild name).2 } := by
  intro h
  have hkeeps := Scopes.keeps_newChild s.scopes name
  refine ⟨frame_newChild s name, h.scopes hkeeps.toPersists
    (h.current_lt.trans_le hkeeps.length_le) fun scope n t comp ht hn => ?_⟩
  rw [Scopes.bindings_newChild] at ht
  exact h.definitions ht hn

theorem Regular.within (h : s.Regular) {scope : ScopeId} (hsc : scope < s.scopes.all.length) :
    (s.within scope).Regular := ⟨hsc, h.aliases, h.definitions⟩

theorem types_inScope {scope : ScopeId} {act : Checking α} (hact : Moves Types act)
    (hsc : scope < s.scopes.all.length) : Types s ((inScope scope act).run s).2 := by
  intro h
  obtain ⟨hfr, ht⟩ := hact _ (h.within hsc)
  rw [run_inScope]
  refine ⟨hfr.within_back, ht.within ?_⟩
  exact h.current_lt.trans_le hfr.scopes.length_le

end Session

end Provision
