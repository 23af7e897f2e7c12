import Provision.Proofs.Session.Stages

/-!
# Reading a signature and registering its ports

The types of the inputs and outputs of a component are resolved twice: when its signature is read,
and when the members of its body are registered. In between the components behind it are defined,
and members that stand before an input or an output are bound. `Session.Signing` says what is known
at the first moment, and what has come in by the second.

In the scope of a component a name means what the scope itself binds, or else what the top level
does (`Session.Nested.denotes?_eq`). So a name that is known when the signature is read, and that no
member before takes, means types of one outline at both moments (`Session.denotes?_outline_eq`).
-/

namespace Provision

open List Table Scopes Decl

variable {name : Ident} {ds body before : List Decl} {n : String}

inductive Port where
  | input
  | output
deriving DecidableEq

/-- The input or output that a declaration is, with its name and its written type. -/
def Decl.port? : Decl → Option (Port × Ident × TypeExpr)
  | .input d => some (.input, d.name, d.type)
  | .output d => some (.output, d.name, d.type)
  | _ => none

namespace Session

variable {p : Program} {s t u : Session} {W : ScopeId → String → Prop} {A : ScopeId → Prop}
  {σ : ScopeId}

/-! ### Signatures -/

def Signature.ports (sig : Signature) : Port → Table Ty
  | .input => sig.inputs
  | .output => sig.outputs

/-- The signature with the type of an input or an output. -/
def Signature.insert (sig : Signature) (port : Port) (n : String) (type : Ty) : Signature :=
  match port with
  | .input => { sig with inputs := sig.inputs.insert n type }
  | .output => { sig with outputs := sig.outputs.insert n type }

theorem Signature.find?_insert (sig : Signature) (port port' : Port) (n m : String) (type : Ty) :
    find? ((sig.insert port n type).ports port') m =
      if port' = port ∧ m = n then some type else find? (sig.ports port') m := by
  cases port <;> cases port' <;> simp [insert, ports]

/-- The type that a signature lists where a written one is found. -/
def listed (s : Session) (e : TypeExpr) : Ty := (s.resolveType e).toOption.getD .any

theorem run_signatureOf_of_port? {d : Decl} {port : Port} {e : TypeExpr}
    (h : d.port? = some (port, name, e)) (comp : String) (sig : Signature) (ds : List Decl) :
    (signatureOf comp sig (d :: ds)).run s =
      (signatureOf comp (sig.insert port name.text (s.listed e)) ds).run s := by
  cases d with
  | input d => cases h; rfl
  | output d => cases h; rfl
  | _ => cases h

theorem run_signatureOf_of_none {d : Decl} (h : d.port? = none) (hd : d.isComponent = false)
    (comp : String) (sig : Signature) (ds : List Decl) :
    (signatureOf comp sig (d :: ds)).run s = (signatureOf comp sig ds).run s := by
  cases d with
  | input d => cases h
  | output d => cases h
  | component _ _ _ _ => cases hd
  | _ => rfl

theorem run_signatureOf_snd (hds : ∀ d ∈ ds, d.isComponent = false) (comp : String)
    (sig : Signature) : ((signatureOf comp sig ds).run s).2 = s := by
  induction ds generalizing sig with
  | nil => rfl
  | cons d ds ih =>
    obtain ⟨hd, hds⟩ := forall_mem_cons.mp hds
    cases hport : d.port? with
    | none => rw [run_signatureOf_of_none hport hd, ih hds]
    | some found =>
      obtain ⟨port, name, e⟩ := found
      rw [run_signatureOf_of_port? hport, ih hds]

theorem run_signatureOf_append (hds : ∀ d ∈ ds, d.isComponent = false) (comp : String)
    (sig : Signature) (es : List Decl) :
    (signatureOf comp sig (ds ++ es)).run s =
      (signatureOf comp ((signatureOf comp sig ds).run s).1 es).run s := by
  induction ds generalizing sig with
  | nil => rfl
  | cons d ds ih =>
    obtain ⟨hd, hds⟩ := forall_mem_cons.mp hds
    rw [cons_append]
    cases hport : d.port? with
    | none =>
      rw [run_signatureOf_of_none hport hd, run_signatureOf_of_none hport hd, ih hds]
    | some found =>
      obtain ⟨port, name, e⟩ := found
      rw [run_signatureOf_of_port? hport, run_signatureOf_of_port? hport, ih hds]

theorem find?_signatureOf (hds : ∀ d ∈ ds, d.isComponent = false) (comp : String)
    (sig : Signature) (port : Port)
    (hn : ∀ d ∈ ds, ∀ name e, d.port? = some (port, name, e) → name.text ≠ n) :
    find? (((signatureOf comp sig ds).run s).1.ports port) n =
      find? (sig.ports port) n := by
  induction ds generalizing sig with
  | nil => rfl
  | cons d ds ih =>
    obtain ⟨hd, hds⟩ := forall_mem_cons.mp hds
    obtain ⟨hfst, hn⟩ := forall_mem_cons.mp hn
    cases hport : d.port? with
    | none => rw [run_signatureOf_of_none hport hd, ih hds _ hn]
    | some found =>
      obtain ⟨port', name, e⟩ := found
      rw [run_signatureOf_of_port? hport, ih hds _ hn, Signature.find?_insert, if_neg]
      rintro ⟨rfl, rfl⟩
      exact hfst name e hport rfl

theorem find?_signatureOf_port {earlier later : List Decl} {d : Decl} {port : Port} {e : TypeExpr}
    (hds : ∀ d' ∈ earlier ++ d :: later, d'.isComponent = false)
    (hport : d.port? = some (port, name, e))
    (hlater : ∀ d' ∈ later, ∀ name' e', d'.port? = some (port, name', e') → name'.text ≠ name.text)
    (comp : String) (sig : Signature) :
    find? (((signatureOf comp sig (earlier ++ d :: later)).run s).1.ports port)
      name.text = some (s.listed e) := by
  have hearl : ∀ d' ∈ earlier, d'.isComponent = false := fun d' hd' =>
    hds d' (mem_append_left _ hd')
  have hrest : ∀ d' ∈ later, d'.isComponent = false := fun d' hd' =>
    hds d' (mem_append_right _ (mem_cons_of_mem d hd'))
  rw [run_signatureOf_append hearl, run_signatureOf_of_port? hport,
    find?_signatureOf hrest _ _ _ hlater, Signature.find?_insert, if_pos ⟨rfl, rfl⟩]

/-! ### The meaning of a name in the scope of a component -/

/-- A session is in a scope right inside the global one. -/
structure Nested (s : Session) (σ : ScopeId) : Prop where
  current : s.scopes.current = σ
  lt : σ < s.scopes.all.length
  ne_global : σ ≠ ScopeId.global
  top : (s.scopes.scope ScopeId.global).parent = none
  parent : (s.scopes.scope σ).parent = some ScopeId.global

theorem Nested.introduces (h : s.Nested σ) (hst : Introduces W A s t) : t.Nested σ where
  current := hst.current.trans h.current
  lt := h.lt.trans_le hst.persists.length_le
  ne_global := h.ne_global
  top := (hst.persists.parent _ ((Nat.pos_of_ne_zero h.ne_global).trans h.lt)).trans h.top
  parent := (hst.persists.parent _ h.lt).trans h.parent

theorem Nested.chain (h : s.Nested σ) :
    s.scopes.chain s.scopes.current = [σ, ScopeId.global] := by
  rw [h.current]
  exact chain_component h.lt h.ne_global h.top h.parent

theorem Nested.exists_of_denotes? (h : s.Nested σ) {type : Ty}
    (hn : s.denotes? n = some type) : ∃ scope, (scope = σ ∨ scope = ScopeId.global) ∧
      find? (s.scopes.bindings scope) n = some type ∧
      ((scope, n) ∈ s.aliases ∨ type.isNominal = true) := by
  obtain ⟨scope, hres, hwr⟩ := resolve_of_denotes? hn
  obtain ⟨hsc, hbd⟩ := mem_chain_of_resolve hres
  rw [h.chain] at hsc
  exact ⟨scope, by simpa using hsc, hbd, hwr⟩

/-- What a name that a scope binds means where a type is written, if anything. -/
def writtenIn? (s : Session) (scope : ScopeId) (n : String) : Option (Option Ty) :=
  (find? (s.scopes.bindings scope) n).map fun type =>
    if s.aliases.contains (scope, n) || type.isNominal then some type else none

theorem Nested.denotes?_eq (h : s.Nested σ) (n : String) :
    s.denotes? n = ((s.writtenIn? σ n).or (s.writtenIn? ScopeId.global n)).join := by
  rw [denotes?, resolve, h.chain, findSome?_cons, bindingIn?, writtenIn?]
  cases find? (s.scopes.bindings σ) n with
  | some type => rfl
  | none =>
    rw [Option.map_none, Option.map_none, Option.none_or, findSome?_cons,
      bindingIn?, writtenIn?]
    cases find? (s.scopes.bindings ScopeId.global) n <;> rfl

/-- What is written in a scope keeps its outline. -/
theorem Introduces.writtenIn?_eq (h : Introduces W A s t) (hs : s.Coherent) {scope : ScopeId}
    (hA : ¬ A scope) (hn : (find? (s.scopes.bindings scope) n).isSome) :
    (t.writtenIn? scope n).map (·.map Ty.outline) =
      (s.writtenIn? scope n).map (·.map Ty.outline) := by
  obtain ⟨type, hty⟩ := Option.isSome_iff_exists.mp hn
  obtain ⟨type', hty', hcore⟩ := h.bound hty
  have hals : t.aliases.contains (scope, n) = s.aliases.contains (scope, n) := by
    rw [Bool.eq_iff_iff, contains_iff_mem, contains_iff_mem]
    exact ⟨fun hmem => (h.aliased hmem).resolve_right hA, fun hmem => h.aliases hmem⟩
  simp only [writtenIn?, hty, hty', Option.map_some, hals, Ty.isNominal_of_core hcore]
  by_cases hwr : (s.aliases.contains (scope, n) || type.isNominal) = true
  · -- what can be written is no function, so its core tells its outline
    have hps : type.params? = none := by
      rcases Bool.or_eq_true_iff.mp hwr with halias | hnominal
      · obtain ⟨type'', hty'', hflat⟩ := hs.alias_flat (contains_iff_mem.mp halias)
        exact Option.some.inj (hty''.symm.trans hty) ▸ hflat.params?
      · cases type with
        | function params result => cases hnominal
        | _ => rfl
    rw [if_pos hwr, if_pos hwr, Option.map_some, Option.map_some,
      Ty.outline_of_core hcore hps]
  · rw [if_neg hwr, if_neg hwr]

/-- A name that was known, and that was not hidden since, still means the same. -/
theorem denotes?_outline_eq (h : Introduces W A s t) (hs : s.Coherent) (hnst : s.Nested σ)
    (hA : ¬ A σ ∧ ¬ A ScopeId.global)
    (hn : (find? (s.scopes.bindings σ) n).isSome ∨
      (find? (s.scopes.bindings ScopeId.global) n).isSome ∧ ¬ W σ n) :
    (t.denotes? n).map Ty.outline = (s.denotes? n).map Ty.outline := by
  have hmap : ∀ x : Option (Option Ty), x.join.map Ty.outline = (x.map (·.map Ty.outline)).join :=
    fun x => by cases x <;> rfl
  have hor : ∀ x y : Option (Option Ty), (x.or y).map (·.map Ty.outline) =
      (x.map (·.map Ty.outline)).or (y.map (·.map Ty.outline)) := fun x y => by cases x <;> rfl
  rw [hnst.denotes?_eq, (hnst.introduces h).denotes?_eq, hmap, hmap, hor, hor]
  by_cases hbd : (find? (s.scopes.bindings σ) n).isSome
  · rw [h.writtenIn?_eq hs hA.1 hbd]
    obtain ⟨type, hty⟩ := Option.isSome_iff_exists.mp hbd
    rw [writtenIn?, hty]
    rfl
  · -- the scope itself binds the name at neither moment
    obtain ⟨hgl, hW⟩ := hn.resolve_left hbd
    have hs' : s.writtenIn? σ n = none := by
      rw [writtenIn?, Option.not_isSome_iff_eq_none.mp hbd]
      rfl
    have ht' : t.writtenIn? σ n = none := by
      rw [writtenIn?, Option.not_isSome_iff_eq_none.mp fun hsome =>
        (h.fresh hsome).elim hbd hW]
      rfl
    rw [hs', ht', h.writtenIn?_eq hs hA.2 hgl]

/-! ### From the signature to the body -/

theorem run_defineComponents_append (ds es : List Decl) (s : Session) :
    (defineComponents (ds ++ es)).run s =
      (((defineComponents ds).run s).1 ++
        ((defineComponents es).run ((defineComponents ds).run s).2).1,
        ((defineComponents es).run ((defineComponents ds).run s).2).2) := by
  induction ds generalizing s with
  | nil => rfl
  | cons d ds ih =>
    cases d with
    | component decs name body span =>
      rw [cons_append, run_defineComponents_cons, run_defineComponents_cons, ih, append_assoc]
    | _ => exact ih s

theorem length_le_of_mem_defineComponents (hs : AtTop p s)
    {c : Defined} (hc : c ∈ ((defineComponents ds).run s).1) : s.scopes.all.length ≤ c.scope := by
  induction ds generalizing s with
  | nil => cases hc
  | cons d ds ih =>
    cases d with
    | component decs name body span =>
      have hone := defines_component hs name body
      have hc : c ∈ ((defineComponent name body).run s).1.toList ++
          ((defineComponents ds).run ((defineComponent name body).run s).2).1 := hc
      rcases mem_append.mp hc with hc | hc
      · rcases run_defineComponent s name body with ⟨-, hrun⟩ | ⟨f, hrun⟩
        · rw [hrun] at hc
          obtain rfl := mem_singleton.mp hc
          exact le_rfl
        · rw [hrun] at hc
          cases hc
      · exact hone.grows.scopes.length_le.trans
          (ih (hs.grows hone.grows hone.registering) hc)
    | _ => exact ih hs hc

theorem nested_inNewScope (hs : AtTop p s) (name : Ident) :
    (s.inNewScope name).Nested s.scopes.all.length where
  current := rfl
  lt := by simp [inNewScope, within, Scopes.newChild, Scopes.enter]
  ne_global := (Nat.zero_lt_of_lt hs.current_lt).ne'
  top := by
    have hlt : ScopeId.global < s.scopes.all.length := Nat.zero_lt_of_lt hs.current_lt
    exact (congrArg Scope.parent (scope_newChild_of_lt hlt)).trans (hs.parent hs.top)
  parent := by
    refine (congrArg Scope.parent scope_newChild).trans ?_
    exact congrArg some hs.current_eq_global

theorem nested_registerTypes (hs : AtTop p s)
    (hcoh : s.Coherent) (name : Ident) (body : List Decl) :
    ((registerTypes body).run (s.inNewScope name)).2.Nested s.scopes.all.length ∧
      ((registerTypes body).run (s.inNewScope name)).2.Coherent := by
  have hnst := nested_inNewScope hs name
  obtain ⟨-, hch⟩ := introducing_newChild (W := fun _ _ => True) (A := fun _ => True) s
    (some name.text) rfl hcoh
  obtain ⟨htys, hcoh'⟩ := introducing_registerTypes (W := fun _ _ => True)
    (A := fun _ => True) body (fun _ _ => trivial) trivial (s.inNewScope name) rfl
    (hch.within hnst.lt)
  exact ⟨hnst.introduces htys, hcoh'⟩

theorem afterSignature_eq (s : Session) (name : Ident)
    (hflat : ∀ d ∈ body, d.isComponent = false) : s.afterSignature name body =
      (((signatureOf name.text {} body).run ((registerTypes body).run (s.inNewScope name)).2).1,
        ((registerTypes body).run (s.inNewScope name)).2.within s.scopes.current) := by
  have hstate := run_signatureOf_snd (s := ((registerTypes body).run (s.inNewScope name)).2) hflat
    name.text {}
  have hrun : s.afterSignature name body =
      (((signatureOf name.text {} body).run ((registerTypes body).run (s.inNewScope name)).2).1,
        ((signatureOf name.text {} body).run ((registerTypes body).run
          (s.inNewScope name)).2).2.within s.scopes.current) := rfl
  rw [hrun, hstate]

/-- What is known of a component: `u` is the session in which its signature is read, and `x` the one
in which the registration of its body begins. -/
structure Signing (p : Program) (s : Session) (before : List Decl) (name : Ident) (body : List Decl)
    (σ : ScopeId) (u x : Session) : Prop where
  nested : u.Nested σ
  coherent : u.Coherent
  /-- The scope of the component binds the types of its body. -/
  types : ∀ n, (find? (u.scopes.bindings σ) n).isSome ↔ n ∈ typeNames body
  /-- The top level binds its types, and the components before this one. -/
  globals : ∀ n, (find? (u.scopes.bindings ScopeId.global) n).isSome ↔
    n ∈ typeNames p.items ∨ n ∈ componentNames before
  /-- In the end the scope of the component binds its members besides. -/
  names : ∀ n, (find? (((registerProgram p.items).run s).2.scopes.bindings σ) n).isSome →
    n ∈ typeNames body ∨ n ∈ memberNames body
  flat : ∀ d ∈ body, d.isComponent = false
  atBody : ((registerProgram p.items).run s).2.BodyAt σ (some name.text)
  definition : ∃ nested, find? (((registerProgram p.items).run s).2.scopes.bindings
    ScopeId.global) name.text = some (.component name.text none
      ((signatureOf name.text {} body).run u).1.inputs
      ((signatureOf name.text {} body).run u).1.outputs nested)
  introduces : Introduces (fun scope _ => scope ≠ σ)
    (fun scope => scope ≠ σ ∧ scope ≠ ScopeId.global) u x
  coherent_start : x.Coherent
  comes : ∀ {earlier d later}, body = earlier ++ d :: later →
    Comes p s (some name.text) earlier d ((registerMembers earlier).run x).2

/-- The components before one, and the session in which registration comes to it. -/
def reached (p : Program) (s : Session) (before : List Decl) : List Defined × Session :=
  (defineComponents before).run (typed p s)

/-- The session in which a component is defined, but not yet those behind it. -/
def passed (p : Program) (s : Session) (before : List Decl) (name : Ident) (body : List Decl) :
    Session :=
  ((reached p s before).2.afterSignature name body).2.withComponent name
    ((reached p s before).2.definitionOf name body) body (reached p s before).2.scopes.all.length

theorem find?_bindings_length (e : Scopes) (n : String) :
    find? (e.bindings e.all.length) n = none := by
  rw [bindings, scope, getElem?_eq_none le_rfl]
  rfl

/-- A body binds the types it declares; elsewhere nothing is new. -/
theorem isSome_find?_inNewScope (hs : s.Regular) (hcoh : s.Coherent)
    (hnil : ((registerTypes body).run (s.inNewScope name)).2.findings = []) (scope : ScopeId)
    (n : String) :
    (find? (((registerTypes body).run (s.inNewScope name)).2.scopes.bindings scope)
      n).isSome ↔
      if scope = s.scopes.all.length then n ∈ typeNames body
      else (find? (s.scopes.bindings scope) n).isSome := by
  have hlt := s.scopes.length_lt_newChild (some name.text)
  obtain ⟨hintr, -⟩ := introduces_inNewScope
    (W := fun scope n => scope = s.scopes.all.length ∧ n ∈ typeNames body)
    (A := fun scope => scope = s.scopes.all.length) hcoh name
    (introducing_registerTypes body (fun n hn => ⟨rfl, hn⟩) rfl)
  split
  · next hsc =>
    subst hsc
    constructor
    · intro hn
      rcases hintr.fresh hn with hn | ⟨-, hn⟩
      · rw [find?_bindings_length] at hn
        cases hn
      · exact hn
    · exact fun hn => isSome_of_mem_typeNames ((types_newChild s (some name.text) hs).2.within hlt)
        hnil hn
  · next hsc =>
    constructor
    · intro hn
      rcases hintr.fresh hn with hn | ⟨heq, -⟩
      · exact hn
      · exact absurd heq hsc
    · exact fun hn => hintr.persists.isSome_find? hn

section Signing

variable (hs : AtTop p s)
include hs

theorem definesAll_reached (before : List Decl) :
    DefinesAll p (typed p s) before (reached p s before) ∧ AtTop p (reached p s before).2 := by
  have hdefs := defines_components before (atTop_typed hs)
  exact ⟨hdefs, (atTop_typed hs).grows hdefs.grows hdefs.registering⟩

theorem introduces_reached (hcoh : s.Coherent) (before : List Decl) :
    Introduces (fun scope n => scope = ScopeId.global →
        n ∈ typeNames p.items ∨ n ∈ componentNames before) (fun _ => True) s
        (reached p s before).2 ∧ (reached p s before).2.Coherent := by
  have htop := atTop_typed hs
  obtain ⟨htys, hcoh'⟩ := introducing_registerTypes (A := fun _ => True)
    (W := fun scope n => scope = ScopeId.global →
      n ∈ typeNames p.items ∨ n ∈ componentNames before)
    p.items (fun n hn _ => Or.inl hn) trivial s rfl hcoh
  obtain ⟨hcomps, hrchd⟩ := introduces_defineComponents (A := fun _ => True)
    (W := fun scope n => scope = ScopeId.global →
      n ∈ typeNames p.items ∨ n ∈ componentNames before) before
    hcoh' htop.current_eq_global
    (fun scope hsc => ⟨trivial, fun _ heq => absurd heq
      ((Nat.zero_lt_of_lt htop.current_lt).trans_le hsc).ne'⟩) fun n hn _ => Or.inr hn
  exact ⟨htys.trans hcomps, hrchd⟩

theorem nested_reached (hcoh : s.Coherent) (before : List Decl) (name : Ident)
    (body : List Decl) :
    ((registerTypes body).run ((reached p s before).2.inNewScope name)).2.Nested
        (reached p s before).2.scopes.all.length ∧
      ((registerTypes body).run ((reached p s before).2.inNewScope name)).2.Coherent :=
  nested_registerTypes (definesAll_reached hs before).2
    (introduces_reached hs hcoh before).2 name body

/-- When registration comes to a component, the top level binds its types and the components
before. -/
theorem isSome_find?_reached (hcoh : s.Coherent)
    (hempty : ∀ scope n, find? (s.scopes.bindings scope) n = none)
    (hnil : (reached p s before).2.findings = []) (n : String) :
    (find? ((reached p s before).2.scopes.bindings ScopeId.global) n).isSome ↔
      n ∈ typeNames p.items ∨ n ∈ componentNames before := by
  obtain ⟨hdefs, -⟩ := definesAll_reached hs before
  constructor
  · intro hn
    rcases (introduces_reached hs hcoh before).1.fresh hn with hn | hn
    · rw [hempty] at hn
      cases hn
    · exact hn rfl
  · rintro (hn | hn)
    · have hbd := isSome_of_mem_typeNames hs.toRegular
        (hdefs.grows.findings_eq_nil hnil) hn
      rw [hs.current_eq_global] at hbd
      exact hdefs.grows.scopes.isSome_find? hbd
    · obtain ⟨decs, name, body, span, hmem, rfl⟩ := mem_componentNames.mp hn
      exact (hdefs.complete hnil hmem).2.1.2

theorem scope_lt_of_mem_reached {c : Defined}
    (hc : c ∈ (reached p s before).1) : c.scope < (reached p s before).2.scopes.all.length := by
  obtain ⟨hbef, -⟩ := definesAll_reached hs before
  obtain ⟨-, i, hi, -, hsc⟩ := hbef.defined c hc
  exact hsc ▸ hbef.registering.lt (hbef.registering.component hi).1

section Passing

variable {before after : List Decl} {decs : List Decoration} {name : Ident}
  {body : List Decl} {span : Span}
  (hits : p.items = before ++ .component decs name body span :: after)
  (hnil : (defining p s).2.findings = [])
include hits hnil

theorem run_defineComponent_reached :
    (defineComponent name body).run (reached p s before).2 =
        (some ⟨name, body, (reached p s before).2.scopes.all.length⟩,
          passed p s before name body) ∧
      find? (((reached p s before).2.afterSignature name body).2.scopes.bindings
        ScopeId.global) name.text = none := by
  obtain ⟨-, htop⟩ := definesAll_reached hs before
  have hone := defines_component htop name body
  have haft := defines_components after (htop.grows hone.grows hone.registering)
  have hnilC : ((defineComponent name body).run (reached p s before).2).2.findings = [] := by
    rw [defining, hits, run_defineComponents_append] at hnil
    exact haft.grows.findings_eq_nil hnil
  rcases run_defineComponent (reached p s before).2 name body with ⟨hunb, hrun⟩ | ⟨f, hrun⟩
  · have hcur : ((reached p s before).2.afterSignature name body).2.scopes.current =
        ScopeId.global := htop.current_eq_global
    exact ⟨hrun, hcur ▸ hunb⟩
  · -- a name that is taken is a finding
    rw [hrun] at hnilC
    exact absurd hnilC (concat_ne_nil _ _)

/-- The definition of components, cut at one of them. -/
theorem defining_eq :
    defining p s = ((reached p s before).1 ++
        ⟨name, body, (reached p s before).2.scopes.all.length⟩ ::
          ((defineComponents after).run (passed p s before name body)).1,
        ((defineComponents after).run (passed p s before name body)).2) ∧
      AtTop p (passed p s before name body) ∧ (passed p s before name body).findings = [] := by
  obtain ⟨-, htop⟩ := definesAll_reached hs before
  obtain ⟨hrun, -⟩ := run_defineComponent_reached hs hits hnil
  have hone := defines_component htop name body
  rw [hrun] at hone
  have hpassed := htop.grows hone.grows hone.registering
  have haft := defines_components after hpassed
  have hdfn : defining p s = ((reached p s before).1 ++
      (((defineComponent name body).run (reached p s before).2).1.toList ++
        ((defineComponents after).run
          ((defineComponent name body).run (reached p s before).2).2).1),
      ((defineComponents after).run
        ((defineComponent name body).run (reached p s before).2).2).2) := by
    rw [defining, hits, run_defineComponents_append]
    rfl
  rw [hrun] at hdfn
  rw [hdfn] at hnil
  exact ⟨hdfn, hpassed, haft.grows.findings_eq_nil hnil⟩

theorem passed_eq :
    passed p s before name body =
        (((registerTypes body).run ((reached p s before).2.inNewScope name)).2.within
          ScopeId.global).withComponent name ((reached p s before).2.definitionOf name body) body
          (reached p s before).2.scopes.all.length ∧
      find? (((registerTypes body).run
        ((reached p s before).2.inNewScope name)).2.scopes.bindings ScopeId.global) name.text =
          none := by
  obtain ⟨-, htop⟩ := definesAll_reached hs before
  obtain ⟨-, -, hnilC⟩ := defining_eq hs hits hnil
  obtain ⟨-, hunb⟩ := run_defineComponent_reached hs hits hnil
  have hsig : ((reached p s before).2.afterSignature name body).2 =
      ((registerTypes body).run ((reached p s before).2.inNewScope name)).2.within
        ScopeId.global := by
    rw [afterSignature_eq _ _ (flat_of_afterSignature htop.toRegular hnilC), htop.current_eq_global]
  rw [hsig] at hunb
  rw [passed, hsig]
  exact ⟨rfl, hunb⟩

theorem length_reached_lt (hcoh : s.Coherent) :
    (reached p s before).2.scopes.all.length <
      (passed p s before name body).scopes.all.length := by
  obtain ⟨hnst, -⟩ := nested_reached hs hcoh before name body
  obtain ⟨hpassed, hunb⟩ := passed_eq hs hits hnil
  rw [hpassed]
  refine hnst.lt.trans_le (persists_set (e := (((registerTypes body).run
    ((reached p s before).2.inNewScope name)).2.within ScopeId.global).scopes) hunb).length_le

/-- The body of a component is left alone while others are defined. -/
theorem introduces_defining (hcoh : s.Coherent) :
    Introduces (fun scope _ => scope ≠ (reached p s before).2.scopes.all.length)
        (fun scope => scope ≠ (reached p s before).2.scopes.all.length ∧ scope ≠ ScopeId.global)
        (((registerTypes body).run ((reached p s before).2.inNewScope name)).2.within
          ScopeId.global) (defining p s).2 ∧
      (defining p s).2.Coherent := by
  obtain ⟨hdfn, hpassed, -⟩ := defining_eq hs hits hnil
  obtain ⟨hpassed_eq, hunb⟩ := passed_eq hs hits hnil
  obtain ⟨hnst, hcohU⟩ := nested_reached hs hcoh before name body
  set σ := (reached p s before).2.scopes.all.length with hσ
  set u := ((registerTypes body).run ((reached p s before).2.inNewScope name)).2 with hu
  have hnew : ScopeId.global ≠ σ := hnst.ne_global.symm
  -- the signature is read in `u`, and then the component is bound
  have hcoh' : (u.within ScopeId.global).Coherent :=
    hcohU.within (Nat.zero_lt_of_lt hnst.lt)
  obtain ⟨hset, hcohC⟩ := introduces_withComponent (W := fun scope _ => scope ≠ σ)
    (A := fun scope => scope ≠ σ ∧ scope ≠ ScopeId.global) hcoh' rfl name
    ((reached p s before).2.afterSignature name body).1.inputs
    ((reached p s before).2.afterSignature name body).1.outputs body σ hunb hnew
  rw [← definitionOf, ← hpassed_eq] at hset hcohC
  -- the components behind it
  have hlt : σ < (passed p s before name body).scopes.all.length :=
    length_reached_lt hs hits hnil hcoh
  obtain ⟨haft, hcohD⟩ := introduces_defineComponents (W := fun scope _ => scope ≠ σ)
    (A := fun scope => scope ≠ σ ∧ scope ≠ ScopeId.global) after hcohC
    hpassed.current_eq_global (fun scope hsc => ⟨⟨(hlt.trans_le hsc).ne', (Nat.zero_lt_of_lt
      (hlt.trans_le hsc)).ne'⟩, fun _ => (hlt.trans_le hsc).ne'⟩) fun _ _ => hnew
  rw [hdfn]
  exact ⟨hset.trans haft, hcohD⟩

/-- Between the signature of a component and its body the components behind it are defined, and the
bodies of those before it are registered. -/
theorem introduces_start (hcoh : s.Coherent) :
    Introduces (fun scope _ => scope ≠ (reached p s before).2.scopes.all.length)
      (fun scope => scope ≠ (reached p s before).2.scopes.all.length ∧ scope ≠ ScopeId.global)
      ((registerTypes body).run ((reached p s before).2.inNewScope name)).2
      ((bodied p s (reached p s before).1).inside name.text
        (reached p s before).2.scopes.all.length) := by
  obtain ⟨hnst, -⟩ := nested_reached hs hcoh before name body
  obtain ⟨hdfn, hcohD⟩ := introduces_defining hs hits hnil hcoh
  have hsc : ∀ c ∈ (reached p s before).1, c.scope < (reached p s before).2.scopes.all.length :=
    fun c hc => scope_lt_of_mem_reached hs hc
  obtain ⟨hbds, -⟩ := introduces_registerBodies
    (W := fun scope _ => scope ≠ (reached p s before).2.scopes.all.length)
    (A := fun scope => scope ≠ (reached p s before).2.scopes.all.length ∧ scope ≠ ScopeId.global)
    hcohD (fun c hc => ((hsc c hc).trans hnst.lt).trans_le hdfn.persists.length_le)
    fun c hc _ _ => (hsc c hc).ne
  have hall := (hdfn.trans hbds).within_back
  rw [hnst.current] at hall
  exact ⟨hall.current, hall.persists, hall.bound, hall.fresh, hall.aliases, hall.aliased⟩

/-- Later on, its scope gets the names of its members only. -/
theorem introduces_registerProgram (hcoh : s.Coherent) :
    Introduces (fun scope n => scope = (reached p s before).2.scopes.all.length →
        n ∈ memberNames body) (fun _ => True)
      (((registerTypes body).run ((reached p s before).2.inNewScope name)).2.within
        ScopeId.global) ((registerProgram p.items).run s).2 := by
  obtain ⟨hnst, -⟩ := nested_reached hs hcoh before name body
  obtain ⟨hdefining_eq, hpassed, -⟩ := defining_eq hs hits hnil
  obtain ⟨hdfn, hcohD⟩ := introduces_defining hs hits hnil hcoh
  set σ := (reached p s before).2.scopes.all.length with hσ
  have hlt : σ < (passed p s before name body).scopes.all.length :=
    length_reached_lt hs hits hnil hcoh
  -- of all components only this one has its body there
  have hbody : ∀ c ∈ (defining p s).1, ∀ n ∈ memberNames c.body, c.scope = σ →
      n ∈ memberNames body := by
    intro c hc n hn heq
    rw [hdefining_eq] at hc
    rcases mem_append.mp hc with hc | hc
    · exact absurd heq (scope_lt_of_mem_reached hs hc).ne
    · rcases mem_cons.mp hc with rfl | hc
      · exact hn
      · exact absurd heq (hlt.trans_le (length_le_of_mem_defineComponents hpassed hc)).ne'
  obtain ⟨hbds, hcoherentB⟩ := introduces_registerBodies (A := fun _ => True)
    (W := fun scope n => scope = σ → n ∈ memberNames body) hcohD
    (fun _ hc => scope_lt_of_mem_defining hs hc) hbody
  obtain ⟨-, htop⟩ := atTop_bodied hs (Subset.refl (defining p s).1)
  obtain ⟨hmems, -⟩ := introducing_registerMembers (A := fun _ => True)
    (W := fun scope n => scope = σ → n ∈ memberNames body) p.items
    (fun _ _ heq => absurd heq hnst.ne_global.symm) (bodied p s (defining p s).1)
    htop.current_eq_global hcoherentB
  exact (hdfn.mono (fun _ _ hne heq => absurd heq hne) fun _ _ => trivial).trans
    (hbds.trans hmems)

theorem lasting_passed :
    Lasting (passed p s before name body) ((registerProgram p.items).run s).2 := by
  obtain ⟨hdfn, hpassed, -⟩ := defining_eq hs hits hnil
  have haft := (filled_defineComponents after hpassed).1.lasting
  have hbds := (retains_registerBodies (defining p s).1
    ((defineComponents after).run (passed p s before name body)).2).lasting
  have hmems := (retains_registerMembers p.items (bodied p s (defining p s).1)).lasting
  rw [bodied] at hmems
  refine haft.trans (hbds.trans ?_)
  have hlast : (defining p s).2 =
      ((defineComponents after).run (passed p s before name body)).2 := by rw [hdfn]
  rw [← hlast]
  exact hmems

theorem bodyAt_reached :
    ((registerProgram p.items).run s).2.BodyAt (reached p s before).2.scopes.all.length
      (some name.text) := by
  have hmem : ⟨name, body, (reached p s before).2.scopes.all.length⟩ ∈ (defining p s).1 := by
    rw [(defining_eq hs hits hnil).1]
    exact mem_append_right _ mem_cons_self
  obtain ⟨⟨i, hi, -, hsc⟩, -⟩ := knows_of_mem hs hmem
  have hb := ((atTop_defining hs).component hi).1
  rw [hsc] at hb
  exact (grows_registerProgram hs).bodyAt hb

end Passing

/-- Every component of the program gets a signature. -/
theorem exists_signing (hcoh : s.Coherent)
    (hempty : ∀ scope n, find? (s.scopes.bindings scope) n = none)
    (hnil : ((registerProgram p.items).run s).2.findings = []) {after : List Decl}
    {decs : List Decoration} {span : Span}
    (hits : p.items = before ++ .component decs name body span :: after) :
    ∃ σ u x, Signing p s before name body σ u x := by
  have hnil' := (grows_registerProgram hs).findings_eq_nil hnil
  obtain ⟨hdfn, -, hnilC⟩ := defining_eq hs hits hnil'
  obtain ⟨-, htop⟩ := definesAll_reached hs before
  have hflat : ∀ d ∈ body, d.isComponent = false := flat_of_afterSignature htop.toRegular hnilC
  have hsig := afterSignature_eq (reached p s before).2 name hflat
  obtain ⟨hnst, hcohU⟩ := nested_reached hs hcoh before name body
  have hsta := introduces_start hs hits hnil' hcoh
  -- no finding was made on the way
  have hnilS : ((reached p s before).2.afterSignature name body).2.findings = [] := hnilC
  have hnilB : (reached p s before).2.findings = [] :=
    (types_afterSignature _ name body htop.toRegular).1.findings_eq_nil hnilS
  have hnilU : ((registerTypes body).run ((reached p s before).2.inNewScope name)).2.findings =
      [] := by
    rw [hsig] at hnilS
    exact hnilS
  have hbd := isSome_find?_inNewScope htop.toRegular
    (introduces_reached hs hcoh before).2 hnilU
  exact ⟨(reached p s before).2.scopes.all.length,
    ((registerTypes body).run ((reached p s before).2.inNewScope name)).2,
    (bodied p s (reached p s before).1).inside name.text
      (reached p s before).2.scopes.all.length, {
    nested := hnst
    coherent := hcohU
    types := fun n => by rw [hbd, if_pos rfl]
    globals := fun n => by
      rw [hbd, if_neg hnst.ne_global.symm,
        isSome_find?_reached hs hcoh hempty hnilB]
    names := fun n hn => by
      refine ((introduces_registerProgram hs hits hnil' hcoh).fresh hn).imp
        (fun hn => ?_) fun hW => hW rfl
      exact (if_pos rfl).mp ((hbd _ n).mp hn)
    flat := hflat
    atBody := bodyAt_reached hs hits hnil'
    definition := by
      have hgl : ((reached p s before).2.afterSignature name body).2.scopes.current =
          ScopeId.global := htop.current_eq_global
      have hfind : find? ((passed p s before name body).scopes.bindings ScopeId.global)
          name.text = some ((reached p s before).2.definitionOf name body) := by
        refine find?_bindings_set.trans (if_pos ⟨hgl.symm, ?_, rfl⟩)
        exact hgl ▸ (types_afterSignature _ name body htop.toRegular).2.current_lt
      obtain ⟨type, hty, -, hcore⟩ := lasting_passed hs hits hnil' hfind
      obtain ⟨nested, rfl⟩ := Ty.eq_component_of_core hcore
      rw [hsig] at hty
      exact ⟨nested, hty⟩
    introduces := hsta
    coherent_start := by
      have hsub : (reached p s before).1 ⊆ (defining p s).1 := by
        rw [hdfn]
        exact subset_append_left _ _
      have hlast := coherent_bodied hs hcoh hsub
      exact ⟨hnst.lt.trans_le hsta.persists.length_le, hlast.alias_flat, hlast.conforms⟩
    comes := fun h => Comes.member (c := ⟨name, body, _⟩) (by rw [hdfn]) h }⟩

end Signing

end Session

end Provision
