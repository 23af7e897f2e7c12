import Provision.Proofs.Checker
import Provision.Proofs.Session.Stages

/-!
# What aliases denote

Aliases may use each other, whatever the order they are declared in. What they denote is said
without an order, by an inductive relation (`AliasDecl.Denotes`): an alias denotes what is written
for it once all aliases in there are replaced by what they denote. So there is nothing that an alias
of a cycle denotes.

Registration finds this round by round. Aliases are bound to what they denote
(`Session.Grown.denotes`), and when the rounds stop what is left denotes nothing
(`Session.Expands.find?_of_denotes`).

So the order does not matter (`Session.registerAliases_perm`), as long as an alias that others
mention means nothing outside. One that hides a type of an outer scope comes too late for those
before it: they are resolved to the outer type at once.
-/

namespace Provision

open List Table

/-- What a name denotes where aliases are declared and other names have a meaning already. -/
inductive AliasDecl.Denotes (base : String → Option Ty) (as : List AliasDecl) : String → Ty → Prop
  | known {n : String} {type : Ty} (hn : ∀ a ∈ as, a.name.text ≠ n) (h : base n = some type) :
      Denotes base as n type
  | expand {a : AliasDecl} {view : String → Option Ty} {type : Ty} (ha : a ∈ as)
      (hview : ∀ n ∈ a.type.names, ∀ u, view n = some u → Denotes base as n u)
      (hty : a.type.meaning view = some type) : Denotes base as a.name.text type

namespace AliasDecl

variable {base : String → Option Ty} {as : List AliasDecl} {n : String} {type type' : Ty}

theorem eq_of_nodup (hnd : (as.map (·.name.text)).Nodup) {a b : AliasDecl} (ha : a ∈ as)
    (hb : b ∈ as) (h : a.name.text = b.name.text) : a = b :=
  inj_on_of_nodup_map hnd ha hb h

theorem Denotes.unique (hnd : (as.map (·.name.text)).Nodup) (h : Denotes base as n type)
    (h' : Denotes base as n type') : type = type' := by
  induction h generalizing type' with
  | known hn hbase =>
    cases h' with
    | known _ hbase' => exact Option.some.inj (hbase.symm.trans hbase')
    | expand ha _ _ => exact absurd rfl (hn _ ha)
  | @expand a view type ha _ hty ih =>
    generalize hnm : a.name.text = n at h'
    cases h' with
    | known hn _ => exact absurd hnm (hn a ha)
    | @expand b view' _ hb hview' hty' =>
      obtain rfl := eq_of_nodup hnd ha hb hnm
      -- both views give the names of the alias what they denote
      have hsame : a.type.meaning view = a.type.meaning view' := by
        refine TypeExpr.meaning_congr a.type fun n hn => ?_
        obtain ⟨u, hu⟩ := TypeExpr.exists_of_meaning hty n hn
        obtain ⟨u', hu'⟩ := TypeExpr.exists_of_meaning hty' n hn
        rw [hu, hu', ih n hn u hu (hview' n hn u' hu')]
      exact Option.some.inj (hty.symm.trans (hsame.trans hty'))

theorem Denotes.of_perm {as' : List AliasDecl} (hperm : as.Perm as') (h : Denotes base as n type) :
    Denotes base as' n type := by
  induction h with
  | known hn hbase => exact .known (fun a ha => hn a (hperm.mem_iff.mpr ha)) hbase
  | expand ha _ hty ih => exact .expand (hperm.mem_iff.mp ha) ih hty

end AliasDecl

namespace Session

open AliasDecl

variable {s t : Session} {all as as' : List AliasDecl} {n : String}

/-! ### What aliases are bound to -/

/-- Aliases can be bound in any order: their names are free, and one that another alias mentions
means nothing as yet. -/
structure Unsettled (s : Session) (all : List AliasDecl) : Prop where
  current_lt : s.scopes.current < s.scopes.all.length
  nodup : (all.map (·.name.text)).Nodup
  free : ∀ a ∈ all, s.scopes.get? a.name.text = none
  clear : ∀ a ∈ all, ∀ b ∈ all, a.name.text ∈ b.type.names → s.denotes? a.name.text = none

theorem Grown.denotes {bs : Table Ty} (hs : s.Unsettled all) (h : Grown s all bs) :
    ∀ n type, (n, type) ∈ bs → Denotes s.denotes? all n type := by
  induction h with
  | nil => exact fun _ _ hmem => absurd hmem not_mem_nil
  | @cons a type bs _ ha _ hty ih =>
    intro n u hmem
    rcases mem_cons.mp hmem with heq | hmem
    · obtain ⟨rfl, rfl⟩ := Prod.mk.inj heq
      -- a name that the alias mentions means what it denotes
      have hnms : ∀ n ∈ a.type.names, ∀ v, (s.withAliases bs).denotes? n = some v →
          Denotes s.denotes? all n v := by
        intro n hn v hv
        rw [denotes?_withAliases hs.current_lt] at hv
        cases hfind : find? bs n with
        | some w =>
          rw [hfind] at hv
          obtain rfl := Option.some.inj hv
          exact ih n w (mem_of_find? hfind)
        | none =>
          rw [hfind, Option.none_or] at hv
          refine .known (fun b hb hbn => ?_) hv
          subst hbn
          rw [hs.clear b hb a ha hn] at hv
          cases hv
      exact .expand ha hnms (by rw [← resolveType_eq, hty]; rfl)
    · exact ih n u hmem

theorem Expands.find?_eq_none {bs : Table Ty} {pending : List AliasDecl}
    (h : Expands s as bs pending) (hn : n ∉ as.map (·.name.text)) : find? bs n = none :=
  find?_eq_none_iff.mpr fun hmem => hn (h.names.subset (mem_append_left _ hmem))

/-- Where no pending alias can be resolved, every alias that denotes a type is bound to it. -/
theorem Expands.find?_of_denotes {bs : Table Ty} {pending : List AliasDecl}
    (h : Expands s all bs pending) (hs : s.Unsettled all)
    (hstuck : ∀ a ∈ pending, ∃ d, (s.withAliases bs).resolveType a.type = .error d) {type : Ty}
    (hn : Denotes s.denotes? all n type) :
    (find? bs n).or (s.denotes? n) = some type ∧
      ((∃ a ∈ all, a.name.text = n) → find? bs n = some type) := by
  induction hn with
  | @known n type hn hbase =>
    have hfind : find? bs n = none := h.find?_eq_none fun hmem => by
      obtain ⟨a, ha, han⟩ := mem_map.mp hmem
      exact hn a ha han
    refine ⟨by rw [hfind, Option.none_or, hbase], ?_⟩
    rintro ⟨a, ha, han⟩
    exact absurd han (hn a ha)
  | @expand a view type ha hview hty ih =>
    have hfind : find? bs a.name.text = some type := by
      have hmem : a.name.text ∈ bs.names ++ pending.map (·.name.text) :=
        h.names.mem_iff.mpr (mem_map_of_mem ha)
      rcases mem_append.mp hmem with hbd | hpend
      · obtain ⟨b, hb, hnm⟩ := mem_map.mp hbd
        obtain ⟨name, u⟩ := b
        subst hnm
        have hu := h.grown.denotes hs _ u hb
        obtain rfl := hu.unique hs.nodup (.expand ha hview hty)
        exact (mem_iff_find? (nodup_append.mp (h.nodup hs.nodup)).1).mp hb
      · -- the names of a pending alias would all have a meaning, and so would the alias
        obtain ⟨b, hb, hnm⟩ := mem_map.mp hpend
        obtain rfl := eq_of_nodup hs.nodup (h.sublist.subset hb) ha hnm
        obtain ⟨d, hd⟩ := hstuck b hb
        have hmean : b.type.meaning (s.withAliases bs).denotes? = some type := by
          rw [← hty]
          refine TypeExpr.meaning_congr b.type fun n hn => ?_
          obtain ⟨u, hu⟩ := TypeExpr.exists_of_meaning hty n hn
          rw [denotes?_withAliases hs.current_lt, hu]
          exact (ih n hn u hu).1
        rw [← resolveType_eq, hd] at hmean
        cases hmean
    exact ⟨by rw [hfind, Option.some_or], fun _ => hfind⟩

/-- Aliases are bound to what they denote, and what is left is reported. -/
theorem Unsettled.registerAliases (hs : s.Unsettled as) : ∃ bs stuck errors,
    (registerAliases (as.length + 1) as).run s =
        ((), { s.withAliases bs with findings := s.findings ++ errors }) ∧
      Expands s as bs stuck ∧
      Forall₂ (fun a d => (s.withAliases bs).resolveType a.type = .error d) stuck errors ∧
      ∀ n ∈ as.map (·.name.text), ∀ type, find? bs n = some type ↔
        Denotes s.denotes? as n type := by
  obtain ⟨bs, stuck, errors, hrun, hexp, hstuck, herrs⟩ :=
    ((expands_nil s as).registerAliases (Nat.lt_succ_self as.length)).resolve_right fun htaken =>
      not_taken hs.current_lt hs.nodup hs.free htaken.1
  refine ⟨bs, stuck, errors, hrun, hexp, herrs, fun n hn type => ?_⟩
  exact ⟨fun hfind => hexp.grown.denotes hs _ _ (mem_of_find? hfind),
    fun hden => (hexp.find?_of_denotes hs hstuck hden).2 (mem_map.mp hn)⟩

/-! ### Schemas -/

theorem run_declareSchemas_of_free {ds : List Decl}
    (hlt : s.scopes.current < s.scopes.all.length)
    (hnd : ((schemasOf ds).map (·.name.text)).Nodup)
    (hfree : ∀ d ∈ schemasOf ds, s.scopes.get? d.name.text = none) :
    (declareSchemas ds).run s = ((), (schemasOf ds).foldl withSchema s) := by
  induction ds generalizing s with
  | nil => rfl
  | cons d ds ih =>
    cases d with
    | schema d =>
      obtain ⟨hd, hnd⟩ := nodup_cons.mp hnd
      obtain ⟨hget, hfree⟩ := forall_mem_cons.mp hfree
      rw [declareSchemas, run_bind, run_declare_of_get?, hget]
      refine ih (s := s.withSchema d) ?_ hnd fun d' hd' => ?_
      · exact hlt.trans_eq Scopes.length_modifyBindings.symm
      · have hne : d'.name.text ≠ d.name.text := fun heq =>
          hd (mem_map.mpr ⟨d', hd', heq⟩)
        exact (Scopes.get?_set hlt).trans ((if_neg hne).trans (hfree d' hd'))
    | _ => exact ih hlt hnd hfree

/-- Bound schemas are found, and everything else is as before. -/
theorem foldl_withSchema_spec (ds : List SchemaDecl)
    (hlt : s.scopes.current < s.scopes.all.length) :
    (ds.foldl withSchema s).scopes.current < (ds.foldl withSchema s).scopes.all.length ∧
      (ds.foldl withSchema s).scopes.current = s.scopes.current ∧
      (ds.foldl withSchema s).aliases = s.aliases ∧
      ∀ n, (ds.foldl withSchema s).scopes.get? n = (if n ∈ ds.map (·.name.text) then
          some (.schema n [] []) else s.scopes.get? n) ∧
        (ds.foldl withSchema s).denotes? n =
          if n ∈ ds.map (·.name.text) then some (.schema n [] []) else s.denotes? n := by
  induction ds generalizing s with
  | nil => exact ⟨hlt, rfl, rfl, fun _ => ⟨rfl, rfl⟩⟩
  | cons d ds ih =>
    obtain ⟨hlt', hcur, hals, hfind⟩ := ih (s := s.withSchema d)
      (hlt.trans_eq Scopes.length_modifyBindings.symm)
    refine ⟨hlt', hcur, hals, fun n => ?_⟩
    have hget : (s.withSchema d).scopes.get? n = _ := Scopes.get?_set hlt
    have hden : (s.withSchema d).denotes? n = _ :=
      denotes?_set hlt rfl (fun _ _ => Iff.rfl) (Or.inr rfl)
    rw [foldl_cons, (hfind n).1, (hfind n).2, hget, hden, map_cons]
    grind

/-! ### The top level -/

/-- The session in which the schemas of a program are bound, as yet without properties. -/
def schemasBound (k : Checker) (ds : List Decl) : Session :=
  ((declareSchemas ds).run ((walkShapes k ds).run {}).2).2

/-- What the names of schemas mean before any other type is known. -/
def schemaType? (ds : List Decl) (n : String) : Option Ty :=
  if n ∈ (schemasOf ds).map (·.name.text) then some (.schema n [] []) else none

theorem perm_typeNames (ds : List Decl) :
    ((schemasOf ds).map (·.name.text) ++ (aliasesOf ds).map (·.name.text)).Perm
      (Decl.typeNames ds) := by
  induction ds with
  | nil => exact .nil
  | cons d ds ih =>
    cases d with
    | schema d => exact ih.cons _
    | «alias» a => exact perm_middle.trans (ih.cons _)
    | _ => exact ih

/-- With the schemas bound, no alias means anything as yet. -/
theorem schemasBound_spec (k : Checker) {ds : List Decl} (hnd : (Decl.typeNames ds).Nodup) :
    (schemasBound k ds).Unsettled (aliasesOf ds) ∧
      (schemasBound k ds).denotes? = schemaType? ds ∧ (schemasBound k ds).aliases = [] ∧
      (schemasBound k ds).scopes.current = ScopeId.global := by
  have hlt : ((walkShapes k ds).run {}).2.scopes.current <
      ((walkShapes k ds).run {}).2.scopes.all.length := by
    rw [run_walkShapes]
    exact Nat.zero_lt_one
  have hget : ∀ n, ((walkShapes k ds).run {}).2.scopes.get? n = none := by
    rw [run_walkShapes]
    exact fun _ => rfl
  have hden : ∀ n, ((walkShapes k ds).run {}).2.denotes? n = none := by
    rw [run_walkShapes]
    exact fun _ => rfl
  obtain ⟨hschs, hals, hdisj⟩ :=
    nodup_append.mp ((perm_typeNames ds).nodup_iff.mpr hnd)
  have hrun : schemasBound k ds = (schemasOf ds).foldl withSchema ((walkShapes k ds).run {}).2 :=
    congrArg Prod.snd (run_declareSchemas_of_free hlt hschs fun d _ => hget d.name.text)
  obtain ⟨hlt', hcur, hnoted, hfind⟩ := foldl_withSchema_spec (schemasOf ds) hlt
  have hview : (schemasBound k ds).denotes? = schemaType? ds := by
    funext n
    rw [hrun, (hfind n).2, hden, schemaType?]
  -- an alias has a name of its own
  have hnew : ∀ a ∈ aliasesOf ds, a.name.text ∉ (schemasOf ds).map (·.name.text) :=
    fun a ha hmem => hdisj _ hmem _ (mem_map_of_mem ha) rfl
  refine ⟨⟨hrun ▸ hlt', hals, fun a ha => ?_, fun a ha _ _ _ => ?_⟩,
    hview, ?_, ?_⟩
  · rw [hrun, (hfind _).1, if_neg (hnew a ha), hget]
  · rw [hview, schemaType?, if_neg (hnew a ha)]
  · rw [hrun, hnoted, run_walkShapes]
  · rw [hrun, hcur, run_walkShapes]

/-- At the top level, schemas and aliases having names of their own, registration ends, and it binds
just those aliases that denote a type, each to the type it denotes. The others stay unbound, and for
each of them there is one finding, which says why its type cannot be resolved. -/
theorem registerAliases_least (k : Checker) {ds : List Decl}
    (hnd : (Decl.typeNames ds).Nodup) :
    ∃ t stuck errors,
      (∀ rounds, (aliasesOf ds).length < rounds →
        (registerAliases rounds (aliasesOf ds)).run (schemasBound k ds) = ((), t)) ∧
      (∀ a ∈ aliasesOf ds, ∀ type, t.scopes.get? a.name.text = some type ↔
        Denotes (schemaType? ds) (aliasesOf ds) a.name.text type) ∧
      (∀ n, n ∉ (aliasesOf ds).map (·.name.text) →
        t.scopes.get? n = (schemasBound k ds).scopes.get? n) ∧
      (∀ a ∈ aliasesOf ds, (ScopeId.global, a.name.text) ∈ t.aliases ↔
        ∃ type, Denotes (schemaType? ds) (aliasesOf ds) a.name.text type) ∧
      stuck.Sublist (aliasesOf ds) ∧
      (∀ a ∈ aliasesOf ds, a ∈ stuck ↔
        ∀ type, ¬ Denotes (schemaType? ds) (aliasesOf ds) a.name.text type) ∧
      t.findings = (schemasBound k ds).findings ++ errors ∧
      List.Forall₂ (fun a d => t.resolveType a.type = .error d) stuck errors := by
  obtain ⟨hs, hview, hals, hgl⟩ := schemasBound_spec k hnd
  obtain ⟨bs, stuck, errors, hrun, hexp, herrs, hfind⟩ := hs.registerAliases
  -- what an alias is bound to is what it denotes
  have hbd : ∀ a ∈ aliasesOf ds, ∀ type, Table.find? bs a.name.text = some type ↔
      Denotes (schemaType? ds) (aliasesOf ds) a.name.text type := fun a ha =>
    hview ▸ hfind a.name.text (mem_map_of_mem ha)
  have hnamed : ∀ a ∈ aliasesOf ds, a.name.text ∈ bs.names ↔
      ∃ type, Denotes (schemaType? ds) (aliasesOf ds) a.name.text type := by
    intro a ha
    rw [Table.mem_names_iff, Option.isSome_iff_exists]
    exact exists_congr (hbd a ha)
  refine ⟨_, stuck, errors, fun rounds hrounds => (run_registerAliases_eq hrounds
    (Nat.lt_succ_self _)).trans hrun, fun a ha type => ?_, fun n hn => ?_, fun a ha => ?_,
    hexp.sublist, fun a ha => ?_, ?_, ?_⟩
  · rw [← hbd a ha, get?_withAliases hs.current_lt, hs.free a ha, Option.or_none]
  · rw [get?_withAliases hs.current_lt, hexp.find?_eq_none hn, Option.none_or]
  · rw [← hnamed a ha]
    refine (mem_aliases_withAliases bs _).trans ?_
    rw [hals, hgl]
    simp
  · rw [← not_exists, ← hnamed a ha]
    have hmem : a.name.text ∈ bs.names ++ stuck.map (·.name.text) :=
      hexp.names.mem_iff.mpr (List.mem_map_of_mem ha)
    constructor
    · intro hpend
      exact Table.find?_eq_none_iff.mp (hexp.find?_of_mem hs.nodup hpend)
    · intro hnot
      obtain ⟨b, hb, hnm⟩ := List.mem_map.mp ((List.mem_append.mp hmem).resolve_left hnot)
      exact eq_of_nodup hs.nodup (hexp.sublist.subset hb) ha hnm ▸ hb
  · rfl
  · exact herrs.imp fun a d hd => (resolveType_findings _ _ a.type).trans hd

/-- Aliases of a schema in a chain against the order of their declarations, two in a circle, and one
of a name that is not declared. -/
def chained : String :=
  "type A = B[] type B = C | string type C = S type X = Y type Y = X[] type U = Missing
   schema S \x7b any p \x7d"

instance : Program.Spelled chained := ⟨_, rfl⟩

theorem registerAliases_least_chained : ∃ p t, Program.parse chained = .ok p ∧
    (Decl.typeNames p.items).Nodup ∧
    (registerAliases 7 (aliasesOf p.items)).run (schemasBound .builtin p.items) = ((), t) ∧
    (∃ type, Denotes (schemaType? p.items) (aliasesOf p.items) "A" type) ∧
    (∀ type, ¬ Denotes (schemaType? p.items) (aliasesOf p.items) "X" type) ∧
    (∀ type, ¬ Denotes (schemaType? p.items) (aliasesOf p.items) "U" type) ∧
    t.findings.length = 3 := by
  have hrun : ((Program.parse chained).toOption.any fun p => decide (
      (Decl.typeNames p.items).Nodup ∧
      (aliasesOf p.items).map (·.name.text) = ["A", "B", "C", "X", "Y", "U"] ∧
      ["A", "X", "U"].map (fun n => (((registerAliases 7 (aliasesOf p.items)).run
        (schemasBound .builtin p.items)).2.scopes.get? n).isSome) = [true, false, false] ∧
      ((registerAliases 7 (aliasesOf p.items)).run
        (schemasBound .builtin p.items)).2.findings.length = 3)) = true := by
    decide +kernel
  obtain ⟨p, hprs, hfacts⟩ := Checker.exists_of_parse hrun
  obtain ⟨hnd, hnms, hget, hfs⟩ := of_decide_eq_true hfacts
  obtain ⟨t, -, -, hrun, hbd, -⟩ := registerAliases_least .builtin hnd
  have hlen : (aliasesOf p.items).length = 6 := by
    rw [← List.length_map (f := fun a : AliasDecl => a.name.text), hnms]
    rfl
  have hrun := hrun 7 (by omega)
  rw [hrun] at hget hfs
  simp only [List.map_cons, List.map_nil, List.cons.injEq, and_true] at hget
  -- a name is bound just if it denotes a type
  have hsome : ∀ n ∈ (aliasesOf p.items).map (·.name.text), (t.scopes.get? n).isSome ↔
      ∃ type, Denotes (schemaType? p.items) (aliasesOf p.items) n type := by
    intro n hn
    obtain ⟨a, ha, rfl⟩ := List.mem_map.mp hn
    rw [Option.isSome_iff_exists]
    exact exists_congr (hbd a ha)
  rw [hnms] at hsome
  refine ⟨p, t, hprs, hnd, hrun, (hsome "A" (by decide)).mp hget.1, ?_, ?_, hfs⟩
  · rw [← not_exists, ← hsome "X" (by decide), hget.2.1]
    exact Bool.false_ne_true
  · rw [← not_exists, ← hsome "U" (by decide), hget.2.2]
    exact Bool.false_ne_true

/-! ### The order of aliases -/

theorem Unsettled.of_perm (hs : s.Unsettled as) (hperm : as.Perm as') : s.Unsettled as' where
  current_lt := hs.current_lt
  nodup := (hperm.map _).nodup_iff.mp hs.nodup
  free a ha := hs.free a (hperm.mem_iff.mpr ha)
  clear a ha b hb := hs.clear a (hperm.mem_iff.mpr ha) b (hperm.mem_iff.mpr hb)

theorem withAliases_eq (s : Session) (bs : Table Ty) : s.withAliases bs =
    { s with scopes := (s.withAliases bs).scopes, aliases := (s.withAliases bs).aliases } := by
  induction bs with
  | nil => rfl
  | cons b bs ih => rw [withAliases, ih]; rfl

/-- **The order of aliases.** If no alias that another one mentions means anything before, the
aliases of a body can be declared in any order: where one order goes without findings, so does
every other, aliases are bound to what they denote, all names to the same types as before, and
written types mean the same. -/
theorem registerAliases_perm (hlt : s.scopes.current < s.scopes.all.length)
    (hclear : ∀ a ∈ as, ∀ b ∈ as, a.name.text ∈ b.type.names → s.denotes? a.name.text = none)
    (hperm : as.Perm as')
    (hnil : ((registerAliases (as.length + 1) as).run s).2.findings = []) :
    ∃ t t', (registerAliases (as.length + 1) as).run s = ((), t) ∧
      (registerAliases (as'.length + 1) as').run s = ((), t') ∧
      t' = { t with scopes := t'.scopes, aliases := t'.aliases } ∧
      (∀ a ∈ as, ∃ type, Denotes s.denotes? as a.name.text type ∧
        t.scopes.get? a.name.text = some type) ∧
      (∀ n, t'.scopes.get? n = t.scopes.get? n) ∧
      (∀ x, x ∈ t'.aliases ↔ x ∈ t.aliases) ∧
      ∀ e, (t'.resolveType e).toOption = (t.resolveType e).toOption := by
  obtain ⟨-, -, -, -, hnd, hfree⟩ := grown_registerAliases hlt (Nat.lt_succ_self _) hnil
  have hs : s.Unsettled as := ⟨hlt, hnd, hfree, hclear⟩
  have hs' := hs.of_perm hperm
  obtain ⟨bs, stuck, errors, hrun, hexp, hrepd, hbd⟩ := hs.registerAliases
  obtain ⟨bs', stuck', errors', hrun', hexp', hrepd', hbd'⟩ := hs'.registerAliases
  rw [hrun] at hnil
  obtain ⟨hnone, rfl⟩ := append_eq_nil_iff.mp hnil
  cases hrepd
  have hnms : ∀ a ∈ as, a.name.text ∈ bs.names := fun a ha => by
    simpa using hexp.names.mem_iff.mpr (mem_map_of_mem ha)
  -- an alias is bound to what it denotes, and that does not depend on the order
  have hfind : ∀ n, find? bs' n = find? bs n := by
    intro n
    by_cases hn : n ∈ as.map (·.name.text)
    · refine Option.ext fun type => ?_
      rw [hbd n hn, hbd' n ((hperm.map _).mem_iff.mp hn)]
      exact ⟨.of_perm hperm.symm, .of_perm hperm⟩
    · rw [hexp.find?_eq_none hn, hexp'.find?_eq_none (mt (hperm.map _).mem_iff.mpr hn)]
  obtain rfl : stuck' = [] := by
    refine eq_nil_iff_forall_not_mem.mpr fun a ha => ?_
    have hnot := hexp'.find?_of_mem hs'.nodup ha
    rw [hfind, find?_eq_none_iff] at hnot
    exact hnot (hnms a (hperm.mem_iff.mpr (hexp'.sublist.subset ha)))
  cases hrepd'
  rw [append_nil, ← findings_withAliases bs] at hrun
  rw [append_nil, ← findings_withAliases bs'] at hrun'
  refine ⟨_, _, hrun, hrun', ?_, fun a ha => ?_, fun n => ?_, fun x => ?_, fun e => ?_⟩
  · rw [withAliases_eq s bs', withAliases_eq s bs]
  · obtain ⟨type, hty⟩ := Option.isSome_iff_exists.mp (mem_names_iff.mp (hnms a ha))
    refine ⟨type, (hbd _ (mem_map_of_mem ha) type).mp hty, ?_⟩
    rw [get?_withAliases hlt, hty, Option.some_or]
  · rw [get?_withAliases hlt, get?_withAliases hlt, hfind]
  · rw [mem_aliases_withAliases, mem_aliases_withAliases, mem_names_iff, mem_names_iff, hfind]
  · rw [resolveType_eq, resolveType_eq]
    refine TypeExpr.meaning_congr e fun n _ => ?_
    rw [denotes?_withAliases hlt, denotes?_withAliases hlt, hfind]

/-- A body whose first alias hides one of the top level and mentions one that is declared later. -/
def hidesOuter : String :=
  "type T = number component C \x7b type T = B[] type B = string | D type D = number \x7d"

instance : Program.Spelled hidesOuter := ⟨_, rfl⟩

theorem registerAliases_perm_hidesOuter : ∃ p d t t', Program.parse hidesOuter = .ok p ∧
    d ∈ p.items ∧ (aliasesOf d.members).map (·.name.text) = ["T", "B", "D"] ∧
    ((typed p {}).denotes? "T").isSome ∧
    (registerAliases 4 (aliasesOf d.members)).run ((typed p {}).inNewScope d.name) = ((), t) ∧
    (registerAliases 4 (aliasesOf d.members).reverse).run ((typed p {}).inNewScope d.name) =
      ((), t') ∧
    t'.findings = [] ∧ ∀ n ∈ ["T", "B", "D"], (t.scopes.get? n).isSome ∧
      t'.scopes.get? n = t.scopes.get? n := by
  have hrun : ((Program.parse hidesOuter).toOption.any fun p => p.items.any fun d => decide (
      (aliasesOf d.members).map (·.name.text) = ["T", "B", "D"] ∧
      ((typed p {}).denotes? "T").isSome ∧
      ((typed p {}).inNewScope d.name).scopes.current <
        ((typed p {}).inNewScope d.name).scopes.all.length ∧
      (∀ a ∈ aliasesOf d.members, ∀ b ∈ aliasesOf d.members, a.name.text ∈ b.type.names →
        ((typed p {}).inNewScope d.name).denotes? a.name.text = none) ∧
      ((registerAliases 4 (aliasesOf d.members)).run
        ((typed p {}).inNewScope d.name)).2.findings = [])) = true := by
    decide +kernel
  obtain ⟨p, hprs, hfacts⟩ := Checker.exists_of_parse hrun
  obtain ⟨d, hd, hfacts⟩ := any_eq_true.mp hfacts
  obtain ⟨hnms, houter, hlt, hclear, hnil⟩ := of_decide_eq_true hfacts
  have hlen : (aliasesOf d.members).length = 3 := by
    rw [← length_map (f := fun a : AliasDecl => a.name.text), hnms]
    rfl
  obtain ⟨t, t', ht, ht', hfr, hbd, hget, -⟩ := registerAliases_perm hlt hclear
    (reverse_perm (aliasesOf d.members)).symm (by rw [hlen]; exact hnil)
  rw [hlen] at ht
  rw [length_reverse, hlen] at ht'
  rw [ht] at hnil
  refine ⟨p, d, t, t', hprs, hd, hnms, houter, ht, ht', ?_, fun n hn => ⟨?_, hget n⟩⟩
  · rw [hfr]
    exact hnil
  · obtain ⟨a, ha, rfl⟩ := mem_map.mp (hnms ▸ hn)
    obtain ⟨type, -, hty⟩ := hbd a ha
    rw [hty]
    rfl

/-- A body whose first alias mentions one that is declared later and hides one of the top level. -/
def hidesLate : String :=
  "type B = number component C \x7b type A = B type B = string input A x = \"s\" \x7d"

/-- The same body with its aliases in the other order. -/
def hidesFirst : String :=
  "type B = number component C \x7b type B = string type A = B input A x = \"s\" \x7d"

instance : Program.Spelled hidesLate := ⟨_, rfl⟩

instance : Program.Spelled hidesFirst := ⟨_, rfl⟩

/-- An alias that others mention must mean nothing before: if it hides a type, one order of a body
is accepted, and the other is not. -/
theorem check_hidesLate : ∃ p checked q findings, Program.parse hidesFirst = .ok p ∧
    Checker.builtin.check p = .ok checked ∧ Program.parse hidesLate = .ok q ∧
    Checker.builtin.check q = .error findings := by
  have hfst : ((Program.parse hidesFirst).toOption.any fun p =>
      (Checker.builtin.check p).toOption.any fun _ => true) = true := by decide +kernel
  have hlate : ((Program.parse hidesLate).toOption.any fun q =>
      (Checker.builtin.check q).toOption.isNone) = true := by decide +kernel
  obtain ⟨p, checked, hp, hchecked, -⟩ := Checker.exists_of_run hfst
  obtain ⟨q, hq, hnone⟩ := Checker.exists_of_parse hlate
  cases hrun : Checker.builtin.check q with
  | ok _ => rw [hrun] at hnone; cases hnone
  | error findings => exact ⟨p, checked, q, findings, hp, hchecked, hq, hrun⟩

end Session

end Provision
