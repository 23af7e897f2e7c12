import Provision.Proofs.Session.Visits
import Provision.Proofs.Spans.Program

/-!
# Decorators fail fast

A list of decorations is compared with no list at all in its place: the check of a program that was
parsed has just one finding more for the first decoration that is unknown or has a wrong shape, and
then no more comes of the list. Otherwise it has what the list contributes where its declaration is
checked, which stops at the first decoration that does not pass.
-/

namespace Provision

open List

variable {u : Session}

namespace Decl

theorem lists_without (mark : Span) (d : Decl) :
    (d.without mark).lists = d.lists.map (Decoration.without mark) := by
  induction d using members_induction with
  | h d ih =>
    cases d with
    | schema d =>
      rw [without, lists, lists, map_cons, map_map, SchemaDecl.without, map_map]
      rfl
    | component decs name body span =>
      rw [without, lists, lists, map_cons, withoutAll_eq_map, listsAll_eq_flatMap,
        listsAll_eq_flatMap, flatMap_map, map_flatMap, flatMap_congr (l := body) ih]
    | «alias» _ => rw [without, lists, lists, map_singleton, AliasDecl.without]
    | _ => rw [without, lists, lists, map_singleton]

theorem listsAll_withoutAll (mark : Span) (ds : List Decl) :
    listsAll (withoutAll mark ds) = (listsAll ds).map (Decoration.without mark) := by
  rw [withoutAll_eq_map, listsAll_eq_flatMap, listsAll_eq_flatMap, flatMap_map, map_flatMap,
    flatMap_congr fun d _ => lists_without mark d]

end Decl

namespace Session

variable {k : Checker} {s t : Session} {l : List Decoration} {mark : Span} {x : Excess}

/-! ### The shapes of all lists -/

/-- After the walk over shapes there is one finding more if the list is out of shape, and then the
list is stopped. -/
theorem exceeds_walkShapes {ds : List Decl} (hnd : (Decoration.marks (Decl.listsAll ds)).Nodup)
    (hl : l ∈ Decl.listsAll ds) (hmark : Decoration.mark? l = some mark) :
    Exceeds ⟨mark, (shapeFinding? k l).toList, [], false, (shapeFinding? k l).isSome⟩
      ((walkShapes k ds).run {}).2 ((walkShapes k (Decl.withoutAll mark ds)).run {}).2 := by
  obtain ⟨before, after, hls⟩ := append_of_mem hl
  rw [hls] at hnd
  have hoth := Decoration.ne_of_nodup_middle hnd hmark
  have hsame : (Decl.listsAll ds).map (Decoration.without mark) = before ++ [] :: after := by
    have hid : ∀ m ∈ before ++ after, Decoration.without mark m = id m := fun m hm =>
      Decoration.without_of_ne (hoth m hm)
    rw [hls, map_append, map_cons, map_congr_left fun m hm => hid m (mem_append_left _ hm),
      map_congr_left fun m hm => hid m (mem_append_right _ hm), map_id, map_id,
      Decoration.without, if_pos hmark]
  -- lists are stopped where they start
  have hhlt : ∀ {m span}, haltedAt? k m = some span ↔
      (shapeFinding? k m).isSome ∧ Decoration.mark? m = some span := by
    intro m span
    rw [haltedAt?, Decoration.mark?]
    cases shapeFinding? k m <;> simp
  have hmem : ∀ {x span}, span ∈ ((before ++ x :: after).filterMap (haltedAt? k)).reverse ++ [] ↔
      haltedAt? k x = some span ∨ ∃ m ∈ before ++ after, haltedAt? k m = some span := by
    intro x span
    rw [append_nil, mem_reverse, mem_filterMap]
    grind
  rw [run_walkShapes, run_walkShapes, Decl.listsAll_withoutAll, hsame, hls]
  exact {
    scopes := rfl
    findings := ⟨before.filterMap (shapeFinding? k), after.filterMap (shapeFinding? k),
      by simp [filterMap_cons, shapeFinding?], by
        cases hl : shapeFinding? k l <;> simp [hl]⟩
    deferred := inserted_nil.mpr rfl
    halted := fun span hspan => by
      rw [hmem, hmem, hhlt, hmark]
      simp [hhlt, Ne.symm hspan, shapeFinding?]
    stopped := by
      rw [hmem, hhlt, and_iff_left hmark]
      refine or_iff_left ?_
      rintro ⟨m, hm, hm'⟩
      exact hoth m hm (hhlt.mp hm').2
    registered := rfl
    aliases := rfl
    schemas := rfl
    components := rfl
    bodies _ := rfl
    instances _ := rfl
    externals _ := rfl
    body := rfl
    component := rfl
    reader := rfl
    depth := rfl }

theorem shapeFinding?_eq_some {finding : Diagnostic} (h : shapeFinding? k l = some finding) :
    ∃ before a after, l = before ++ a :: after ∧ (∀ b ∈ before, checkDecoration k b = .ok ()) ∧
      checkDecoration k a = .error finding := by
  induction l with
  | nil => cases h
  | cons a l ih =>
    rw [shapeFinding?] at h
    cases ha : checkDecoration k a with
    | ok _ =>
      rw [ha] at h
      obtain ⟨before, b, after, rfl, hbef, hb⟩ := ih h
      exact ⟨a :: before, b, after, rfl, forall_mem_cons.mpr ⟨ha, hbef⟩, hb⟩
    | error e =>
      rw [ha] at h
      cases h
      exact ⟨[], a, l, rfl, forall_mem_nil _, ha⟩

/-! ### Halts -/

/-- No list of decorations was stopped, and none goes on again. -/
def Unhalted (s t : Session) : Prop := t.halted = s.halted

instance : IsPreorder Session Unhalted where
  refl _ := rfl
  trans _ _ _ h h' := Eq.trans h' h

theorem traversed_unhalted : Traversed k Unhalted where
  report _ _ := rfl
  infer e expected s := (books_infer e expected s).quiet.halted
  runDecorators ds site type value s := (frame_runDecorators ds site type value s).halted
  depend x scope y kind s := (books_depend x scope y kind s).quiet.halted
  record x ds s := (frame_recordDecorations x ds s).halted
  declare name type s := (quiet_declare name type s).halted
  readingFor x _ hm s := hm (s.readingFor x)
  inChild hm s := hm s.inChild
  refine _ _ := rfl
  inBody comp scope _ hm s := hm (s.inside comp scope)

theorem Reaches.unhalted {d e : Decl} (h : Reaches k d s e u) : Unhalted s u := by
  induction h with
  | here => rfl
  | @inside decs name _ _ s info before _ _ _ _ _ _ _ _ ih =>
    have hsta : Unhalted s (s.atStart k decs name info.scope) :=
      traversed_unhalted.runDecorators _ _ _ _ s
    have hbef := (traversed_unhalted (k := k)).checkDecls before
      (s.atStart k decs name info.scope)
    exact ih.trans (hbef.trans hsta)

theorem ReachesIn.unhalted {ds : List Decl} {e : Decl} (h : ReachesIn k ds s e u) :
    Unhalted s u := by
  obtain ⟨before, d, after, -, hrch⟩ := h
  exact hrch.unhalted.trans (traversed_unhalted.checkDecls before s)

/-- More than one finding of a list are all about what its references mean. -/
theorem Outcome.single_or_references {d : Decl} {findings : List Diagnostic}
    {deferred : List DeferredCheck} {linked : Bool} (h : Outcome k u d l findings deferred linked) :
    findings.length ≤ 1 ∨
      linked = true ∧ ∀ e ∈ findings, ∃ r, u.resolveReference r = .error e := by
  cases h with
  | onAlias _ => exact Or.inl (Nat.le_refl 1)
  | fails _ _ _ _ => exact Or.inl (Nat.le_refl 1)
  | passes _ _ _ hfs =>
    cases findings with
    | nil => exact Or.inl (Nat.zero_le 1)
    | cons e findings =>
      refine Or.inr ⟨(hfs e mem_cons_self).1, fun e he => ?_⟩
      obtain ⟨-, a, -, refs, -, r, -, hr⟩ := hfs e he
      exact ⟨r, hr⟩

end Session

namespace Checker

open Session

variable {k : Checker} {p : Program} {l : List Decoration}

/-- What a list of decorations contributes to the check of a program, and whether it is stopped for
its shape. -/
inductive Contribution (k : Checker) (p : Program) (l : List Decoration) :
    List Diagnostic → List DeferredCheck → Bool → Bool → Prop
  /-- The first decoration that is unknown or has a wrong shape is a finding, and nothing else comes
  of the list. -/
  | misshapen {before after : List Decoration} {a : Decoration} {finding : Diagnostic}
      (hl : l = before ++ a :: after) (hbef : ∀ b ∈ before, checkDecoration k b = .ok ())
      (ha : checkDecoration k a = .error finding) : Contribution k p l [finding] [] false true
  /-- The shapes are right, and the list contributes where the check gets to it. -/
  | shaped {findings : List Diagnostic} {deferred : List DeferredCheck} {linked : Bool}
      (hl : ∀ a ∈ l, checkDecoration k a = .ok ())
      (h : Session.Contribution k (ReachesIn k p.items (k.registered p)) l findings deferred
        linked) : Contribution k p l findings deferred linked false

theorem Contribution.single_or_references {findings : List Diagnostic}
    {deferred : List DeferredCheck} {linked halted : Bool}
    (h : k.Contribution p l findings deferred linked halted) : findings.length ≤ 1 ∨
      linked = true ∧ ∀ e ∈ findings, ∃ s r, resolveReference s r = .error e := by
  cases h with
  | misshapen _ _ _ => exact Or.inl (Nat.le_refl 1)
  | shaped _ h =>
    cases h with
    | visited _ _ _ hout =>
      exact hout.single_or_references.imp_right fun ⟨hlnk, he⟩ =>
        ⟨hlnk, fun e hmem => ⟨_, he e hmem⟩⟩
    | unvisited _ => exact Or.inl (Nat.zero_le 1)

theorem exceeds_registered {mark : Span} (hnd : (Decoration.marks (Decl.listsAll p.items)).Nodup)
    (hl : l ∈ Decl.listsAll p.items) (hmark : Decoration.mark? l = some mark) :
    Exceeds ⟨mark, (shapeFinding? k l).toList, [], false, (shapeFinding? k l).isSome⟩
      (k.registered p) (k.registered (p.without mark)) :=
  (exceeds_walkShapes hnd hl hmark).run (beside_registerProgram mark p.items)

theorem exceeds_checked {mark : Span} (hnd : (Decoration.marks (Decl.listsAll p.items)).Nodup)
    (hl : l ∈ Decl.listsAll p.items) (hmark : Decoration.mark? l = some mark) :
    ∃ findings deferred linked,
      k.Contribution p l findings deferred linked (shapeFinding? k l).isSome ∧
      Exceeds ⟨mark, findings, deferred, linked, (shapeFinding? k l).isSome⟩ (k.checked p)
        (k.checked (p.without mark)) := by
  have hreg := exceeds_registered (k := k) hnd hl hmark
  cases hsh : shapeFinding? k l with
  | some finding =>
    rw [hsh] at hreg
    obtain ⟨before, a, after, hds, hbef, ha⟩ := shapeFinding?_eq_some hsh
    refine ⟨[finding], [], false, .misshapen hds hbef ha, ?_⟩
    exact hreg.run (beside_checkDecls fun _ _ _ _ _ => rfl)
  | none =>
    rw [hsh] at hreg
    obtain ⟨findings, deferred, linked, hcon, hexc⟩ :=
      Exceeds.contributionIn (k := k) hreg hnd hl hmark
        fun d _ => accounts hmark hsh d
    exact ⟨findings, deferred, linked, .shaped (shapeFinding?_eq_none hsh) hcon,
      hexc⟩

/-- Decorators fail fast: a list of decorations contributes at most one finding about its
decorators, and whether it is stopped for its shape has nothing to do with any other list. What
counts is an unknown decorator, a wrong shape, target or type, or a decorated alias; only where all
decorators pass may there be more findings, and these are about references that mean no instance.
Without the list the check has those findings less, and what the list leaves for values, and is the
same otherwise, up to the dependencies of a list all of whose decorators pass. -/
theorem exceeds_without {source : String} (hprs : Program.parse source = .ok p)
    {first : Decoration} {rest : List Decoration} (hl : first :: rest ∈ Decl.listsAll p.items) :
    ∃ findings deferred linked halted,
      k.Contribution p (first :: rest) findings deferred linked halted ∧
      (findings.length ≤ 1 ∨
        linked = true ∧ ∀ e ∈ findings, ∃ s r, resolveReference s r = .error e) ∧
      (∀ d u, ReachesIn k p.items (k.registered p) d u → u.isHalted (first :: rest) = halted) ∧
      Exceeds ⟨first.span, findings, deferred, linked, halted⟩ (k.checked p)
        (k.checked (p.without first.span)) ∧
      (linked = false →
        ((k.visit p).run {}).1 = ((k.visit (p.without first.span)).run {}).1 ∧
        Exceeds ⟨first.span, findings, deferred, linked, halted⟩ ((k.visit p).run {}).2
          ((k.visit (p.without first.span)).run {}).2) := by
  have hnd := Program.nodup_marks_of_parse hprs
  have hreg := exceeds_registered (k := k) hnd hl rfl
  obtain ⟨findings, deferred, linked, hcon, hexc⟩ :=
    exceeds_checked (k := k) hnd hl rfl
  refine ⟨findings, deferred, linked, _, hcon, hcon.single_or_references, ?_,
    hexc, ?_⟩
  · intro d u hrch
    have hhlt : u.halted = (k.registered p).halted := hrch.unhalted
    rw [isHalted, hhlt, Bool.eq_iff_iff, List.contains_iff_mem]
    exact hreg.stopped
  · intro hlnk
    exact (concludes_exceeds hlnk).orderProgram _ _ hexc

/-- A bound on numbers that waits for a value, before a bound on lengths on a number. -/
def stopsAtType : String :=
  "component C \x7b @minValue(1) @minLength(2) @sensitive input number x; @nope input number y \x7d"

instance : Program.Spelled stopsAtType := ⟨_, rfl⟩

theorem exceeds_without_stopsAtType : ∃ p first rest findings deferred linked halted,
    Program.parse stopsAtType = .ok p ∧ first :: rest ∈ Decl.listsAll p.items ∧ rest.length = 2 ∧
    builtin.Contribution p (first :: rest) findings deferred linked halted ∧
    findings.length = 1 ∧ deferred.length = 1 ∧
    Exceeds ⟨first.span, findings, deferred, linked, halted⟩ (builtin.checked p)
      (builtin.checked (p.without first.span)) := by
  have hrun : ((Program.parse stopsAtType).toOption.any fun p : Program => decide (
      ∃ l ∈ Decl.listsAll p.items, l.length = 3 ∧ ∃ a ∈ l.head?,
        (builtin.checked p).findings.length =
          (builtin.checked (p.without a.span)).findings.length + 1 ∧
        (builtin.checked p).deferred.length =
          (builtin.checked (p.without a.span)).deferred.length + 1)) = true := by
    decide +kernel
  obtain ⟨p, hprs, hfacts⟩ := exists_of_parse hrun
  obtain ⟨l, hl, hlen, first, hfst, hfs, hdef⟩ := of_decide_eq_true hfacts
  obtain ⟨rest, rfl⟩ : ∃ rest, l = first :: rest := List.head?_eq_some_iff.mp hfst
  obtain ⟨findings, deferred, linked, halted, hcon, -, -, hexc, -⟩ :=
    exceeds_without (k := builtin) hprs hl
  have hone := Nat.add_left_cancel (hexc.findings.length_eq.symm.trans hfs)
  have hlater := Nat.add_left_cancel (hexc.deferred.length_eq.symm.trans hdef)
  exact ⟨p, first, rest, findings, deferred, linked, halted, hprs, hl, Nat.succ.inj hlen,
    hcon, hone, hlater, hexc⟩

end Checker

end Provision
