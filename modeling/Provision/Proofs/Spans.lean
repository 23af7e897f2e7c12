import Provision.Proofs.Parser
import Provision.Proofs.WellFormed

/-!
# What readers give, and where it stands

The parts of a program that have a span form a tree (`Node`). `Node.Within lo hi ns` says that the
nodes `ns` stand one behind the other between two offsets, that none of them is empty, and that the
children of each stand inside it in the same way.

A reader takes tokens from the front, and the tokens stand one behind the other
(`Cursor.Ordered`). So on the way through a part that starts at `lo` what is known of a cursor is
`Cursor.Placed size lo ns`: the nodes `ns` that were read so far stand between `lo` and the end of
the last token. When the part is complete they become the children of one node
(`Node.Within.enclose` and its variants), and this takes its place behind the nodes before it
(`Cursor.Placed.append`).

A reader has a number of steps that it may be nested deep. `Parse.Adds k steps m f S` says of a
reader that four of them for each token and `k` more are enough, and what it gives then: the nodes
that it adds, and the relation `S` between the cursor before, the result and the cursor behind it.
Here are the readers of types and of expressions; those of declarations are in
`Provision.Proofs.Spans.Program`.
-/

namespace Provision

open List

variable {n : Node} {mark : Punct}

/-- A part of a program with its span, and the parts right inside it in the order of the source. -/
inductive Node where
  | mk (span : Span) (children : List Node)

namespace Node

def span : Node → Span
  | .mk span _ => span

def children : Node → List Node
  | .mk _ children => children

def leaf (span : Span) : Node := .mk span []

/-- Nodes that stand one behind the other between two offsets, none of them empty, and the children
of each inside it in the same way. -/
inductive Within : (lo hi : Nat) → List Node → Prop
  | nil {lo hi : Nat} : Within lo hi []
  | cons {lo hi : Nat} {n : Node} {ns : List Node} (hlo : lo ≤ n.span.start)
      (hspan : n.span.start < n.span.stop) (hhi : n.span.stop ≤ hi)
      (hch : Within n.span.start n.span.stop n.children) (hns : Within n.span.stop hi ns) :
      Within lo hi (n :: ns)

namespace Within

variable {lo hi : Nat} {m n : Node} {ms ns : List Node}

theorem mono (h : Within lo hi ns) {lo' hi' : Nat} (hlo : lo' ≤ lo) (hhi : hi ≤ hi') :
    Within lo' hi' ns := by
  induction h generalizing lo' hi' with
  | nil => exact .nil
  | cons hsta hspan hstop hch _ _ ih =>
    exact .cons (hlo.trans hsta) hspan (hstop.trans hhi) hch (ih le_rfl hhi)

theorem append {mid start : Nat} (h : Within lo mid ns) (h' : Within start hi ms)
    (hlo : lo ≤ start) (hmid : mid ≤ start) (hhi : mid ≤ hi) : Within lo hi (ns ++ ms) := by
  induction h with
  | nil => exact h'.mono hlo le_rfl
  | cons hsta hspan hstop hch _ _ ih =>
    exact .cons hsta hspan (hstop.trans hhi) hch (ih (hstop.trans hmid) hmid hhi)

theorem sublist (h : Within lo hi ns) (hsub : ms.Sublist ns) : Within lo hi ms := by
  induction h generalizing ms with
  | nil =>
    rw [eq_nil_of_sublist_nil hsub]
    exact .nil
  | cons hsta hspan hstop hch _ _ ih =>
    cases hsub with
    | cons _ hsub => exact (ih hsub).mono (hsta.trans hspan.le) le_rfl
    | cons_cons _ hsub => exact .cons hsta hspan hstop hch (ih hsub)

theorem append_of (h : Within lo hi (ns ++ ms)) {ks : List Node}
    (hks : ∀ {lo}, Within lo hi ms → Within lo hi ks) : Within lo hi (ns ++ ks) := by
  induction ns generalizing lo with
  | nil => exact hks h
  | cons n ns ih =>
    cases h with
    | cons hsta hspan hstop hch hns =>
      exact .cons hsta hspan hstop hch (ih hns)

theorem flatMap {α : Type} {node : α → Node} {f : α → List Node} {as : List α}
    (h : Within lo hi (as.map node ++ ms)) (hf : ∀ a, (f a).Sublist (node a).children) :
    Within lo hi (as.flatMap f ++ ms) := by
  induction as generalizing lo with
  | nil => exact h
  | cons a as ih =>
    rw [flatMap_cons, append_assoc]
    cases h with
    | cons hsta hspan hstop hch hns =>
      have hfst := (hch.sublist (hf a)).mono hsta le_rfl
      exact hfst.append (ih hns) (hsta.trans hspan.le) le_rfl hstop

theorem lt (h : Within lo hi ns) (hne : ns ≠ []) : lo < hi := by
  cases h with
  | nil => exact absurd rfl hne
  | cons hsta hspan hstop _ _ => omega

theorem of_mem (h : Within lo hi ns) (hn : n ∈ ns) : lo ≤ n.span.start ∧ n.span.stop ≤ hi := by
  induction h with
  | nil => cases hn
  | cons hsta hspan hstop _ _ _ ih =>
    rcases mem_cons.mp hn with rfl | hn
    · exact ⟨hsta, hstop⟩
    · have hrest := ih hn
      omega

theorem upTo (h : Within lo hi ns) (hlast : ns.getLast? = some n) :
    Within lo n.span.stop ns := by
  induction h with
  | nil => cases hlast
  | @cons _ _ m ns hsta hspan hstop hch _ _ ih =>
    cases ns with
    | nil =>
      cases hlast
      exact .cons hsta hspan le_rfl hch .nil
    | cons k ns =>
      have hrest := ih (getLast?_cons_cons ▸ hlast)
      exact .cons hsta hspan (hrest.lt (cons_ne_nil _ _)).le hch hrest

/-- Nodes become the children of one that reaches over all the offsets. -/
theorem enclose (h : Within lo hi ns) (hne : ns ≠ []) : Within lo hi [.mk ⟨lo, hi⟩ ns] :=
  .cons le_rfl (h.lt hne) le_rfl h .nil

theorem encloseFrom (h : Within lo hi (m :: ns)) (hsub : ms.Sublist (m :: ns)) :
    Within lo hi [.mk ⟨m.span.start, hi⟩ ms] := by
  cases h with
  | cons hsta hspan hstop hch hns =>
    have hfst : Within m.span.start hi (m :: ns) := .cons le_rfl hspan hstop hch hns
    exact .cons hsta (hfst.lt (cons_ne_nil _ _)) le_rfl (hfst.sublist hsub) .nil

theorem encloseTo (h : Within lo hi (m :: ns)) (hlast : (m :: ns).getLast? = some n)
    (hsub : ms.Sublist (m :: ns)) : Within lo hi [.mk ⟨m.span.start, n.span.stop⟩ ms] := by
  have hstop := (h.of_mem (mem_of_getLast? hlast)).2
  exact ((h.upTo hlast).encloseFrom hsub).mono le_rfl hstop

theorem span_to (h : Within lo hi [m, n]) :
    m.span.to n.span = ⟨m.span.start, n.span.stop⟩ := by
  cases h with
  | cons _ hspan _ _ hns =>
    cases hns with
    | cons hsta hspan' _ _ _ =>
      rw [Span.to, min_eq_left (by omega), max_eq_right (by omega)]

theorem pairwise (h : Within lo hi ns) : ns.Pairwise fun m n => m.span.stop ≤ n.span.start := by
  induction h with
  | nil => exact .nil
  | cons _ _ _ _ hns _ ih => exact .cons (fun n hn => (hns.of_mem hn).1) ih

theorem nodup_spans (h : Within lo hi ns) : (ns.map span).Nodup := by
  induction h with
  | nil => exact .nil
  | cons _ hspan _ _ hns _ ih =>
    refine nodup_cons.mpr ⟨fun hmem => ?_, ih⟩
    -- another node with the same span would start where this one ends
    obtain ⟨m, hm, heq⟩ := mem_map.mp hmem
    have hsta := (hns.of_mem hm).1
    rw [heq] at hsta
    omega

end Within

mutual

def all : Node → List Node
  | .mk span children => .mk span children :: allOf children

def allOf : List Node → List Node
  | [] => []
  | n :: ns => n.all ++ allOf ns

end

theorem all_eq (n : Node) : n.all = n :: allOf n.children := by
  cases n
  rw [all]
  rfl

/-- The children of a node stand inside it, one behind the other. -/
structure Orderly (n : Node) : Prop where
  inside : ∀ m ∈ n.children, n.span.start ≤ m.span.start ∧ m.span.stop ≤ n.span.stop
  apart : n.children.Pairwise fun m m' => m.span.stop ≤ m'.span.start

theorem Within.orderly (h : Within n.span.start n.span.stop n.children) : n.Orderly :=
  ⟨fun _ hm => h.of_mem hm, h.pairwise⟩

theorem Within.of_mem_allOf {lo hi : Nat} {ns : List Node} (h : Within lo hi ns)
    (hn : n ∈ allOf ns) : n.span.start < n.span.stop ∧ n.span.stop ≤ hi ∧ n.Orderly := by
  induction h with
  | nil =>
    rw [allOf] at hn
    cases hn
  | cons _ hspan hhi hch _ ihchildren ihns =>
    rw [allOf, all_eq, cons_append, mem_cons, mem_append] at hn
    rcases hn with rfl | hn | hn
    · exact ⟨hspan, hhi, hch.orderly⟩
    · obtain ⟨hspan', hstop, horderly⟩ := ihchildren hn
      exact ⟨hspan', hstop.trans hhi, horderly⟩
    · exact ihns hn

end Node

/-! ### Tokens in order -/

/-- The tokens still to be read are those of some source of the given size: they stand one behind
the other, none of them empty, behind the last token that was read. -/
structure Cursor.Ordered (size : Nat) (c : Cursor) : Prop where
  size_eq : c.size = size
  last_le : c.last ≤ c.size
  bounds : ∀ l ∈ c.rest, c.last ≤ l.span.start ∧ l.span.start < l.span.stop ∧ l.span.stop ≤ c.size
  pairwise : c.rest.Pairwise fun l m => l.span.stop ≤ m.span.start
  lexed : ∀ l ∈ c.rest, l.token.Lexed

namespace Cursor.Ordered

variable {size : Nat} {c : Cursor}

theorem current_cases (h : c.Ordered size) :
    (c.last ≤ c.current.span.start ∧ c.current.span.start < c.current.span.stop ∧
      c.current.token.Lexed) ∨
    (c.last ≤ c.current.span.start ∧ c.current.span.start = c.current.span.stop ∧
      c.current.token = .eof) := by
  rw [Cursor.current]
  cases hrest : c.rest with
  | nil => exact Or.inr ⟨h.last_le, rfl, rfl⟩
  | cons l rest =>
    have hl : l ∈ c.rest := hrest ▸ mem_cons_self
    exact Or.inl ⟨(h.bounds l hl).1, (h.bounds l hl).2.1, h.lexed l hl⟩

theorem last_le_start (h : c.Ordered size) : c.last ≤ c.current.span.start := by
  rcases h.current_cases with hcases | hcases <;> exact hcases.1

theorem start_le_stop (h : c.Ordered size) : c.current.span.start ≤ c.current.span.stop := by
  rcases h.current_cases with ⟨-, hlt, -⟩ | ⟨-, heq, -⟩
  · exact hlt.le
  · exact heq.le

theorem start_lt_stop (h : c.Ordered size) (ht : c.current.token ≠ .eof) :
    c.current.span.start < c.current.span.stop := by
  rcases h.current_cases with ⟨-, hlt, -⟩ | ⟨-, -, heof⟩
  · exact hlt
  · exact absurd heof ht

theorem readable (h : c.Ordered size) {t : Token} {span : Span} (hl : c.current = ⟨t, span⟩)
    (heof : t ≠ .eof) (hfault : ∀ cause, t ≠ .fault cause) : t.Readable := by
  have hcases := h.current_cases
  rw [hl] at hcases
  rcases hcases with ⟨-, -, hrd | ⟨cause, hcause⟩⟩ | ⟨-, -, heq⟩
  · exact hrd
  · exact absurd hcause (hfault cause)
  · exact absurd heq heof

theorem advance (h : c.Ordered size) : c.advance.Ordered size := by
  obtain ⟨rest, _, last⟩ := c
  cases rest with
  | nil => exact ⟨h.size_eq, le_rfl, forall_mem_nil _, .nil, forall_mem_nil _⟩
  | cons l rest =>
    have hpairwise := pairwise_cons.mp h.pairwise
    have hfst := h.bounds l mem_cons_self
    refine ⟨h.size_eq, hfst.2.2, fun m hm => ?_, hpairwise.2,
      (forall_mem_cons.mp h.lexed).2⟩
    have hrest := h.bounds m (mem_cons_of_mem l hm)
    exact ⟨hpairwise.1 m hm, hrest.2⟩

end Cursor.Ordered

theorem Cursor.length_advance (c : Cursor) (ht : c.current.token ≠ .eof) :
    c.advance.rest.length < c.rest.length := by
  obtain ⟨rest, _, _⟩ := c
  cases rest with
  | nil => exact absurd rfl ht
  | cons l rest => exact Nat.lt_succ_self _

theorem Cursor.length_skipSeparators (c : Cursor) :
    c.skipSeparators.rest.length ≤ c.rest.length := by
  obtain ⟨rest, size, last⟩ := c
  induction rest generalizing last with
  | nil => exact le_rfl
  | cons l rest ih =>
    unfold Cursor.skipSeparators Cursor.dropSeparators
    by_cases hsep : Cursor.isSeparator l.token
    · simp only [if_pos hsep]
      exact (ih l.span.stop).trans (Nat.le_succ _)
    · simp only [if_neg hsep]
      exact le_rfl

/-- The nodes `ns` were read from the offset `lo` on: they stand between it and the end of the last
token. -/
structure Cursor.Placed (size lo : Nat) (ns : List Node) (c : Cursor) : Prop where
  ordered : c.Ordered size
  le_start : lo ≤ c.current.span.start
  within : Node.Within lo c.last ns

namespace Cursor.Placed

variable {size lo : Nat} {ns : List Node} {c c' : Cursor}

theorem advance (h : c.Placed size lo ns) : c.advance.Placed size lo ns := by
  have hlast := h.ordered.last_le_start
  have hspan := h.ordered.start_le_stop
  have hnext : c.current.span.stop ≤ c.advance.current.span.start :=
    h.ordered.advance.last_le_start
  exact ⟨h.ordered.advance, (h.le_start.trans hspan).trans hnext,
    h.within.mono le_rfl (hlast.trans hspan)⟩

theorem skipSeparators (h : c.Placed size lo ns) : c.skipSeparators.Placed size lo ns := by
  obtain ⟨rest, _, last⟩ := c
  induction rest generalizing last with
  | nil => exact h
  | cons l rest ih =>
    unfold Cursor.skipSeparators Cursor.dropSeparators
    by_cases hsep : Cursor.isSeparator l.token
    · simp only [if_pos hsep]
      exact ih l.span.stop h.advance
    · simp only [if_neg hsep]
      exact h

theorem advance_leaf (h : c.Placed size lo ns) (ht : c.current.token ≠ .eof) :
    c.advance.Placed size lo (ns ++ [.leaf c.current.span]) := by
  have hspan := h.ordered.start_lt_stop ht
  have hlast := h.ordered.last_le_start
  have hleaf : Node.Within c.current.span.start c.current.span.stop [.leaf c.current.span] :=
    .cons le_rfl hspan le_rfl .nil .nil
  exact ⟨h.ordered.advance, h.advance.le_start,
    h.within.append hleaf h.le_start hlast (hlast.trans hspan.le)⟩

/-- A node that was read from the current token on stands behind those before it. -/
theorem append (h : c.Placed size lo ns) (h' : c'.Placed size c.current.span.start [n]) :
    c'.Placed size lo (ns ++ [n]) := by
  have hlast := h.ordered.last_le_start
  have hlt := h'.within.lt (cons_ne_nil _ _)
  exact ⟨h'.ordered, h.le_start.trans h'.le_start,
    h.within.append h'.within h.le_start hlast (hlast.trans hlt.le)⟩

end Cursor.Placed

/-! ### What readers add -/

def Ident.node (i : Ident) : Node := .leaf i.span

namespace Parse

open Cursor (Placed)

variable {α β : Type} {c : Cursor} {size lo k steps : Nat} {ns ms : List Node} {m : Parse α}
  {g : α → Parse β} {f : α → List Node} {F : β → List Node} {Q : α → Cursor → Prop}
  {R : β → Cursor → Prop} {node : α → Node}

/-- At the cursor `c` and behind the nodes `ns` that were read from `lo` on, a reader does not run
out of steps. A result `a` leaves the nodes `f a`, and has the property `Q` with the cursor behind
it. -/
def Places (c : Cursor) (size lo : Nat) (ns : List Node) (m : Parse α) (f : α → List Node)
    (Q : α → Cursor → Prop) : Prop :=
  Placed size lo ns c → m.run c ≠ .error .stalled ∧
    ∀ a c', m.run c = .ok (a, c') → Placed size lo (f a) c' ∧ Q a c'

/-- With enough steps for the tokens that are left, a reader adds the nodes of its result to those
that were read before. -/
def Adds (k steps : Nat) (m : Parse α) (f : α → List Node) (S : Cursor → α → Cursor → Prop) :
    Prop :=
  ∀ {c size lo ns}, 4 * c.rest.length + k ≤ steps → Places c size lo ns m (fun a => ns ++ f a) (S c)

theorem places_pure {a : α} (hf : f a = ns) (hQ : Q a c) : Places c size lo ns (pure a) f Q := by
  refine fun hc => ⟨nofun, ?_⟩
  rintro _ _ ⟨⟩
  exact ⟨hf ▸ hc, hQ⟩

theorem places_throw {e : ParseError} (he : e ≠ .stalled) :
    Places c size lo ns (throw e : Parse α) f Q :=
  fun _ => ⟨fun h => he (Except.error.inj h), nofun⟩

/-- One reader places its nodes behind those of the one before. -/
theorem Places.bind (hm : Places c size lo ns m f Q)
    (hg : ∀ a c', Q a c' → Places c' size lo (f a) (g a) F R) :
    Places c size lo ns (m >>= g) F R := by
  intro hc
  obtain ⟨hstl, hm⟩ := hm hc
  show (m.run c >>= fun r => (g r.1).run r.2) ≠ _ ∧
    ∀ b c'', (m.run c >>= fun r => (g r.1).run r.2) = _ → _
  cases hrun : m.run c with
  | error e =>
    rw [hrun] at hstl
    exact ⟨fun h => hstl (Except.error.inj h ▸ rfl), nofun⟩
  | ok r =>
    obtain ⟨hc', ha⟩ := hm r.1 r.2 hrun
    exact hg r.1 r.2 ha hc'

theorem Places.imp {Q' : α → Cursor → Prop} (h : Places c size lo ns m f Q)
    (hQ : ∀ a c', Q a c' → Q' a c') : Places c size lo ns m f Q' := by
  intro hc
  obtain ⟨hstl, hm⟩ := h hc
  exact ⟨hstl, fun a c' hrun => (hm a c' hrun).imp_right (hQ a c')⟩

theorem Places.ite_bind {b : Bool} {m' : Parse α}
    (h : Places c size lo ns (if b then m else m') f Q)
    (hg : ∀ a c', Q a c' → Places c' size lo (f a) (g a) F R) :
    Places c size lo ns (if b then m >>= g else m' >>= g) F R := by
  cases b with
  | false => exact h.bind hg
  | true => exact h.bind hg

/-! ### Single tokens -/

theorem places_look (v : Cursor → α) (h : Places c size lo ns (g (v c)) F R) :
    Places c size lo ns ((do return v (← get)) >>= g) F R := h

theorem places_if {m m' : Parse β}
    (hthen : c.current.token = .punct mark → Places c size lo ns m F R)
    (helse : c.current.token ≠ .punct mark → Places c size lo ns m' F R) :
    Places c size lo ns (isAt mark >>= fun b => if b then m else m') F R := by
  show Places c size lo ns (if (c.current.token == .punct mark) = true then m else m') F R
  split
  · next h => exact hthen (beq_iff_eq.mp h)
  · next h => exact helse fun heq => h (beq_iff_eq.mpr heq)

theorem places_isAtAssignment {g : Bool → Parse β} (h : ∀ b, Places c size lo ns (g b) F R) :
    Places c size lo ns (isAtAssignment >>= g) F R := by
  rw [isAtAssignment, bind_assoc]
  refine places_look (fun c => c.current.token) ?_
  split
  · exact h _
  · exact h _

theorem places_advance {g : Unit → Parse β}
    (h : ∀ c', c'.rest.length ≤ c.rest.length → Places c' size lo ns (g ()) F R) :
    Places c size lo ns (advance >>= g) F R :=
  fun hc => h c.advance (length_tail.trans_le (Nat.sub_le _ _)) hc.advance

theorem places_next {g : Unit → Parse β} (ht : c.current.token ≠ .eof)
    (h : ∀ c', c'.rest.length < c.rest.length → Places c' size lo ns (g ()) F R) :
    Places c size lo ns (advance >>= g) F R :=
  fun hc => h c.advance (c.length_advance ht) hc.advance

theorem places_leaf {t : Token} {span : Span} {g : Unit → Parse β} (hl : c.current = ⟨t, span⟩)
    (ht : t ≠ .eof) (h : ∀ c', c'.rest.length < c.rest.length →
      Places c' size lo (ns ++ [.leaf span]) (g ()) F R) :
    Places c size lo ns (advance >>= g) F R := by
  have ht : c.current.token ≠ .eof := by rw [hl]; exact ht
  have hspan : span = c.current.span := by rw [hl]
  rw [hspan] at h
  exact fun hc => h c.advance (c.length_advance ht) (hc.advance_leaf ht)

theorem places_skipSeparators {g : Unit → Parse β}
    (h : ∀ c', c'.rest.length ≤ c.rest.length → Places c' size lo ns (g ()) F R) :
    Places c size lo ns (skipSeparators >>= g) F R :=
  fun hc => h c.skipSeparators c.length_skipSeparators hc.skipSeparators

theorem places_expect {wanted : Token} (h : wanted ≠ .eof) :
    Places c size lo ns (expect wanted) (fun span => ns ++ [.leaf span])
      fun _ c' => c'.rest.length < c.rest.length := by
  refine places_look Cursor.current ?_
  split
  · next htok => exact places_leaf rfl (htok ▸ h) fun c' hlt => places_pure rfl hlt
  · exact places_throw nofun

theorem places_expectMark {g : Unit → Parse β}
    (h : ∀ c', c'.rest.length < c.rest.length → Places c' size lo ns (g ()) F R) :
    Places c size lo ns (expectMark mark >>= g) F R := by
  rw [expectMark, expect, bind_assoc, bind_assoc]
  refine places_look Cursor.current ?_
  split
  · next htok => exact places_next (htok ▸ Token.noConfusion) h
  · exact places_throw nofun

theorem places_ident : Places c size lo ns ident (fun i => ns ++ [i.node]) fun i c' =>
    Token.isIdentifier i.text ∧ c'.rest.length < c.rest.length := by
  intro hc
  refine places_look Cursor.current ?_ hc
  split
  · next text htext =>
    have hl : c.current = ⟨.ident text, c.current.span⟩ := by rw [← htext]
    have hnm := hc.ordered.readable hl Token.noConfusion fun _ => Token.noConfusion
    exact places_leaf hl Token.noConfusion fun c' hlt => places_pure rfl ⟨hnm, hlt⟩
  · exact places_throw nofun

theorem places_name : Places c size lo ns name (fun i => ns ++ [i.node]) fun _ c' =>
    c'.rest.length < c.rest.length := by
  refine places_look Cursor.current ?_
  split
  · next text htext =>
    have ht : c.current.token ≠ .eof := fun heof => by
      rw [heof] at htext
      cases htext
    exact places_leaf rfl ht fun c' hlt => places_pure rfl hlt
  · exact places_throw nofun

/-! ### Parts and what is inside them -/

theorem places_part {g : Nat → Parse α} (h : ∀ start, Places c size start [] (g start) f
    fun a c' => (∃ n, f a = [n]) ∧ Q a c') :
    Places c size lo ns (start >>= g) (fun a => ns ++ f a) Q := by
  intro hc
  obtain ⟨hstl, hg⟩ := h c.current.span.start ⟨hc.ordered, le_rfl, .nil⟩
  refine ⟨hstl, fun a c' hrun => ?_⟩
  obtain ⟨hplaced, ⟨n, hn⟩, ha⟩ := hg a c' hrun
  refine ⟨?_, ha⟩
  dsimp only
  rw [hn] at hplaced ⊢
  exact hc.append hplaced

theorem places_start {g : Nat → Parse α}
    (h : ∀ start, Places c size start [] (g start) (fun a => [node a]) Q) :
    Places c size lo ns (start >>= g) (fun a => ns ++ [node a]) Q :=
  places_part fun start => (h start).imp fun _ _ ha => ⟨⟨_, rfl⟩, ha⟩

theorem places_of_start (h : ∀ start, Places c size start [] m (fun a => [node a]) Q) :
    Places c size lo ns m (fun a => ns ++ [node a]) Q :=
  places_start (g := fun _ => m) h

theorem places_enclose {g : Span → Parse β} (hne : ns ≠ [])
    (h : ∀ span, Places c size lo [.mk span ns] (g span) F R) :
    Places c size lo ns (spanFrom lo >>= g) F R :=
  fun hc => h ⟨lo, c.last⟩ ⟨hc.ordered, hc.le_start, hc.within.enclose hne⟩

/-- A node is closed around those that were read since it began. -/
theorem places_close {part : Span → α} (hne : ns ≠ []) (hf : ∀ span, f (part span) = [.mk span ns])
    (hQ : ∀ span, Q (part span) c) : Places c size lo ns (do return part (← spanFrom lo)) f Q :=
  places_enclose hne fun span => places_pure (hf span) (hQ span)

theorem places_encloseFrom {g : Span → Parse β} (hsub : ms.Sublist (n :: ns))
    (h : ∀ span, Places c size lo [.mk span ms] (g span) F R) :
    Places c size lo (n :: ns) (spanFrom n.span.start >>= g) F R :=
  fun hc => h ⟨n.span.start, c.last⟩ ⟨hc.ordered, hc.le_start, hc.within.encloseFrom hsub⟩

theorem places_encloseTo {n' : Node} (hlast : (n :: ns).getLast? = some n')
    (hsub : ms.Sublist (n :: ns))
    (h : Places c size lo [.mk ⟨n.span.start, n'.span.stop⟩ ms] m f Q) :
    Places c size lo (n :: ns) m f Q :=
  fun hc => h ⟨hc.ordered, hc.le_start, hc.within.encloseTo hlast hsub⟩

theorem places_cover {n' : Node} (hsub : ms.Sublist [n, n'])
    (h : Places c size lo [.mk (n.span.to n'.span) ms] m f Q) : Places c size lo [n, n'] m f Q := by
  refine fun hc => h ⟨hc.ordered, hc.le_start, ?_⟩
  rw [hc.within.span_to]
  exact hc.within.encloseTo rfl hsub

/-! ### Lists -/

section Lists

variable {loop : Nat → Parse (List α)} {item : Nat → Parse α} {P : α → Prop}

/-- Tokens were taken for something with a property. -/
abbrev Single (P : α → Prop) (c : Cursor) (a : α) (c' : Cursor) : Prop :=
  P a ∧ c'.rest.length < c.rest.length

abbrev Several (P : α → Prop) (c : Cursor) (as : List α) (c' : Cursor) : Prop :=
  (∀ a ∈ as, P a) ∧ c'.rest.length ≤ c.rest.length

abbrev OneOrMore (P : α → Prop) (c : Cursor) (as : List α) (c' : Cursor) : Prop :=
  as ≠ [] ∧ (∀ a ∈ as, P a) ∧ c'.rest.length < c.rest.length

theorem Bracketed.adds_succ (h : Bracketed mark loop item)
    (hit : Adds k steps (item steps) (fun a => [node a]) (Single P))
    (hloop : Adds (k + 1) steps (loop steps) (fun as => as.map node) (Several P)) :
    Adds (k + 1) (steps + 1) (loop (steps + 1)) (fun as => as.map node) (Several P) := by
  intro c size lo ns hsteps
  rw [h.succ]
  refine places_skipSeparators fun c₁ hle => places_if (fun _ => ?_) fun _ => ?_
  · exact places_pure (append_nil _) ⟨forall_mem_nil _, hle⟩
  · refine (hit (by omega)).bind fun a c₂ ha => (hloop (by omega)).bind fun as c₃ has => ?_
    refine places_pure (by simp) ⟨forall_mem_cons.mpr ⟨ha.1, has.1⟩, by omega⟩

theorem Bracketed.adds (h : Bracketed mark loop item)
    (hit : ∀ steps, Adds k steps (item steps) (fun a => [node a]) (Single P)) :
    Adds (k + 1) steps (loop steps) (fun as => as.map node) (Several P) := by
  induction steps with
  | zero => exact fun hsteps => absurd hsteps (by omega)
  | succ steps ih => exact h.adds_succ (hit steps) ih

theorem Commas.adds_succ (h : Commas loop item)
    (hit : Adds k steps (item steps) (fun a => [node a]) (Single P))
    (hloop : Adds (k + 1) steps (loop steps) (fun as => as.map node) (OneOrMore P)) :
    Adds (k + 1) (steps + 1) (loop (steps + 1)) (fun as => as.map node) (OneOrMore P) := by
  intro c size lo ns hsteps
  rw [h.succ]
  refine (hit (by omega)).bind fun a c₁ ha => places_if (fun _ => ?_) fun _ => ?_
  · refine places_advance fun c₂ hle => (hloop (by omega)).bind fun as c₃ has => ?_
    refine places_pure (by simp) ⟨cons_ne_nil _ _, ?_, by omega⟩
    exact forall_mem_cons.mpr ⟨ha.1, has.2.1⟩
  · exact places_pure rfl ⟨cons_ne_nil _ _, forall_mem_singleton.mpr ha.1, ha.2⟩

theorem Commas.adds (h : Commas loop item)
    (hit : ∀ steps, Adds k steps (item steps) (fun a => [node a]) (Single P)) :
    Adds (k + 1) steps (loop steps) (fun as => as.map node) (OneOrMore P) := by
  induction steps with
  | zero => exact fun hsteps => absurd hsteps (by omega)
  | succ steps ih => exact h.adds_succ (hit steps) ih

end Lists

end Parse

open Parse

/-! ### Types -/

namespace TypeExpr

mutual

def node : TypeExpr → Node
  | .named name => .mk name.span [name.node]
  | .array elem span => .mk span [elem.node]
  | .union variants span => .mk span (nodes variants)

def nodes : List TypeExpr → List Node
  | [] => []
  | t :: ts => t.node :: nodes ts

end

theorem nodes_eq_map (ts : List TypeExpr) : nodes ts = ts.map node := by
  induction ts with
  | nil => rw [nodes, map_nil]
  | cons t ts ih => rw [nodes, ih, map_cons]

/-- Every suffix makes one more array around the type. -/
theorem places_parseSuffixes {b : Prop} {c : Cursor} {size start steps : Nat} {elem : TypeExpr}
    (helem : elem.WellFormed) (hnm : b → ∀ inside, elem.StartsWithName inside)
    (hsteps : c.rest.length + 1 ≤ steps) :
    Places c size start [elem.node] (parseSuffixes steps start elem) (fun t => [t.node])
      fun t c' => t.WellFormed ∧ (b → ∀ inside, t.StartsWithName inside) ∧
        c'.rest.length ≤ c.rest.length := by
  induction steps generalizing c elem with
  | zero => exact absurd hsteps (by omega)
  | succ steps ih =>
    rw [parseSuffixes]
    refine places_look (fun c => c.current.token == .punct .openBracket) ?_
    refine places_look (fun c => c.following.token) ?_
    split
    · next hopen =>
      have ht := beq_iff_eq.mp (Bool.and_eq_true_iff.mp hopen).1
      refine places_next (ht ▸ Token.noConfusion) fun c₁ hlt => places_advance fun c₂ hle => ?_
      refine places_enclose (cons_ne_nil _ _) fun span => ?_
      have hnms := fun hb inside => (hnm hb true).array inside span
      refine Places.imp (ih (.array helem) hnms (by omega)) fun t c' ht => ?_
      exact ⟨ht.1, ht.2.1, by omega⟩
    · exact places_pure rfl ⟨helem, hnm, le_rfl⟩

structure Adding (steps : Nat) : Prop where
  parse : Adds 2 steps (parse steps) (fun t => [t.node]) fun c t c' =>
    t.WellFormed ∧ (c.current.token ≠ .punct .openParen → t.StartsWithName false) ∧
      c'.rest.length < c.rest.length
  parseOthers : Adds 1 steps (parseOthers steps) (fun ts => ts.map node) fun c ts c' =>
    (∀ t ∈ ts, t.WellFormed) ∧ (c.current.token = .punct .bar → ts ≠ []) ∧
      c'.rest.length ≤ c.rest.length
  parsePart : Adds 1 steps (parsePart steps) (fun t => [t.node]) fun c t c' =>
    t.WellFormed ∧ (c.current.token ≠ .punct .openParen → ∀ inside, t.StartsWithName inside) ∧
      c'.rest.length < c.rest.length

/-- The readers of types call one another, so all of them are proved at once. -/
theorem adding (steps : Nat) : Adding steps := by
  induction steps with
  | zero => constructor <;> exact fun hsteps => absurd hsteps (by omega)
  | succ steps ih =>
    constructor
    · intro c size lo ns hsteps
      rw [TypeExpr.parse]
      refine places_start fun start => (ih.parsePart (by omega)).bind fun first c₁ hfst => ?_
      refine places_if (fun hbar => ?_) fun _ => ?_
      · refine (ih.parseOthers (by omega)).bind fun others c₂ hoth => ?_
        refine places_close (by simp) (fun span => ?_) fun span =>
          ⟨.union ?_ (forall_mem_cons.mpr ⟨hfst.1, hoth.1⟩),
            fun ht => (hfst.2.1 ht true).union others span, by omega⟩
        · rw [node, nodes_eq_map]
          rfl
        · exact Nat.succ_le_succ (length_pos_iff.mpr (hoth.2.1 hbar))
      · exact places_pure rfl ⟨hfst.1, fun ht => hfst.2.1 ht false, hfst.2.2⟩
    · intro c size lo ns hsteps
      rw [TypeExpr.parseOthers]
      refine places_if (fun hbar => ?_) fun hbar => ?_
      · refine places_next (hbar ▸ Token.noConfusion) fun c₁ hlt => ?_
        refine (ih.parsePart (by omega)).bind fun part c₂ hpart => ?_
        refine (ih.parseOthers (by omega)).bind fun others c₃ hoth => places_pure (by simp) ?_
        exact ⟨forall_mem_cons.mpr ⟨hpart.1, hoth.1⟩, fun _ => cons_ne_nil _ _,
          by omega⟩
      · exact places_pure (append_nil _)
          ⟨forall_mem_nil _, fun ht => absurd ht hbar, le_rfl⟩
    · intro c size lo ns hsteps
      rw [TypeExpr.parsePart]
      refine places_start fun start => places_if (fun hparen => ?_) fun _ => ?_
      · refine places_next (hparen ▸ Token.noConfusion) fun c₁ hlt => ?_
        refine (ih.parse (by omega)).bind fun inner c₂ hin => ?_
        refine places_expectMark fun c₃ hlt' => ?_
        refine (places_parseSuffixes hin.1 (fun ht => absurd hparen ht) (by omega)).imp ?_
        exact fun t c' ht => ⟨ht.1, ht.2.1, by omega⟩
      · refine places_ident.bind fun name c₁ hnm => ?_
        refine places_encloseTo rfl (Sublist.refl _) ?_
        have hstarts : c.current.token ≠ .punct .openParen →
            ∀ inside, (TypeExpr.named name).StartsWithName inside := fun _ _ => ⟨name.text, rfl⟩
        refine Places.imp (places_parseSuffixes (.named hnm.1) hstarts (by omega)) ?_
        exact fun t c' ht => ⟨ht.1, ht.2.1, by omega⟩

end TypeExpr

/-! ### Expressions -/

mutual

def Expr.node : Expr → Node
  | .lit _ span => .leaf span
  | .var name => .mk name.span [name.node]
  | .member base field span => .mk span [base.node, field.node]
  | .array items span => .mk span (Expr.nodes items)
  | .object fields span => .mk span (Expr.fieldNodes fields)
  | .unary _ operand span => .mk span [operand.node]
  | .call callee args span => .mk span (callee.node :: Expr.nodes args)
  | .binary lhs _ rhs span => .mk span [lhs.node, rhs.node]
  | .paren inner span => .mk span [inner.node]

def Expr.nodes : List Expr → List Node
  | [] => []
  | e :: es => e.node :: Expr.nodes es

def Expr.fieldNodes : List ObjectField → List Node
  | [] => []
  | .mk key value span :: fs => .mk span [key.node, value.node] :: Expr.fieldNodes fs

end

def ObjectField.node (f : ObjectField) : Node := .mk f.span [f.key.node, f.value.node]

namespace Expr

theorem nodes_eq_map (es : List Expr) : nodes es = es.map node := by
  induction es with
  | nil => rw [nodes, map_nil]
  | cons e es ih => rw [nodes, ih, map_cons]

theorem fieldNodes_eq_map (fs : List ObjectField) : fieldNodes fs = fs.map ObjectField.node := by
  induction fs with
  | nil => rw [fieldNodes, map_nil]
  | cons f fs ih =>
    obtain ⟨key, value, span⟩ := f
    rw [fieldNodes, ih, map_cons]
    rfl

theorem span_node (e : Expr) : e.node.span = e.span := by
  cases e <;> (rw [node]; rfl)

/-- The expression was read inside `depth` others with the given power. -/
def ReadWith (depth power : Nat) (e : Expr) (c : Cursor) : Prop :=
  e.Fits depth power ∧ c.current.token.Stops power

/-- The expression was read as an operand inside `depth` others. -/
def ReadAsOperand (depth : Nat) (c : Cursor) (e : Expr) (c' : Cursor) : Prop :=
  (∀ power, e.Fits depth power) ∧ e.Ends c'.current.token ∧ c'.rest.length < c.rest.length

/-- What the readers of expressions add. -/
structure Adding (steps : Nat) : Prop where
  parse : ∀ {depth power}, Adds 2 steps (parse steps depth power) (fun e => [e.node])
    fun c e c' => e.ReadWith depth power c' ∧ c'.rest.length < c.rest.length
  parseOperand : ∀ {depth}, depth < maxNesting → Adds 1 steps (parseOperand steps (depth + 1))
    (fun e => [e.node]) (ReadAsOperand depth)
  parseRest : ∀ {c size lo depth power lhs}, lhs.Fits depth power → lhs.Ends c.current.token →
    4 * c.rest.length + 1 ≤ steps →
    Places c size lo [lhs.node] (parseRest steps (depth + 1) power lhs) (fun e => [e.node])
      fun e c' => e.ReadWith depth power c' ∧ c'.rest.length ≤ c.rest.length
  parseItems : ∀ {depth}, Adds 3 steps (parseItems steps depth) (fun es => es.map node)
    (Several (·.Fits depth 0))
  parseFields : ∀ {depth}, Adds 3 steps (parseFields steps depth)
    (fun fs => fs.map ObjectField.node) (Several (·.value.Fits depth 0))
  parseCall : ∀ {depth}, Adds 4 steps (parseCall steps depth) (fun es => es.map node)
    (Several (·.Fits depth 0))
  parseList : ∀ {depth}, Adds 3 steps (parseList steps depth) (fun es => es.map node)
    (OneOrMore (·.Fits depth 0))

variable {steps : Nat}

theorem Adding.item (h : Adding steps) {depth : Nat} :
    Adds 2 steps (Expr.parse steps depth 0) (fun e => [e.node]) (Single (·.Fits depth 0)) :=
  fun hsteps => (h.parse hsteps).imp fun _ _ he => ⟨he.1.1, he.2⟩

/-- An operand adds one node, whatever token it begins with. -/
theorem Adding.operand (h : Adding steps) {depth : Nat} (hdp : depth < maxNesting) :
    Adds 1 (steps + 1) (Expr.parseOperand (steps + 1) (depth + 1)) (fun e => [e.node])
      (ReadAsOperand depth) := by
  intro c size lo ns hsteps
  refine places_of_start fun start hc => ?_
  obtain ⟨token, span, hl⟩ : ∃ token span, c.current = ⟨token, span⟩ := ⟨_, _, rfl⟩
  have hrd := hc.ordered.readable hl
  revert hc
  -- the first token is a node until the operand around it is complete
  have hlit : ∀ {value : Lit}, value.Readable → token ≠ .eof → Places c size start [] (do
      advance
      return Expr.lit value span) (fun e => [e.node]) (ReadAsOperand depth c) := by
    intro value hval ht
    refine places_leaf hl ht fun c' hlt => places_pure (by rw [node]; rfl) ?_
    exact ⟨fun power => .lit hdp hval, trivial, hlt⟩
  have hunary : ∀ {op : UnaryOp}, token ≠ .eof → Places c size start [] (do
      advance
      let operand ← Expr.parse steps (depth + 1) UnaryOp.power
      return Expr.unary op operand (span.to operand.span)) (fun e => [e.node])
      (ReadAsOperand depth c) := by
    intro op ht
    refine places_leaf hl ht fun c₁ hlt => (h.parse (by omega)).bind fun operand c₂ hoperand => ?_
    refine places_cover (sublist_cons_self _ _) (places_pure ?_
      ⟨fun power => .unary hdp hoperand.1.1, hoperand.1.2, by omega⟩)
    rw [node, span_node]
    rfl
  rw [Expr.parseOperand]
  refine places_look Cursor.current ?_
  rw [hl]
  dsimp only
  split
  · exact hunary Token.noConfusion
  · exact hunary Token.noConfusion
  · refine hlit ⟨Int.natCast_nonneg _, ?_⟩ Token.noConfusion
    exact hrd Token.noConfusion fun _ => Token.noConfusion
  · exact hlit (hrd Token.noConfusion fun _ => Token.noConfusion) Token.noConfusion
  · exact hlit trivial Token.noConfusion
  · exact hlit trivial Token.noConfusion
  · exact hlit trivial Token.noConfusion
  · exact hlit trivial Token.noConfusion
  · have hnm := hrd Token.noConfusion fun _ => Token.noConfusion
    refine places_leaf hl Token.noConfusion fun c₁ hlt => ?_
    refine places_encloseTo rfl (Sublist.refl _) (places_pure ?_
      ⟨fun power => .var hdp hnm, trivial, hlt⟩)
    rw [node]
    rfl
  · refine places_leaf hl Token.noConfusion fun c₁ hlt => ?_
    refine (h.item (by omega)).bind fun inner c₂ hin => ?_
    refine (places_expect Token.noConfusion).bind fun close c₃ hlt' => ?_
    have hsub : [inner.node].Sublist [.leaf span, inner.node, .leaf close] :=
      .cons _ (.cons_cons _ (nil_sublist _))
    refine places_encloseTo rfl hsub (places_pure ?_
      ⟨fun power => .paren hdp hin.1, trivial, by omega⟩)
    rw [node]
    rfl
  · refine places_leaf hl Token.noConfusion fun c₁ hlt => ?_
    refine (h.parseItems (by omega)).bind fun items c₂ hits => places_expectMark fun c₃ hlt' => ?_
    refine places_encloseFrom (sublist_cons_self _ _) fun s => places_pure ?_
      ⟨fun power => .array hdp hits.1, trivial, by omega⟩
    rw [node, nodes_eq_map]
    rfl
  · refine places_leaf hl Token.noConfusion fun c₁ hlt => ?_
    refine (h.parseFields (by omega)).bind fun fs c₂ hfs => places_expectMark fun c₃ hlt' => ?_
    refine places_encloseFrom (sublist_cons_self _ _) fun s => places_pure ?_
      ⟨fun power => .object hdp hfs.1, trivial, by omega⟩
    rw [node, fieldNodes_eq_map]
    rfl
  · exact places_throw ParseError.noConfusion
  · exact places_throw ParseError.noConfusion

/-- Members, calls and operators go around what was read before. -/
theorem Adding.rest (h : Adding steps) {c : Cursor} {size lo depth power : Nat} {lhs : Expr}
    (hlhs : lhs.Fits depth power) (hends : lhs.Ends c.current.token)
    (hsteps : 4 * c.rest.length + 1 ≤ steps + 1) :
    Places c size lo [lhs.node] (Expr.parseRest (steps + 1) (depth + 1) power lhs)
      (fun e => [e.node])
      fun e c' => e.ReadWith depth power c' ∧ c'.rest.length ≤ c.rest.length := by
  have hdone : c.current.token.Stops power → Places c size lo [lhs.node] (pure lhs)
      (fun e => [e.node])
      fun e c' => e.ReadWith depth power c' ∧ c'.rest.length ≤ c.rest.length :=
    fun hstp => places_pure rfl ⟨⟨hlhs, hstp⟩, le_rfl⟩
  rw [Expr.parseRest]
  refine places_look (fun c => c.current.token) ?_
  split
  · next hdot =>
    -- an operation would have taken the point for its last operand
    have hbase := hends.isOperation fun _ hstp => hstp.ne_dot hdot
    refine places_next (hdot ▸ Token.noConfusion) fun c₁ hlt => ?_
    refine places_name.bind fun field c₂ hlt' => places_cover (Sublist.refl _) ?_
    rw [span_node]
    refine Places.imp (h.parseRest (.member hbase hlhs) trivial (by omega)) fun e c' he => ?_
    exact ⟨he.1, by omega⟩
  · next hparen =>
    have hcallee := hends.isOperation fun _ hstp => hstp.ne_openParen hparen
    refine places_next (hparen ▸ Token.noConfusion) fun c₁ hlt => ?_
    refine (h.parseCall (by omega)).bind fun args c₂ hargs => places_expectMark fun c₃ hlt' => ?_
    rw [← span_node]
    refine places_encloseFrom (Sublist.refl _) fun span => ?_
    show Places c₃ size lo [⟨span, lhs.node :: args.map node⟩] _ _ _
    rw [← nodes_eq_map]
    refine Places.imp (h.parseRest (.call hcallee hlhs hargs.1) trivial (by omega)) ?_
    exact fun e c' he => ⟨he.1, by omega⟩
  · next mark hdot hparen hmark =>
    split
    · next op hop =>
      split
      · next hlt =>
        refine hdone (hmark ▸ Token.stops_punct hdot hparen fun op' hop' => ?_)
        obtain rfl := Option.some.inj (hop.symm.trans hop')
        exact hlt
      · next hle =>
        refine places_next (hmark ▸ Token.noConfusion) fun c₁ hlt => ?_
        refine (h.parse (by omega)).bind fun rhs c₂ hrhs => places_cover (Sublist.refl _) ?_
        -- a looser operator in hand would have taken this one for its right operand
        rw [hmark] at hends
        have hgroups : lhs.GroupsBefore op := hends.groupsBefore hop
        rw [span_node, span_node]
        refine Places.imp (h.parseRest (.binary (Nat.le_of_not_lt hle) hgroups hlhs hrhs.1.1)
          hrhs.1.2 (by omega)) fun e c' he => ⟨he.1, by omega⟩
    · next hnone =>
      refine hdone (hmark ▸ Token.stops_punct hdot hparen fun op' hop' => ?_)
      cases hnone.symm.trans hop'
  · next hdot hparen hpunct =>
    exact hdone ⟨hdot, hparen, fun heq _ => absurd heq (hpunct _)⟩

/-- The readers of expressions need four steps for each token at most. -/
theorem adding (steps : Nat) : Adding steps := by
  induction steps with
  | zero => constructor <;> intros <;> exact fun hsteps => absurd hsteps (by omega)
  | succ steps ih =>
    refine ⟨?_, ih.operand, ih.rest, ?_, ?_, ?_, ?_⟩
    · intro depth power c size lo ns hsteps
      rw [Expr.parse]
      split
      · next hdp =>
        refine places_of_start fun start => ?_
        refine (ih.parseOperand hdp (by omega)).bind fun e c₁ he => ?_
        obtain ⟨hfits, hends, hlt⟩ := he
        exact (ih.parseRest (hfits power) hends (by omega)).imp fun e c' he => ⟨he.1, by omega⟩
      · exact places_throw ParseError.noConfusion
    · exact fun {depth} => (bracketed_items depth).adds_succ ih.item ih.parseItems
    · refine fun {depth} => (bracketed_fields depth).adds_succ (k := 2) (fun hsteps => ?_)
        ih.parseFields
      refine places_start fun start => places_name.bind fun key c₁ hlt => ?_
      refine places_expectMark fun c₂ hlt' => (ih.item (by omega)).bind fun value c₃ hval => ?_
      exact places_close (by simp) (fun _ => rfl) fun _ => ⟨hval.1, by omega⟩
    · intro depth c size lo ns hsteps
      rw [Expr.parseCall]
      refine places_if (fun _ => ?_) fun _ => ?_
      · exact places_pure (append_nil _) ⟨forall_mem_nil _, le_rfl⟩
      · exact (ih.parseList (by omega)).imp fun _ _ hes => ⟨hes.2.1, hes.2.2.le⟩
    · exact fun {depth} => (commas_list depth).adds_succ ih.item ih.parseList

end Expr

end Provision
