import Mathlib.Computability.Language
import Mathlib.Tactic
import Provision.Pattern

/-!
# What patterns match

The lengths of the matches of a pattern are put together by bits. Here they are tied to languages: a
pattern without conditions matches a part of a text exactly if the part is a word of its language,
whatever stands around it (`Pattern.tells_lengths`). A pattern that begins with `^` and ends with
`$` matches exactly the texts that are words of what lies between (`Pattern.isMatch_iff`).

What a word of a language can be is read off the pattern: which characters it has
(`Pattern.within`), which it cannot do without (`Pattern.requires`), how it begins
(`Pattern.opens`), and, if the language is finite, all its words (`Pattern.words`).
-/

namespace Provision

open List

open scoped Computability

variable {i j k m n : Nat} {text u v w : List Char}

/-! ### Lengths -/

namespace Lengths

variable {ms ns : Lengths} {f : Option Char → List Char → Nat}

def Has (ms : Lengths) (i k : Nat) : Prop := (ms[i]?.getD 0).testBit k = true

theorem Has.lt_length (h : ms.Has i k) : i < ms.length := by
  by_contra hi
  rw [Has, getElem?_eq_none (Nat.le_of_not_lt hi)] at h
  simp at h

theorem has_cons_succ : Has (m :: ms) (i + 1) k ↔ Has ms i k := by
  rw [Has, Has, getElem?_cons_succ]

theorem length_ofPlaces (before : Option Char) (text : List Char) :
    (ofPlaces f before text).length = text.length + 1 := by
  induction text generalizing before with
  | nil => rfl
  | cons c text ih => rw [ofPlaces, length_cons, ih, length_cons]

theorem getElem?_ofPlaces (before : Option Char) (u v : List Char) :
    (ofPlaces f before (u ++ v))[u.length]? = some (f (u.getLast?.or before) v) := by
  induction u generalizing before with
  | nil => cases v <;> rfl
  | cons c u ih =>
    rw [cons_append, ofPlaces, length_cons, getElem?_cons_succ, ih,
      getLast?_cons]
    cases u.getLast? <;> rfl

theorem has_ofPlaces (u v : List Char) (k : Nat) :
    Has (ofPlaces f none (u ++ v)) u.length k ↔ (f u.getLast? v).testBit k = true := by
  rw [Has, getElem?_ofPlaces, Option.getD_some, Option.or_none]

/-- Lengths are added bit by bit. -/
theorem testBit_extend (m : Nat) (ns : Lengths) (k : Nat) :
    (extend m ns).testBit k = true ↔ ∃ j ≤ k, m.testBit j = true ∧ ns.Has j (k - j) := by
  induction ns generalizing m k with
  | nil => simp [extend, Has]
  | cons n ns ih =>
    have hstep : extend m (n :: ns) =
        (if m % 2 = 1 then n else 0) ||| (extend (m / 2) ns <<< 1) := by
      rw [extend]
      split
      · next hm =>
        subst hm
        cases ns <;> simp [extend]
      · rfl
    rw [hstep, Nat.testBit_or, Nat.testBit_shiftLeft, Bool.or_eq_true, Bool.and_eq_true,
      decide_eq_true_iff, ih]
    constructor
    · rintro (hn | ⟨hk, j, hj, hm, hns⟩)
      · split at hn
        · next hm => exact ⟨0, Nat.zero_le k, by simpa using hm, hn⟩
        · simp at hn
      · refine ⟨j + 1, by omega, by rwa [Nat.testBit_succ], has_cons_succ.mpr ?_⟩
        rwa [Nat.sub_sub, Nat.add_comm 1] at hns
    · rintro ⟨j, hj, hm, hns⟩
      cases j with
      | zero => exact Or.inl (by rwa [if_pos (by simpa using hm)])
      | succ j =>
        rw [Nat.testBit_succ] at hm
        refine Or.inr ⟨by omega, j, by omega, hm, ?_⟩
        rw [Nat.sub_sub, Nat.add_comm 1]
        exact has_cons_succ.mp hns

theorem length_comp : (comp ms ns).length = min ms.length ns.length := by
  fun_induction comp ms ns with
  | case1 m ms n ns ih => simp [ih]
  | case2 ms ns h =>
    cases ms with
    | nil => simp
    | cons m ms =>
      cases ns with
      | nil => simp
      | cons n ns => exact absurd rfl (h m ms n ns rfl)

theorem has_comp (hlen : ms.length = ns.length) :
    (comp ms ns).Has i k ↔ ∃ j ≤ k, ms.Has i j ∧ ns.Has (i + j) (k - j) := by
  induction ms generalizing ns i with
  | nil => simp [comp, Has]
  | cons m ms ih =>
    cases ns with
    | nil => cases hlen
    | cons n ns =>
      cases i with
      | zero =>
        simp only [Nat.zero_add]
        exact testBit_extend m (n :: ns) k
      | succ i =>
        rw [comp, has_cons_succ, ih (Nat.succ.inj hlen)]
        simp only [has_cons_succ, Nat.add_right_comm i 1]

theorem has_union (hlen : ms.length = ns.length) :
    (union ms ns).Has i k ↔ ms.Has i k ∨ ns.Has i k := by
  unfold Has union
  rw [getElem?_zipWith]
  cases hm : ms[i]? with
  | none =>
    rw [getElem?_eq_none_iff, hlen, ← getElem?_eq_none_iff] at hm
    simp [hm]
  | some m =>
    have hi : i < ns.length := hlen ▸ (List.getElem?_eq_some_iff.mp hm).1
    simp [getElem?_eq_getElem hi]

theorem length_star : (star ms).length = ms.length := by
  induction ms with
  | nil => rfl
  | cons m ms ih => rw [star, length_cons, ih, length_cons]

/-- A repetition is empty, or it begins with a part that is not. -/
theorem has_star : (star ms).Has i k ↔ i < ms.length ∧ (k = 0 ∨
    ∃ j ≤ k, 0 < j ∧ ms.Has i j ∧ (star ms).Has (i + j) (k - j)) := by
  induction ms generalizing i with
  | nil => simp [star, Has]
  | cons m ms ih =>
    cases i with
    | succ i =>
      simp only [star, has_cons_succ, ih, length_cons, Nat.add_lt_add_iff_right,
        Nat.add_right_comm i 1]
    | zero =>
      have hbit : (star (m :: ms)).Has 0 k ↔
          (1 ||| (extend (m / 2) (star ms) <<< 1)).testBit k = true := Iff.rfl
      rw [hbit, Nat.testBit_or, Nat.testBit_shiftLeft, Bool.or_eq_true, Bool.and_eq_true,
        decide_eq_true_iff, testBit_extend, Nat.testBit_one_eq_true_iff_self_eq_zero]
      simp only [length_cons, Nat.succ_pos, true_and, Nat.zero_add]
      refine or_congr_right ⟨?_, ?_⟩
      · rintro ⟨hk, j, hj, hm, hstar⟩
        refine ⟨j + 1, by omega, Nat.succ_pos j, ?_, has_cons_succ.mpr ?_⟩
        · exact (Nat.testBit_succ m j).trans hm
        · rwa [Nat.sub_sub, Nat.add_comm 1] at hstar
      · rintro ⟨j, hj, hpos, hm, hstar⟩
        obtain ⟨j, rfl⟩ : ∃ l, j = l + 1 := ⟨j - 1, by omega⟩
        refine ⟨by omega, j, by omega, (Nat.testBit_succ m j).symm.trans hm, ?_⟩
        rw [Nat.sub_sub, Nat.add_comm 1]
        exact has_cons_succ.mp hstar

theorem iterate_eq (f : Lengths → Lengths) (n : Nat) (ms : Lengths) :
    iterate f n ms = f^[n] ms := by
  induction n generalizing ms with
  | zero => rfl
  | succ n ih =>
    rw [iterate]
    split
    · next hfixed => rw [Function.iterate_fixed hfixed]
    · rw [ih, Function.iterate_succ_apply]

/-! ### Lengths and languages -/

/-- The parts of a text that lengths give are the words of a language. -/
structure Tells (text : List Char) (ms : Lengths) (l : Language Char) : Prop where
  length : ms.length = text.length + 1
  has_iff : ∀ {u w v}, text = u ++ (w ++ v) → (ms.Has u.length w.length ↔ w ∈ l)

variable {l l' : Language Char}

theorem Tells.ofPlaces (h : ∀ before w v, (f before (w ++ v)).testBit w.length = true ↔ w ∈ l) :
    Tells text (ofPlaces f none text) l where
  length := length_ofPlaces _ _
  has_iff htext := by
    rw [htext, has_ofPlaces]
    exact h _ _ _

theorem tells_one : Tells text (Lengths.ofPlaces (fun _ _ => 1) none text) 1 :=
  .ofPlaces fun _ w _ => by
    rw [Nat.testBit_one_eq_true_iff_self_eq_zero, length_eq_zero_iff]
    rfl

theorem Tells.comp (h : Tells text ms l) (h' : Tells text ns l') :
    Tells text (ms.comp ns) (l * l') where
  length := by rw [length_comp, h.length, h'.length, Nat.min_self]
  has_iff {u w v} htext := by
    rw [has_comp (h.length.trans h'.length.symm), Language.mem_mul]
    constructor
    · rintro ⟨j, hj, hms, hns⟩
      have hsplit : text = u ++ (w.take j ++ (w.drop j ++ v)) := by
        rw [htext, ← append_assoc (w.take j), take_append_drop]
      refine ⟨w.take j, ?_, w.drop j, ?_, take_append_drop j w⟩
      · rw [← h.has_iff hsplit, length_take, Nat.min_eq_left hj]
        exact hms
      · rw [← append_assoc] at hsplit
        rw [← h'.has_iff hsplit, length_drop, length_append, length_take,
          Nat.min_eq_left hj]
        exact hns
    · rintro ⟨a, ha, b, hb, rfl⟩
      refine ⟨a.length, by simp, ?_, ?_⟩
      · exact (h.has_iff (htext.trans (by rw [append_assoc]))).mpr ha
      · have hb := (h'.has_iff (u := u ++ a) (v := v) (htext.trans (by simp))).mpr hb
        rw [length_append] at hb ⊢
        rwa [Nat.add_sub_cancel_left]

theorem Tells.union (h : Tells text ms l) (h' : Tells text ns l') :
    Tells text (ms.union ns) (l + l') where
  length := by rw [Lengths.union, length_zipWith, h.length, h'.length, Nat.min_self]
  has_iff htext := by
    rw [has_union (h.length.trans h'.length.symm), h.has_iff htext, h'.has_iff htext]
    rfl

theorem Tells.orEmpty (h : Tells text ms l) : Tells text (ms.map (1 ||| ·)) (1 + l) where
  length := by rw [length_map, h.length]
  has_iff {u w v} htext := by
    have hu : u.length < ms.length := by
      rw [h.length, htext, length_append]
      omega
    rw [Language.mem_add, ← h.has_iff htext, Has, Has, getElem?_map,
      getElem?_eq_getElem hu, Option.map_some, Option.getD_some, Option.getD_some,
      Nat.testBit_or, Bool.or_eq_true, Nat.testBit_one_eq_true_iff_self_eq_zero,
      length_eq_zero_iff]
    rfl

/-- Lengths of repetitions tell of repeated words. -/
theorem Tells.star (h : Tells text ms l) : Tells text ms.star l∗ where
  length := length_star.trans h.length
  has_iff {u w v} htext := by
    rw [Language.kstar_def_nonempty]
    constructor
    · -- the rest behind the first match is shorter
      intro hstar
      induction hlen : w.length using Nat.strong_induction_on generalizing u w with
      | _ k ih =>
        rcases (has_star.mp hstar).2 with hzero | ⟨j, hj, hpos, hms, hrest⟩
        · rw [length_eq_zero_iff.mp hzero]
          exact ⟨[], rfl, by simp⟩
        have hsplit : text = u ++ (w.take j ++ (w.drop j ++ v)) := by
          rw [htext, ← append_assoc (w.take j), take_append_drop]
        have hdrop : (w.drop j).length = w.length - j := length_drop
        rw [← hdrop] at hrest
        have htake : (w.take j).length = j := by simp [hj]
        obtain ⟨ws, hws, hall⟩ := ih (w.length - j) (by omega)
          (hsplit.trans (append_assoc ..).symm) (by rwa [length_append, htake]) hdrop
        refine ⟨w.take j :: ws, ?_, forall_mem_cons.mpr ⟨⟨?_, ?_⟩, hall⟩⟩
        · rw [flatten_cons, ← hws, take_append_drop]
        · rw [← h.has_iff hsplit, htake]
          exact hms
        · rw [← length_pos_iff, htake]
          exact hpos
    · rintro ⟨ws, rfl, hall⟩
      induction ws generalizing u with
      | nil =>
        refine has_star.mpr ⟨?_, Or.inl rfl⟩
        rw [h.length, htext, length_append]
        omega
      | cons y ws ih =>
        obtain ⟨⟨hy, hne⟩, hws⟩ := forall_mem_cons.mp hall
        rw [flatten_cons, append_assoc] at htext
        refine has_star.mpr ⟨?_, Or.inr ⟨y.length, by simp, length_pos_iff.mpr hne, ?_, ?_⟩⟩
        · rw [h.length, htext, length_append]
          omega
        · exact (h.has_iff htext).mpr hy
        · have hrest := @ih (u ++ y) hws (by simp [htext])
          rw [length_append] at hrest
          rwa [flatten_cons, length_append, Nat.add_sub_cancel_left]

end Lengths

/-! ### Repetitions -/

/-- The words that are made of at least so many words of a language, and at most so many if that is
given. -/
def repeats (l : Language Char) (least : Nat) (most : Option Nat) : Language Char :=
  {w | ∃ ws : List (List Char), least ≤ ws.length ∧ (∀ n ∈ most, ws.length ≤ max least n) ∧
    (∀ y ∈ ws, y ∈ l) ∧ w = ws.flatten}

section Repeats

variable {l : Language Char} {least : Nat} {most : Option Nat}

theorem repeats_none : repeats l 0 none = l∗ := by
  ext w
  rw [Language.mem_kstar]
  exact ⟨fun ⟨ws, _, _, hall, hw⟩ => ⟨ws, hw, hall⟩,
    fun ⟨ws, hw, hall⟩ => ⟨ws, Nat.zero_le _, by simp, hall, hw⟩⟩

theorem repeats_zero : repeats l 0 (some 0) = 1 := by
  ext w
  refine ⟨?_, ?_⟩
  · rintro ⟨ws, -, hmost, -, rfl⟩
    obtain rfl : ws = [] := length_eq_zero_iff.mp (by simpa using hmost 0 rfl)
    exact Language.nil_mem_one
  · rintro rfl
    exact ⟨[], by simp, by simp, by simp, rfl⟩

theorem repeats_succ : repeats l (least + 1) (most.map (· + 1)) = l * repeats l least most := by
  ext w
  rw [Language.mem_mul]
  constructor
  · rintro ⟨ws, hleast, hmost, hall, rfl⟩
    cases ws with
    | nil => simp at hleast
    | cons y ws =>
      obtain ⟨hy, hws⟩ := forall_mem_cons.mp hall
      refine ⟨y, hy, ws.flatten, ⟨ws, by simpa using hleast, fun n hn => ?_, hws, rfl⟩, rfl⟩
      have hle := hmost (n + 1) (Option.mem_map_of_mem _ hn)
      rw [length_cons] at hle
      omega
  · rintro ⟨y, hy, _, ⟨ws, hleast, hmost, hws, rfl⟩, rfl⟩
    refine ⟨y :: ws, by simpa using hleast, fun n hn => ?_, forall_mem_cons.mpr ⟨hy, hws⟩, rfl⟩
    obtain ⟨b, hb, rfl⟩ := Option.mem_map.mp hn
    have hle := hmost b hb
    rw [length_cons]
    omega

theorem repeats_zero_succ : repeats l 0 (some (n + 1)) = 1 + l * repeats l 0 (some n) := by
  ext w
  rw [Language.mem_add, ← repeats_succ]
  constructor
  · rintro ⟨ws, -, hmost, hall, rfl⟩
    cases ws with
    | nil => exact Or.inl rfl
    | cons y ws =>
      exact Or.inr ⟨y :: ws, by simp, fun b hb => (hmost b hb).trans (by omega), hall, rfl⟩
  · rintro (rfl | ⟨ws, -, hmost, hall, rfl⟩)
    · exact ⟨[], by simp, by simp, by simp, rfl⟩
    · refine ⟨ws, Nat.zero_le _, fun b hb => ?_, hall, rfl⟩
      have hle : ws.length ≤ max 1 (n + 1) := hmost (n + 1) rfl
      cases hb
      omega

variable {ms ns : Lengths}

theorem Lengths.Tells.atMost (h : Tells text ms l) (n : Nat) :
    Tells text ((fun ns => (ms.comp ns).map (1 ||| ·))^[n] (.ofPlaces (fun _ _ => 1) none text))
      (repeats l 0 (some n)) := by
  induction n with
  | zero => exact repeats_zero ▸ tells_one
  | succ n ih =>
    rw [Function.iterate_succ_apply', repeats_zero_succ]
    exact (h.comp ih).orEmpty

theorem Lengths.Tells.atLeast (h : Tells text ms l) (hns : Tells text ns (repeats l 0 most))
    (least : Nat) : Tells text (ms.comp^[least] ns) (repeats l least (most.map (· + least))) := by
  induction least with
  | zero => simpa using hns
  | succ least ih =>
    have hmost : most.map (· + (least + 1)) = (most.map (· + least)).map (· + 1) := by
      rw [Option.map_map]
      rfl
    rw [Function.iterate_succ_apply', hmost, repeats_succ]
    exact h.comp ih

theorem repeats_max : repeats l least ((some (n - least)).map (· + least)) =
    repeats l least (some n) := by
  have hmax : max least (n - least + least) = max least n := by omega
  ext w
  refine exists_congr fun ws => and_congr_right fun _ => and_congr_left fun _ => ?_
  simp only [Option.map_some, Option.mem_some_iff, forall_eq', hmax]

end Repeats

/-! ### Patterns and languages -/

namespace Pattern

variable {p q : Pattern}

/-- The words that a pattern matches as a whole, if its conditions are left aside. -/
def language : Pattern → Language Char
  | .empty => 1
  | .literal s => {s}
  | .set chars => {w | ∃ c, chars.mem c = true ∧ w = [c]}
  | .assert _ => 1
  | .group _ a => a.language
  | .seq a b => a.language * b.language
  | .alt a b => a.language + b.language
  | .rep a least most _ => repeats a.language least most

def isPlain : Pattern → Bool
  | .assert _ => false
  | .group _ a => a.isPlain
  | .seq a b => a.isPlain && b.isPlain
  | .alt a b => a.isPlain && b.isPlain
  | .rep a _ _ _ => a.isPlain
  | _ => true

theorem tells_literal (s : List Char) : Lengths.Tells text (lengths text (.literal s)) {s} := by
  refine .ofPlaces fun _ w v => ?_
  show _ ↔ w = s
  split
  · next hs =>
    rw [Nat.one_shiftLeft, Nat.testBit_two_pow, decide_eq_true_iff]
    constructor
    · intro hlen
      obtain ⟨rest, hrest⟩ := isPrefixOf_iff_prefix.mp hs
      exact ((append_inj hrest hlen).1).symm
    · rintro rfl
      rfl
  · next hs =>
    simp only [Nat.zero_testBit, Bool.false_eq_true, false_iff]
    rintro rfl
    exact hs (List.isPrefixOf_iff_prefix.mpr (prefix_append w v))

theorem tells_set (chars : CharSet) :
    Lengths.Tells text (lengths text (.set chars)) (language (.set chars)) := by
  refine .ofPlaces fun _ w v => ?_
  have htwo : Nat.testBit 2 w.length = true ↔ w.length = 1 := by
    rw [show 2 = 2 ^ 1 from rfl, Nat.testBit_two_pow, decide_eq_true_iff, eq_comm]
  constructor
  · intro h
    split at h
    · next hhead =>
      obtain ⟨c, rfl⟩ := length_eq_one_iff.mp (htwo.mp h)
      exact ⟨c, hhead, rfl⟩
    · simp at h
  · rintro ⟨c, hc, rfl⟩
    rw [if_pos (by simpa using hc)]
    exact htwo.mpr rfl

theorem tells_lengths (hp : p.isPlain = true) : Lengths.Tells text (p.lengths text) p.language := by
  induction p with
  | empty => exact Lengths.tells_one
  | literal s => exact tells_literal s
  | set chars => exact tells_set chars
  | assert cond => cases hp
  | group _ a ih => exact ih hp
  | seq a b iha ihb =>
    obtain ⟨ha, hb⟩ := Bool.and_eq_true_iff.mp hp
    exact (iha ha).comp (ihb hb)
  | alt a b iha ihb =>
    obtain ⟨ha, hb⟩ := Bool.and_eq_true_iff.mp hp
    exact (iha ha).union (ihb hb)
  | rep a least most _ ih =>
    unfold lengths language
    rw [Lengths.iterate_eq]
    cases most with
    | none => exact (ih hp).atLeast (repeats_none ▸ (ih hp).star) least
    | some n =>
      dsimp only
      rw [Lengths.iterate_eq, ← repeats_max]
      exact (ih hp).atLeast ((ih hp).atMost _) least

/-! ### Whole texts -/

/-- Whether a pattern ends in the condition that the text does, and has no other one. -/
def isClosed : Pattern → Bool
  | .assert cond => cond = .textEnd
  | .seq a b => a.isPlain && b.isClosed
  | _ => false

theorem length_of_isClosed (hq : q.isClosed = true) :
    (q.lengths text).length = text.length + 1 := by
  induction q with
  | assert cond => exact Lengths.length_ofPlaces _ _
  | seq a b _ ih =>
    obtain ⟨ha, hb⟩ := Bool.and_eq_true_iff.mp hq
    rw [lengths, Lengths.length_comp, (tells_lengths ha).length, ih hb, Nat.min_self]
  | _ => cases hq

/-- A closed pattern matches the rest of a text as a whole, or not at all. -/
theorem has_lengths_of_isClosed (hq : q.isClosed = true) (u w : List Char) (k : Nat) :
    (q.lengths (u ++ w)).Has u.length k ↔ k = w.length ∧ w ∈ q.language := by
  induction q generalizing u w k with
  | assert cond =>
    obtain rfl : cond = .textEnd := of_decide_eq_true hq
    rw [lengths, Lengths.has_ofPlaces]
    cases w with
    | nil => simp [Assertion.holds, language, Nat.testBit_one_eq_true_iff_self_eq_zero]
    | cons c w => simp [Assertion.holds, language]
  | seq a b _ ih =>
    obtain ⟨ha, hb⟩ := Bool.and_eq_true_iff.mp hq
    have htells := @tells_lengths (u ++ w) _ ha
    rw [lengths, Lengths.has_comp (htells.length.trans (length_of_isClosed hb).symm), language,
      Language.mem_mul]
    constructor
    · rintro ⟨j, hj, hhas, hrest⟩
      have hle : j ≤ w.length := by
        have hlt := hrest.lt_length
        rw [length_of_isClosed hb, length_append] at hlt
        omega
      have htake : (w.take j).length = j := by simp [hle]
      have hrest := (ih hb (u ++ w.take j) (w.drop j) (k - j)).mp (by
        rwa [append_assoc, take_append_drop, length_append, htake])
      rw [length_drop] at hrest
      refine ⟨by omega, w.take j, ?_, w.drop j, hrest.2, take_append_drop j w⟩
      rw [← htells.has_iff (u := u) (v := w.drop j) (by simp), htake]
      exact hhas
    · rintro ⟨rfl, x, hx, y, hy, rfl⟩
      refine ⟨x.length, by simp, (htells.has_iff (v := y) rfl).mpr hx, ?_⟩
      rw [← append_assoc, ← length_append, ih hb]
      exact ⟨by simp, hy⟩
  | _ => cases hq

/-- What lies between the conditions that a text begins and that it ends. -/
def body? : Pattern → Option Pattern
  | .seq (.assert .textStart) q => if q.isClosed then some q else none
  | _ => none

/-- **Whole texts.** A pattern that holds from the start to the end matches the words of its
language. -/
theorem isMatch_iff (h : p.body? = some q) (s : String) :
    p.isMatch s = true ↔ s.toList ∈ q.language := by
  unfold body? at h
  split at h
  swap
  · cases h
  split at h
  swap
  · cases h
  next q' hclosed =>
  obtain rfl := Option.some.inj h
  have hhas : (Pattern.seq (.assert .textStart) q').isMatch s = true ↔
      ∃ i k, (lengths s.toList (.seq (.assert .textStart) q')).Has i k := by
    rw [isMatch, any_eq_true]
    constructor
    · rintro ⟨n, hn, hne⟩
      obtain ⟨i, hi, rfl⟩ := mem_iff_getElem.mp hn
      obtain ⟨k, hk⟩ := Nat.exists_testBit_of_ne_zero (by simpa using hne)
      exact ⟨i, k, by rwa [Lengths.Has, getElem?_eq_getElem hi]⟩
    · rintro ⟨i, k, hik⟩
      have hlt := hik.lt_length
      refine ⟨_, getElem_mem hlt, bne_iff_ne.mpr fun hzero => ?_⟩
      rw [Lengths.Has, getElem?_eq_getElem hlt, Option.getD_some, hzero] at hik
      simp at hik
  have hcomp : ∀ i k, (lengths s.toList (.seq (.assert .textStart) q')).Has i k ↔ ∃ j ≤ k,
      (lengths s.toList (.assert .textStart)).Has i j ∧ (lengths s.toList q').Has (i + j) (k - j) :=
    fun _ _ => Lengths.has_comp
      ((Lengths.length_ofPlaces ..).trans (length_of_isClosed hclosed).symm)
  simp only [hhas, hcomp]
  constructor
  · rintro ⟨i, k, j, hj, hsta, hrest⟩
    obtain ⟨u, v, hs, rfl⟩ : ∃ u v, s.toList = u ++ v ∧ u.length = i := by
      have hi := hsta.lt_length
      rw [lengths, Lengths.length_ofPlaces] at hi
      exact ⟨s.toList.take i, s.toList.drop i, by simp, by simp; omega⟩
    rw [hs, lengths, Lengths.has_ofPlaces] at hsta
    cases hu : u.getLast? with
    | some c => simp [hu, Assertion.holds] at hsta
    | none =>
      obtain rfl := getLast?_eq_none_iff.mp hu
      rw [nil_append] at hs
      simp only [Assertion.holds, hu, Option.isNone_none, if_true,
        Nat.testBit_one_eq_true_iff_self_eq_zero] at hsta
      subst hsta
      exact ((has_lengths_of_isClosed hclosed [] s.toList k).mp hrest).2
  · intro hmem
    refine ⟨0, s.toList.length, 0, Nat.zero_le _, ?_, ?_⟩
    · exact (Lengths.has_ofPlaces [] s.toList 0).mpr (by simp [Assertion.holds])
    · exact (has_lengths_of_isClosed hclosed [] s.toList _).mpr ⟨rfl, hmem⟩

end Pattern

/-! ### What words can be -/

def CharSet.chars (s : CharSet) : List Char :=
  s.ranges.flatMap fun r => (range' r.1 (r.2 + 1 - r.1)).map Char.ofNat

theorem CharSet.mem_chars_of_mem {s : CharSet} {c : Char} (h : s.mem c = true) : c ∈ s.chars := by
  obtain ⟨r, hr, hc⟩ := any_eq_true.mp h
  simp only [Bool.and_eq_true, decide_eq_true_iff] at hc
  refine mem_flatMap.mpr ⟨r, hr, mem_map.mpr ⟨c.toNat, ?_, Char.ofNat_toNat c⟩⟩
  rw [mem_range'_1]
  omega

theorem CharSet.mem_of_mem_chars {s : CharSet} {c : Char} (hs : s.ranges.all (·.2 < 0xD800) = true)
    (h : c ∈ s.chars) : s.mem c = true := by
  obtain ⟨r, hr, hc⟩ := mem_flatMap.mp h
  obtain ⟨n, hn, rfl⟩ := mem_map.mp hc
  have hlow : r.2 < 0xD800 := of_decide_eq_true (all_eq_true.mp hs r hr)
  rw [mem_range'_1] at hn
  have hcode : (Char.ofNat n).toNat = n := by
    rw [Char.ofNat, dif_pos (Or.inl (by omega) : n.isValidChar)]
    rfl
  refine any_eq_true.mpr ⟨r, hr, ?_⟩
  simp only [hcode, Bool.and_eq_true, decide_eq_true_iff]
  omega

namespace Pattern

variable {p : Pattern} {c : Char} {f : Char → Bool} {g : List Char → Bool}

/-- Whether all characters of all words pass a test. -/
def within (f : Char → Bool) : Pattern → Bool
  | .empty | .assert _ => true
  | .literal s => s.all f
  | .set chars => chars.chars.all f
  | .group _ a | .rep a _ _ _ => a.within f
  | .seq a b | .alt a b => a.within f && b.within f

theorem all_of_within (hp : p.within f = true) (hw : w ∈ p.language) : ∀ c ∈ w, f c = true := by
  induction p generalizing w with
  | empty | assert => exact hw ▸ fun _ hc => absurd hc not_mem_nil
  | literal s => exact hw ▸ all_eq_true.mp hp
  | set chars =>
    obtain ⟨c, hc, rfl⟩ := hw
    exact forall_mem_singleton.mpr (all_eq_true.mp hp c (CharSet.mem_chars_of_mem hc))
  | group _ a ih => exact ih hp hw
  | seq a b iha ihb =>
    obtain ⟨ha, hb⟩ := Bool.and_eq_true_iff.mp hp
    obtain ⟨x, hx, y, hy, rfl⟩ := Language.mem_mul.mp hw
    exact fun c hc => (mem_append.mp hc).elim (iha ha hx c) (ihb hb hy c)
  | alt a b iha ihb =>
    obtain ⟨ha, hb⟩ := Bool.and_eq_true_iff.mp hp
    exact hw.elim (iha ha) (ihb hb)
  | rep a _ _ _ ih =>
    obtain ⟨ws, -, -, hall, rfl⟩ := hw
    intro c hc
    obtain ⟨y, hy, hc⟩ := mem_flatten.mp hc
    exact ih hp (hall y hy) c hc

def requires (c : Char) : Pattern → Bool
  | .literal s => s.contains c
  | .group _ a => a.requires c
  | .seq a b => a.requires c || b.requires c
  | .alt a b => a.requires c && b.requires c
  | _ => false

theorem mem_of_requires (hp : p.requires c = true) (hw : w ∈ p.language) : c ∈ w := by
  induction p generalizing w with
  | literal s => exact hw ▸ contains_iff_mem.mp hp
  | group _ a ih => exact ih hp hw
  | seq a b iha ihb =>
    obtain ⟨x, hx, y, hy, rfl⟩ := Language.mem_mul.mp hw
    exact mem_append.mpr ((Bool.or_eq_true_iff.mp hp).imp (iha · hx) (ihb · hy))
  | alt a b iha ihb =>
    obtain ⟨ha, hb⟩ := Bool.and_eq_true_iff.mp hp
    exact hw.elim (iha ha) (ihb hb)
  | _ => cases hp

/-- Whether every word begins with a text that passes a test. -/
def opens (g : List Char → Bool) : Pattern → Bool
  | .literal s => g s
  | .group _ a | .seq a _ => a.opens g
  | .alt a b => a.opens g && b.opens g
  | _ => false

theorem exists_of_opens (hp : p.opens g = true) (hw : w ∈ p.language) :
    ∃ u, g u = true ∧ u <+: w := by
  induction p generalizing w with
  | literal s => exact ⟨s, hp, hw ▸ prefix_refl s⟩
  | group _ a ih => exact ih hp hw
  | seq a b iha _ =>
    obtain ⟨x, hx, y, -, rfl⟩ := Language.mem_mul.mp hw
    obtain ⟨u, hu, hux⟩ := iha hp hx
    exact ⟨u, hu, hux.trans (prefix_append x y)⟩
  | alt a b iha ihb =>
    obtain ⟨ha, hb⟩ := Bool.and_eq_true_iff.mp hp
    exact hw.elim (iha ha) (ihb hb)
  | _ => cases hp

/-- The texts that are made of so many of some texts. -/
def rows (ws : List (List Char)) : Nat → List (List Char)
  | 0 => [[]]
  | n + 1 => ws.flatMap fun u => (rows ws n).map (u ++ ·)

theorem mem_rows {ws : List (List Char)} :
    w ∈ rows ws n ↔
      ∃ ys : List (List Char), ys.length = n ∧ (∀ y ∈ ys, y ∈ ws) ∧ w = ys.flatten := by
  induction n generalizing w with
  | zero => simp [rows, length_eq_zero_iff]
  | succ n ih =>
    simp only [rows, mem_flatMap, mem_map, ih]
    constructor
    · rintro ⟨u, hu, _, ⟨ys, rfl, hys, rfl⟩, rfl⟩
      exact ⟨u :: ys, rfl, forall_mem_cons.mpr ⟨hu, hys⟩, rfl⟩
    · rintro ⟨ys, hlen, hys, rfl⟩
      obtain ⟨u, ys, rfl⟩ := exists_cons_of_length_eq_add_one hlen
      obtain ⟨hu, hys⟩ := forall_mem_cons.mp hys
      exact ⟨u, hu, _, ⟨ys, Nat.succ.inj hlen, hys, rfl⟩, rfl⟩

def words : Pattern → List (List Char)
  | .empty | .assert _ => [[]]
  | .literal s => [s]
  | .set chars => chars.chars.map ([·])
  | .group _ a => a.words
  | .seq a b => a.words.flatMap fun u => b.words.map (u ++ ·)
  | .alt a b => a.words ++ b.words
  | .rep a least most _ => (range' least (most.getD 0 + 1 - least)).flatMap (rows a.words)

/-- Whether there are finitely many words, all of characters with small code points. -/
def isFinite : Pattern → Bool
  | .empty | .assert _ | .literal _ => true
  | .set chars => chars.ranges.all (·.2 < 0xD800)
  | .group _ a => a.isFinite
  | .seq a b | .alt a b => a.isFinite && b.isFinite
  | .rep a least most _ => a.isFinite && most.any (least ≤ ·)

/-- The words of a finite pattern are listed without a gap. -/
theorem mem_words (hp : p.isFinite = true) : w ∈ p.words ↔ w ∈ p.language := by
  induction p generalizing w with
  | empty | assert | literal => exact mem_singleton
  | set chars =>
    rw [words, mem_map]
    exact exists_congr fun c => and_congr
      ⟨CharSet.mem_of_mem_chars hp, CharSet.mem_chars_of_mem⟩ eq_comm
  | group _ a ih => exact ih hp
  | seq a b iha ihb =>
    obtain ⟨ha, hb⟩ := Bool.and_eq_true_iff.mp hp
    simp only [words, mem_flatMap, mem_map, iha ha, ihb hb]
    exact Language.mem_mul.symm
  | alt a b iha ihb =>
    obtain ⟨ha, hb⟩ := Bool.and_eq_true_iff.mp hp
    rw [words, mem_append, iha ha, ihb hb]
    rfl
  | rep a least most _ ih =>
    obtain ⟨ha, hmost⟩ := Bool.and_eq_true_iff.mp hp
    obtain ⟨n, rfl, hn⟩ := (Option.any_eq_true ..).mp hmost
    have hn : least ≤ n := of_decide_eq_true hn
    simp only [words, mem_flatMap, mem_rows, ih ha, mem_range'_1, Option.getD_some]
    constructor
    · rintro ⟨k, ⟨hleast, hk⟩, ys, rfl, hys, rfl⟩
      refine ⟨ys, hleast, fun m hm => ?_, hys, rfl⟩
      cases hm
      omega
    · rintro ⟨ys, hleast, hys, hall, rfl⟩
      have hle := hys n rfl
      exact ⟨ys.length, ⟨hleast, by omega⟩, ys, rfl, hall, rfl⟩

theorem mem_repeats_set {chars : CharSet} {least : Nat} {most : Option Nat} :
    w ∈ repeats (language (.set chars)) least most ↔
      least ≤ w.length ∧ (∀ n ∈ most, w.length ≤ max least n) ∧ ∀ c ∈ w, chars.mem c = true := by
  constructor
  · rintro ⟨ws, hleast, hmost, hall, rfl⟩
    suffices h : ws.flatten.length = ws.length ∧ ∀ c ∈ ws.flatten, chars.mem c = true from
      ⟨h.1 ▸ hleast, h.1 ▸ hmost, h.2⟩
    clear hleast hmost
    induction ws with
    | nil => simp
    | cons y ws ih =>
      obtain ⟨⟨c, hc, rfl⟩, hws⟩ := forall_mem_cons.mp hall
      obtain ⟨hlen, hmem⟩ := ih hws
      exact ⟨congrArg (· + 1) hlen, forall_mem_cons.mpr ⟨hc, hmem⟩⟩
  · rintro ⟨hleast, hmost, hall⟩
    refine ⟨w.map ([·]), by simpa using hleast, by simpa using hmost, fun y hy => ?_,
      (flatMap_singleton' w).symm⟩
    obtain ⟨c, hc, rfl⟩ := mem_map.mp hy
    exact ⟨c, hall c hc, rfl⟩

end Pattern

end Provision
