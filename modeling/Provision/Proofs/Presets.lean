import Provision.Decorator.Validate
import Provision.Proofs.Pattern

/-!
# The presets of `@validate`

What the presets for addresses and for names of hosts accept, in words: `ipv4` and `cidr` in terms
of decimal numbers (`Validate.checkValue_address`), `dns_label` and `rfc1123` in terms of characters
(`Validate.checkValue_host`). The patterns that the presets are read as are written out here, and
evaluation shows that they are the ones (`Validate.body?_ipv4` and so on). The numbers up to a bound
are finitely many, so their pattern is compared with them word by word.
-/

namespace Provision.Decorator.Validate

open List

variable {args : Arguments} {name : String} {q : Pattern} {w : List Char}

/-- The pattern of a preset without flags, between its start and its end. -/
def body? (preset : String) : Option Pattern := do
  (← Pattern.parse? {} (← presets.find? preset)).body?

theorem checkValue_iff (hrx : args.namedString? "regex" = none)
    (hflags : (args.namedString? "flags").getD "" = "")
    (hpreset : args.namedString? "preset" = some name) (hbody : body? name = some q) (s : String) :
    validate.checkValue args (.string s) = .ok () ↔ s.toList ∈ q.language := by
  obtain ⟨text, htext, hrest⟩ := Option.bind_eq_some_iff.mp hbody
  obtain ⟨p, hprs, hp⟩ := Option.bind_eq_some_iff.mp hrest
  have hcompile : compile .standard args = .ok (p.isMatch, s!"preset {name}") := by
    have hletters : Pattern.Engine.standard.compile? (flags "".toList) text = some p.isMatch :=
      congrArg (Option.map Pattern.isMatch) hprs
    unfold compile source
    rw [hrx, hpreset, hflags]
    dsimp only
    rw [htext]
    dsimp only [bind, Except.bind]
    rw [hletters]
    rfl
  rw [← Pattern.isMatch_iff hp]
  show checkValue .standard args (.string s) = .ok () ↔ _
  rw [checkValue, hcompile]
  dsimp only
  split
  · next hmatch => exact iff_of_true rfl hmatch
  · next hmatch =>
    refine iff_of_false (fun h => ?_) hmatch
    cases h

/-! ### Addresses -/

def octetPattern : Pattern :=
  .alt (.seq (.literal ['2', '5']) (.set (.range '0' '5')))
    (.alt (.seq (.literal ['2']) (.seq (.set (.range '0' '4')) (.set (.range '0' '9'))))
      (.alt (.seq (.literal ['1']) (.rep (.set (.range '0' '9')) 2 (some 2) true))
        (.seq (.rep (.set (.range '1' '9')) 0 (some 1) true) (.set (.range '0' '9')))))

def widthPattern : Pattern :=
  .alt (.seq (.literal ['3']) (.set (.range '0' '2')))
    (.seq (.rep (.set (.range '1' '2')) 0 (some 1) true) (.set (.range '0' '9')))

/-- Four numbers with points between them, and something else. -/
def addressPattern (rest : Pattern) : Pattern :=
  .seq (.rep (.group 1 (.seq (.group 2 octetPattern) (.literal ['.']))) 3 (some 3) true)
    (.seq (.group 3 octetPattern) rest)

theorem body?_ipv4 : body? "ipv4" = some (addressPattern (.assert .textEnd)) := by decide +kernel

theorem body?_cidr : body? "cidr" = some (addressPattern
    (.seq (.literal ['/']) (.seq (.group 4 widthPattern) (.assert .textEnd)))) := by
  decide +kernel

theorem mem_numerals {p : Pattern} {bound : Nat} (hp : p.isFinite = true)
    (hwords : (p.words.all fun w => (range bound).any fun n => w = Nat.toDigits 10 n) = true)
    (hall : ((range bound).all fun n => p.words.contains (Nat.toDigits 10 n)) = true) :
    w ∈ p.language ↔ ∃ n < bound, w = (toString n).toList := by
  have hdigs : ∀ n : Nat, (toString n).toList = Nat.toDigits 10 n := fun n => by
    simp [toString, Nat.repr]
  simp only [hdigs, ← Pattern.mem_words hp]
  simp only [all_eq_true, any_eq_true, mem_range, decide_eq_true_iff,
    contains_iff_mem] at hwords hall
  exact ⟨hwords w, fun ⟨n, hn, hw⟩ => hw ▸ hall n hn⟩

theorem mem_octetPattern : w ∈ octetPattern.language ↔ ∃ n < 256, w = (toString n).toList :=
  mem_numerals (by decide) (by decide +kernel) (by decide +kernel)

theorem mem_widthPattern : w ∈ widthPattern.language ↔ ∃ n < 33, w = (toString n).toList :=
  mem_numerals (by decide) (by decide +kernel) (by decide +kernel)

/-- The text is four numbers up to 255 in decimal, without zeros in front, with points between
them. -/
def IsAddress (s : String) : Prop :=
  ∃ a < 256, ∃ b < 256, ∃ c < 256, ∃ d < 256,
    s = ".".intercalate [toString a, toString b, toString c, toString d]

theorem mem_octet_point : w ∈ octetPattern.language * {['.']} ↔
    ∃ n < 256, w = (toString n).toList ++ ['.'] := by
  rw [Language.mem_mul]
  constructor
  · rintro ⟨x, hx, y, rfl, rfl⟩
    obtain ⟨n, hn, rfl⟩ := mem_octetPattern.mp hx
    exact ⟨n, hn, rfl⟩
  · rintro ⟨n, hn, rfl⟩
    exact ⟨_, mem_octetPattern.mpr ⟨n, hn, rfl⟩, _, rfl, rfl⟩

/-- The pattern takes an address, and then what `rest` allows. -/
theorem mem_addressPattern {rest : Pattern} : w ∈ (addressPattern rest).language ↔
    ∃ s, IsAddress s ∧ ∃ v ∈ rest.language, w = s.toList ++ v := by
  have hthree : ∀ {l : Language Char}, repeats l 3 (some 3) = l * (l * (l * 1)) := by
    intro l
    rw [← repeats_zero (l := l), ← repeats_succ, ← repeats_succ, ← repeats_succ]
    rfl
  show w ∈ repeats (octetPattern.language * {['.']}) 3 (some 3) *
    (octetPattern.language * rest.language) ↔ _
  rw [hthree, mul_one]
  simp only [Language.mem_mul (l := octetPattern.language * {['.']}),
    Language.mem_mul (l := octetPattern.language * {['.']} * _), mem_octet_point]
  constructor
  · rintro ⟨_, ⟨_, ⟨a, ha, rfl⟩, _, ⟨_, ⟨b, hb, rfl⟩, _, ⟨c, hc, rfl⟩, rfl⟩, rfl⟩, _, hlast, rfl⟩
    obtain ⟨x, hx, v, hv, rfl⟩ := Language.mem_mul.mp hlast
    obtain ⟨d, hd, rfl⟩ := mem_octetPattern.mp hx
    refine ⟨_, ⟨a, ha, b, hb, c, hc, d, hd, rfl⟩, v, hv, ?_⟩
    simp
  · rintro ⟨_, ⟨a, ha, b, hb, c, hc, d, hd, rfl⟩, v, hv, rfl⟩
    refine ⟨_, ⟨_, ⟨a, ha, rfl⟩, _, ⟨_, ⟨b, hb, rfl⟩, _, ⟨c, hc, rfl⟩, rfl⟩, rfl⟩, _,
      Language.append_mem_mul (mem_octetPattern.mpr ⟨d, hd, rfl⟩) hv, ?_⟩
    simp

/-- **Addresses.** Without flags the preset `ipv4` accepts addresses, and the preset `cidr` accepts
an address with a number up to 32 behind a slash. -/
theorem checkValue_address (hrx : args.namedString? "regex" = none)
    (hflags : (args.namedString? "flags").getD "" = "") (s : String) :
    (args.namedString? "preset" = some "ipv4" →
      (validate.checkValue args (.string s) = .ok () ↔ IsAddress s)) ∧
    (args.namedString? "preset" = some "cidr" →
      (validate.checkValue args (.string s) = .ok () ↔
        ∃ address, IsAddress address ∧ ∃ n ≤ 32, s = address ++ "/" ++ toString n)) := by
  refine ⟨fun hpreset => ?_, fun hpreset => ?_⟩
  · rw [checkValue_iff hrx hflags hpreset body?_ipv4, mem_addressPattern]
    constructor
    · rintro ⟨t, ht, v, rfl, hs⟩
      rw [List.append_nil, String.toList_inj] at hs
      exact hs ▸ ht
    · exact fun hs => ⟨s, hs, [], rfl, (List.append_nil _).symm⟩
  · rw [checkValue_iff hrx hflags hpreset body?_cidr, mem_addressPattern]
    refine exists_congr fun t => and_congr_right fun _ => ?_
    have hwidth : ∀ v, v ∈ (Pattern.seq (.literal ['/'])
        (.seq (.group 4 widthPattern) (.assert .textEnd))).language ↔
          ∃ n ≤ 32, v = '/' :: (toString n).toList := by
      intro v
      show v ∈ {['/']} * (widthPattern.language * 1) ↔ _
      rw [mul_one, Language.mem_mul]
      constructor
      · rintro ⟨_, rfl, x, hx, rfl⟩
        obtain ⟨n, hn, rfl⟩ := mem_widthPattern.mp hx
        exact ⟨n, Nat.le_of_lt_succ hn, rfl⟩
      · rintro ⟨n, hn, rfl⟩
        exact ⟨_, rfl, _, mem_widthPattern.mpr ⟨n, Nat.lt_succ_of_le hn, rfl⟩, rfl⟩
    simp only [hwidth]
    constructor
    · rintro ⟨v, ⟨n, hn, rfl⟩, hs⟩
      refine ⟨n, hn, String.toList_inj.mp (hs.trans ?_)⟩
      simp [String.toList_append]
    · rintro ⟨n, hn, rfl⟩
      refine ⟨_, ⟨n, hn, rfl⟩, ?_⟩
      simp [String.toList_append]

/-- The arguments of a decoration that names a preset and nothing else. -/
def presetOnly (preset : String) : Arguments :=
  .named [⟨⟨"preset", default⟩, .lit (.str preset) default, default⟩]

theorem checkValue_address_private :
    validate.checkValue (presetOnly "ipv4") (.string "10.0.0.255") = .ok () ∧
    validate.checkValue (presetOnly "cidr") (.string "10.0.0.0/8") = .ok () := by
  have haddress : ∀ d < 256, IsAddress (".".intercalate ["10", "0", "0", toString d]) :=
    fun d hd => ⟨10, by decide, 0, by decide, 0, by decide, d, hd, rfl⟩
  refine ⟨((checkValue_address rfl rfl _).1 rfl).mpr (haddress 255 (by decide)), ?_⟩
  exact ((checkValue_address rfl rfl _).2 rfl).mpr ⟨_, haddress 0 (by decide), 8, by decide, rfl⟩

/-! ### Names of hosts -/

def labelEnds : CharSet := ⟨[(48, 57), (97, 122)]⟩

def labelChars : CharSet := ⟨[(45, 45), (48, 57), (97, 122)]⟩

def labelTail (index : Nat) : Pattern :=
  .rep (.group index (.seq (.rep (.set labelChars) 0 (some 61) true) (.set labelEnds))) 0 (some 1)
    true

theorem body?_dnsLabel : body? "dns_label" =
    some (.seq (.set labelEnds) (.seq (labelTail 1) (.assert .textEnd))) := by
  decide +kernel

theorem body?_rfc1123 : body? "rfc1123" = some (.seq (.set labelEnds) (.seq (labelTail 1)
    (.seq (.rep (.group 2 (.seq (.literal ['.']) (.seq (.set labelEnds) (labelTail 3)))) 0 none
      true) (.assert .textEnd)))) := by
  decide +kernel

/-- A character of a label: a small letter, a digit or a hyphen. -/
def IsLabelChar (c : Char) : Prop := 'a' ≤ c ∧ c ≤ 'z' ∨ '0' ≤ c ∧ c ≤ '9' ∨ c = '-'
deriving Decidable

/-- The text is a label of a domain name: it has 1 to 63 characters, and no hyphen stands first or
last. -/
structure IsLabel (s : String) : Prop where
  pos : 1 ≤ s.length
  le : s.length ≤ 63
  chars : ∀ c ∈ s.toList, IsLabelChar c
  head : s.toList.head? ≠ some '-'
  last : s.toList.getLast? ≠ some '-'

theorem mem_labelChars {c : Char} : labelChars.mem c = true ↔ IsLabelChar c := by
  simp only [CharSet.mem, labelChars, Text.Ranges.contains, IsLabelChar, Char.le_def,
    UInt32.le_iff_toNat_le, any_cons, any_nil, Bool.or_false, Bool.or_eq_true,
    Bool.and_eq_true, decide_eq_true_iff, Char.ext_iff, ← UInt32.toNat_inj]
  simp only [Char.toNat, Char.reduceVal, UInt32.reduceToNat]
  omega

theorem mem_labelEnds {c : Char} : labelEnds.mem c = true ↔ IsLabelChar c ∧ c ≠ '-' := by
  rw [← mem_labelChars]
  simp only [CharSet.mem, labelEnds, labelChars, Text.Ranges.contains, any_cons, any_nil,
    Bool.or_false, Bool.or_eq_true, Bool.and_eq_true, decide_eq_true_iff, ne_eq, Char.ext_iff,
    ← UInt32.toNat_inj]
  simp only [Char.toNat, Char.reduceVal, UInt32.reduceToNat]
  omega

def labels : Language Char := Pattern.language (.set labelEnds) * (labelTail 1).language

/-- The pattern of labels says what a label is. -/
theorem mem_labels {s : String} : s.toList ∈ labels ↔ IsLabel s := by
  have htail : (labelTail 1).language =
      1 + repeats (Pattern.language (.set labelChars)) 0 (some 61) *
        Pattern.language (.set labelEnds) := by
    show repeats _ 0 (some 1) = _
    rw [repeats_zero_succ, repeats_zero, mul_one]
    rfl
  rw [labels, htail, Language.mem_mul]
  constructor
  · rintro ⟨_, ⟨c, hc, rfl⟩, y, hy, hs⟩
    obtain ⟨hchar, hhyphen⟩ := mem_labelEnds.mp hc
    rcases hy with rfl | hy
    · refine ⟨?_, ?_, ?_, ?_, ?_⟩ <;> simp [← String.length_toList, ← hs, hchar, hhyphen]
    · obtain ⟨m, hm, _, ⟨d, hd, rfl⟩, rfl⟩ := Language.mem_mul.mp hy
      obtain ⟨-, hlen, hall⟩ := Pattern.mem_repeats_set.mp hm
      have hlen : m.length ≤ 61 := by simpa using hlen
      obtain ⟨hchar', hhyphen'⟩ := mem_labelEnds.mp hd
      refine ⟨?_, ?_, fun e he => ?_, ?_, ?_⟩
      · simp [← String.length_toList, ← hs]
      · simp [← String.length_toList, ← hs]
        omega
      · rw [← hs] at he
        simp only [cons_append, nil_append, mem_cons, mem_append,
          not_mem_nil, or_false] at he
        rcases he with rfl | he | rfl
        · exact hchar
        · exact mem_labelChars.mp (hall e he)
        · exact hchar'
      · simp [← hs, hhyphen]
      · rw [← hs, ← append_assoc, getLast?_concat]
        simpa using hhyphen'
  · rintro ⟨hpos, hle, hchars, hhead, hlast⟩
    rw [← String.length_toList] at hpos hle
    cases hs : s.toList with
    | nil => simp [hs] at hpos
    | cons c rest =>
      rw [hs] at hchars hhead hlast hle
      obtain ⟨hchar, hrest⟩ := forall_mem_cons.mp hchars
      refine ⟨[c], ⟨c, mem_labelEnds.mpr ⟨hchar, by simpa using hhead⟩, rfl⟩, rest, ?_, rfl⟩
      rcases eq_nil_or_concat' rest with rfl | ⟨m, d, rfl⟩
      · exact Or.inl rfl
      · rw [forall_mem_append] at hrest
        have hend : d ≠ '-' := by
          rw [← cons_append, getLast?_concat] at hlast
          simpa using hlast
        have hlen : m.length ≤ 61 := by
          rw [length_cons, length_append, length_singleton] at hle
          omega
        refine Or.inr (Language.append_mem_mul (Pattern.mem_repeats_set.mpr ⟨Nat.zero_le _, ?_, ?_⟩)
          ⟨d, mem_labelEnds.mpr ⟨hrest.2 d (mem_singleton_self d), hend⟩, rfl⟩)
        · simpa using hlen
        · exact fun e he => mem_labelChars.mpr (hrest.1 e he)

theorem intercalate_point (x : List Char) (ys : List (List Char)) :
    ['.'].intercalate (x :: ys) = x ++ (ys.map ('.' :: ·)).flatten := by
  induction ys generalizing x with
  | nil => simp [intercalate]
  | cons y ys ih =>
    have hcons : ['.'].intercalate (x :: y :: ys) = x ++ ['.'] ++ ['.'].intercalate (y :: ys) := by
      simp [intercalate]
    rw [hcons, ih]
    simp

/-- Names are labels with dots between. -/
theorem mem_labels_star {s : String} :
    s.toList ∈ labels * repeats ({['.']} * labels) 0 none ↔
      ∃ names, names ≠ [] ∧ (∀ l ∈ names, IsLabel l) ∧ s = ".".intercalate names := by
  rw [Language.mem_mul]
  constructor
  · rintro ⟨x, hx, _, ⟨ws, -, -, hall, rfl⟩, hs⟩
    have hws : ws = (ws.map tail).map ('.' :: ·) := by
      rw [map_map]
      conv_lhs => rw [← map_id ws]
      refine map_congr_left fun y hy => ?_
      obtain ⟨_, rfl, z, -, rfl⟩ := Language.mem_mul.mp (hall y hy)
      rfl
    refine ⟨(x :: ws.map tail).map String.ofList, by simp, ?_, ?_⟩
    · rw [forall_mem_map, forall_mem_cons, forall_mem_map]
      refine ⟨mem_labels.mp (by rwa [String.toList_ofList]), fun y hy => mem_labels.mp ?_⟩
      obtain ⟨_, rfl, z, hz, rfl⟩ := Language.mem_mul.mp (hall y hy)
      rwa [String.toList_ofList]
    · rw [← String.toList_inj, String.toList_intercalate, map_map, ← hs]
      have hid : String.toList ∘ String.ofList = id := funext fun _ => String.toList_ofList
      rw [hid, map_id]
      show _ = ['.'].intercalate _
      rw [intercalate_point, ← hws]
  · rintro ⟨names, hne, hall, rfl⟩
    cases names with
    | nil => exact absurd rfl hne
    | cons l names =>
      obtain ⟨hl, hnms⟩ := forall_mem_cons.mp hall
      refine ⟨l.toList, mem_labels.mpr hl, ((names.map String.toList).map ('.' :: ·)).flatten,
        ⟨_, Nat.zero_le _, by simp, ?_, rfl⟩, ?_⟩
      · rw [forall_mem_map, forall_mem_map]
        exact fun n hn => Language.append_mem_mul (a := ['.']) rfl (mem_labels.mpr (hnms n hn))
      · rw [String.toList_intercalate, ← intercalate_point]
        rfl

/-- **Names of hosts.** Without flags the preset `dns_label` accepts labels, and the preset
`rfc1123` accepts one or more of them with points between them. -/
theorem checkValue_host (hrx : args.namedString? "regex" = none)
    (hflags : (args.namedString? "flags").getD "" = "") (s : String) :
    (args.namedString? "preset" = some "dns_label" →
      (validate.checkValue args (.string s) = .ok () ↔ IsLabel s)) ∧
    (args.namedString? "preset" = some "rfc1123" →
      (validate.checkValue args (.string s) = .ok () ↔
        ∃ names, names ≠ [] ∧ (∀ l ∈ names, IsLabel l) ∧ s = ".".intercalate names)) := by
  refine ⟨fun hpreset => ?_, fun hpreset => ?_⟩
  · rw [checkValue_iff hrx hflags hpreset body?_dnsLabel, ← mem_labels]
    show _ ∈ _ * (_ * 1) ↔ _
    rw [mul_one]
    rfl
  · rw [checkValue_iff hrx hflags hpreset body?_rfc1123, ← mem_labels_star]
    show _ ∈ _ * (_ * (_ * 1)) ↔ _
    rw [mul_one, ← mul_assoc]
    rfl

theorem checkValue_host_hyphens :
    validate.checkValue (presetOnly "dns_label") (.string "web--1") = .ok () ∧
    validate.checkValue (presetOnly "rfc1123") (.string "web--1.a") = .ok () ∧
    validate.checkValue (presetOnly "dns_label") (.string "web-") ≠ .ok () := by
  have hlb : IsLabel "web--1" ∧ IsLabel "a" :=
    ⟨⟨by decide, by decide, by simp [IsLabelChar], by decide, by decide⟩,
      ⟨by decide, by decide, by simp [IsLabelChar], by decide, by decide⟩⟩
  refine ⟨((checkValue_host rfl rfl _).1 rfl).mpr hlb.1,
    ((checkValue_host rfl rfl _).2 rfl).mpr ⟨["web--1", "a"], by simp, ?_, rfl⟩, fun h => ?_⟩
  · simpa using hlb
  · exact (((checkValue_host rfl rfl _).1 rfl).mp h).last rfl

end Provision.Decorator.Validate
