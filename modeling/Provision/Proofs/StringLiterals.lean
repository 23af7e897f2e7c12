import Provision.Proofs.Tiling

/-!
# String literals

A text between quotes, with a backslash before each quote and backslash, is read as the text
(`Token.exists_read_literal`). The other way round, a byte below 128 in the bytes of a text is a
character of it, so behind an opening quote there are the bytes of a text
(`Text.exists_encode_of_append`), and what a literal collects of them are those of a text too
(`Token.exists_encode_of_readString?`): half a character is never put together with anything else.
-/

namespace Provision

open List

/-- Behind a plain character in the bytes of a text there are the bytes of a text. -/
theorem Text.exists_encode_of_append {cs front rest : List Char} {b : Char} (hb : b.toNat < 128)
    (h : encode cs = front ++ b :: rest) : ∃ ds, rest = encode ds := by
  induction cs generalizing front with
  | nil => exact absurd h (by simp [encode])
  | cons c cs ih =>
    rw [encode, flatMap_cons] at h
    rcases append_eq_append_iff.mp h with ⟨more, rfl, hrest⟩ | ⟨more, hc, hrest⟩
    · exact ih hrest
    · cases more with
      | nil => exact @ih [] hrest.symm
      | cons d more =>
        obtain ⟨rfl, rfl⟩ := cons.inj hrest
        have hmem : b ∈ encodeChar c := hc ▸ by simp
        have hplain : c.toNat < 128 :=
          Nat.lt_of_not_le fun hwide => Nat.not_le.mpr hb (le_of_mem_encodeChar hwide hmem)
        have hlen : front.length + (more.length + 1) = 1 := by
          have hlen := congrArg length hc
          rwa [encodeChar_of_lt hplain, length_append, eq_comm] at hlen
        obtain rfl : more = [] := length_eq_zero_iff.mp (by omega)
        exact ⟨cs, rfl⟩

namespace Token

/-- The bytes that a literal collects from the bytes of a text are those of a text. -/
theorem exists_encode_of_readString? {q : Char} (hq : IsQuote q) (cs : List Char)
    {content : List Char} {n : Nat} (h : readString? q (Text.encode cs) = some (content, n)) :
    ∃ ds, content = Text.encode ds := by
  -- the first character is read as one, and what follows it is read on its own
  have hcons : ∀ {c : Char} {cs content : List Char} {n k : Nat},
      (readString? q (Text.encode cs)).map
        (fun r => (Text.encodeChar c ++ r.1, r.2 + k)) = some (content, n) →
      (∀ {content n}, readString? q (Text.encode cs) = some (content, n) →
        ∃ ds, content = Text.encode ds) →
      ∃ ds, content = Text.encode ds := by
    intro c cs content n k h ih
    obtain ⟨⟨content', n'⟩, hread, heq⟩ := Option.map_eq_some_iff.mp h
    obtain ⟨ds, rfl⟩ := ih hread
    exact ⟨c :: ds, (Prod.mk.inj heq).1.symm⟩
  have hbackslash : Text.encodeChar '\\' = ['\\'] := Text.encodeChar_of_lt (by decide)
  fun_induction readString? q cs generalizing content n with
  | case1 => cases h
  | case2 rest =>
    rw [Text.encode, flatMap_cons, Text.encodeChar_of_lt hq.plain.1, singleton_append,
      readString?.eq_def] at h
    dsimp only at h
    rw [if_pos rfl] at h
    exact ⟨[], (Prod.mk.inj (Option.some.inj h)).1.symm⟩
  | case3 =>
    rw [Text.encode, flatMap_cons, hbackslash] at h
    rw [readString?.eq_def] at h
    simp [hq.plain.2.1] at h
  | case4 c cs _ ih =>
    rw [Text.encode, flatMap_cons, flatMap_cons, hbackslash, singleton_append,
      readString?_backslash hq] at h
    exact hcons h ih
  | case5 c cs hc hslash ih =>
    rw [Text.encode, flatMap_cons, readString?_encodeChar hq hc hslash] at h
    exact hcons h ih

theorem exists_of_read_str {b : Char} {rest : List Char} {text : String}
    (h : (read b rest).1 = .str text) : IsQuote b ∧ ∃ content n,
      readString? b rest = some (content, n) ∧ text = String.ofList (Text.decode content) ∧
      (read b rest).2 = n + 1 := by
  have hdigs : ∀ ds, ofDigits ds ≠ .str text := by
    intro ds hds
    unfold ofDigits at hds
    dsimp only at hds
    split at hds <;> cases hds
  by_cases hquote : IsQuote b
  · refine ⟨hquote, ?_⟩
    rw [read_of_isQuote hquote] at h ⊢
    rw [readString] at h ⊢
    split at h
    · next content n hread =>
      rw [hread]
      exact ⟨content, n, rfl, (Token.str.inj h).symm, rfl⟩
    · cases h
  · exfalso
    unfold read at h
    split at h
    · cases h
    split at h
    · cases h
    rw [if_neg (c := b = '"' ∨ b = '\'') hquote] at h
    split at h
    · unfold readNumber at h
      dsimp only at h
      split at h
      · split at h
        · exact hdigs _ h
        · cases h
      · exact hdigs _ h
    split at h
    · unfold readWord at h
      dsimp only at h
      split at h <;> cases h
    · cases h

end Token

/-- String literals are read back, and bytes are only put together as they stand in a text: a text
between quotes is read as this text in front of whatever follows it, and what the lexer collects for
a string of any source are the bytes of this string. -/
theorem Token.strings_whole {q : Char} (hq : IsQuote q) (text more source : String) :
    (scan (String.ofList (literal q text) ++ more)).head? =
      some ⟨.str text, ⟨0, (String.ofList (literal q text)).utf8ByteSize⟩⟩ ∧
    ∀ l ∈ scan source, ∀ {text}, l.token = .str text → ∃ front q rest,
      Text.encode source.toList = front ++ q :: rest ∧ IsQuote q ∧ l.span.start = front.length ∧
      readString? q rest = some (Text.encode text.toList, l.span.stop - l.span.start - 1) := by
  constructor
  · obtain ⟨body, henc, hread⟩ := exists_read_literal hq text
    have hbytes : Text.encode (String.ofList (literal q text) ++ more).toList =
        q :: (body ++ Text.encode more.toList) := by
      rw [String.toList_append, String.toList_ofList, Text.encode_append, henc,
        List.cons_append]
    have hplace : Gap.isBlank q = false ∧ q ≠ '/' := by rcases hq with rfl | rfl <;> decide
    rw [scan, scanBytes, hbytes, List.length_cons, scanFrom,
      skip_of_not_isBlank hplace.1 fun hslash => absurd hslash hplace.2]
    dsimp only
    rw [hread, List.head?_cons, ← Text.length_encode, String.toList_ofList, Nat.zero_add]
  · intro l hl text htext
    obtain ⟨ps, hps, htoks⟩ := exists_tiled_scanBytes (Text.encode source.toList)
    rw [scan, ← htoks] at hl
    obtain ⟨p, hp, hpl⟩ := List.mem_filterMap.mp hl
    obtain rfl := Piece.eq_token hpl
    obtain ⟨front, b, rest, hbytes, rfl⟩ := hps.exists_read hp
    obtain ⟨hquote, content, n, hread, rfl, hwidth⟩ := exists_of_read_str htext
    obtain ⟨cs, rfl⟩ := Text.exists_encode_of_append hquote.plain.1 hbytes
    obtain ⟨ds, rfl⟩ := exists_encode_of_readString? hquote cs hread
    refine ⟨front, b, Text.encode cs, hbytes, hquote, Nat.zero_add _, ?_⟩
    rw [hread, Text.decode_encode, String.toList_ofList, hwidth]
    congr 2
    dsimp only
    omega

/-- A quote inside a literal, and a backslash before a character of two bytes. -/
theorem Token.strings_whole_escapedAccent :
    (scan (String.ofList (literal '\'' "it's") ++ " x")).head? =
      some ⟨.str "it's", ⟨0, (String.ofList (literal '\'' "it's")).utf8ByteSize⟩⟩ ∧
    ∃ front q rest,
      Text.encode (String.ofList [' ', '"', '\\', 'é', '"']).toList = front ++ q :: rest ∧
      IsQuote q ∧ 1 = front.length ∧
      readString? q rest = some (Text.encode (String.ofList ['é']).toList, 4) := by
  obtain ⟨hread, hwhole⟩ := strings_whole (Or.inr rfl) "it's" " x"
    (String.ofList [' ', '"', '\\', 'é', '"'])
  refine ⟨hread, hwhole ⟨.str (String.ofList ['é']), ⟨1, 6⟩⟩ ?_ rfl⟩
  rw [scan, String.toList_ofList]
  exact List.mem_singleton_self _

end Provision
