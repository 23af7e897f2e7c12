import Mathlib.Data.List.TakeWhile
import Provision.Proofs.Number.Numerals
import Provision.Token.Lexer

/-!
# Tokens and their spelling

`Token.spelling` writes a token down. A token that can be read (`Token.Readable`) is read back from
its spelling before a blank (`Token.readsBack_spelling`), and so is a list of them from their
spellings with a blank behind each (`Token.map_token_scanBytes`). Every token that the lexer gives
can be read, or is a fault (`Token.lexed_of_mem_scanFrom`).
-/

namespace Provision

open List

variable {b q : Char} {text : String}

/-! ### Bytes of a text -/

namespace Text

theorem toNat_ofNat_of_lt {n : Nat} (h : n < 256) : (Char.ofNat n).toNat = n := by
  have hvalid : n.isValidChar := Or.inl (by omega)
  rw [Char.ofNat, dif_pos hvalid]
  rfl

theorem toNat_ofNat_uint8 {n : Nat} (h : n < 256) :
    (Char.ofNat (UInt8.ofNat n).toNat).toNat = n := by
  rw [UInt8.toNat_ofNat', Nat.mod_eq_of_lt (by omega), toNat_ofNat_of_lt h]

theorem encodeChar_of_lt {c : Char} (h : c.toNat < 128) : encodeChar c = [c] := by
  have hv : c.val.toNat ≤ 127 := Nat.le_of_lt_succ h
  have hc : Char.ofNat (UInt8.ofNat c.val.toNat).toNat = c := by
    rw [UInt8.toNat_ofNat', Nat.mod_eq_of_lt (by omega)]
    exact Char.ofNat_toNat c
  rw [encodeChar, String.utf8EncodeChar, if_pos hv, map_cons, map_nil, hc]

theorem le_of_mem_encodeChar {c : Char} (h : 128 ≤ c.toNat) (hb : b ∈ encodeChar c) :
    128 ≤ b.toNat := by
  have hv : ¬ c.val.toNat ≤ 127 := Nat.not_le.mpr h
  have hbyte : ∀ n, n < 256 → 128 ≤ n → b = Char.ofNat (UInt8.ofNat n).toNat → 128 ≤ b.toNat :=
    fun n hn hle hb => hb ▸ (toNat_ofNat_uint8 hn).symm ▸ hle
  rw [encodeChar, String.utf8EncodeChar, if_neg hv] at hb
  split at hb
  · simp only [map_cons, map_nil, mem_cons, not_mem_nil, or_false] at hb
    rcases hb with hb | hb <;> exact hbyte _ (by omega) (by omega) hb
  · split at hb
    · simp only [map_cons, map_nil, mem_cons, not_mem_nil, or_false] at hb
      rcases hb with hb | hb | hb <;> exact hbyte _ (by omega) (by omega) hb
    · simp only [map_cons, map_nil, mem_cons, not_mem_nil, or_false] at hb
      rcases hb with hb | hb | hb | hb <;> exact hbyte _ (by omega) (by omega) hb

/-- A character is read back from its bytes, one to four of them. -/
theorem decodeFrom_encodeChar (c : Char) (rest : List Char) :
    decodeFrom 0 0 (encodeChar c ++ rest) = c :: decodeFrom 0 0 rest := by
  have hc : Char.ofNat c.val.toNat = c := Char.ofNat_toNat c
  have hsmall : c.val.toNat < 0x110000 := c.valid.elim (fun h => by omega) fun h => h.2
  rw [encodeChar, String.utf8EncodeChar]
  generalize c.val.toNat = v at hc hsmall ⊢
  have htoNat : ∀ n, n < 256 → (Char.ofNat (UInt8.ofNat n).toNat).toNat = n :=
    fun n hn => toNat_ofNat_uint8 hn
  split
  · next hv =>
    rw [map_cons, map_nil, singleton_append, decodeFrom, htoNat v (by omega),
      if_pos (by omega), UInt8.toNat_ofNat', Nat.mod_eq_of_lt (by omega), hc]
  split
  · next hv =>
    simp only [map_cons, map_nil, cons_append, nil_append]
    rw [decodeFrom, htoNat (v / 64 % 32 + 192) (by omega), if_neg (by omega), if_pos (by omega),
      decodeFrom, htoNat (v % 64 + 128) (by omega)]
    rw [show (v / 64 % 32 + 192) % 32 * 64 + (v % 64 + 128) % 64 = v by omega, hc]
  split
  · next hv =>
    simp only [map_cons, map_nil, cons_append, nil_append]
    rw [decodeFrom, htoNat (v / 4096 % 16 + 224) (by omega), if_neg (by omega), if_neg (by omega),
      if_pos (by omega), decodeFrom, decodeFrom, htoNat (v / 64 % 64 + 128) (by omega),
      htoNat (v % 64 + 128) (by omega)]
    rw [show ((v / 4096 % 16 + 224) % 16 * 64 + (v / 64 % 64 + 128) % 64) * 64 +
      (v % 64 + 128) % 64 = v by omega, hc]
  · simp only [map_cons, map_nil, cons_append, nil_append]
    rw [decodeFrom, htoNat (v / 262144 % 8 + 240) (by omega), if_neg (by omega), if_neg (by omega),
      if_neg (by omega), decodeFrom, decodeFrom, decodeFrom,
      htoNat (v / 4096 % 64 + 128) (by omega), htoNat (v / 64 % 64 + 128) (by omega),
      htoNat (v % 64 + 128) (by omega)]
    rw [show (((v / 262144 % 8 + 240) % 8 * 64 + (v / 4096 % 64 + 128) % 64) * 64 +
      (v / 64 % 64 + 128) % 64) * 64 + (v % 64 + 128) % 64 = v by omega, hc]

theorem decode_encode (cs : List Char) : decode (encode cs) = cs := by
  induction cs with
  | nil => rfl
  | cons c cs ih =>
    rw [decode, encode, flatMap_cons, decodeFrom_encodeChar]
    exact congrArg (c :: ·) ih

theorem encode_append (cs ds : List Char) : encode (cs ++ ds) = encode cs ++ encode ds :=
  flatMap_append

theorem encode_of_lt {cs : List Char} (h : ∀ c ∈ cs, c.toNat < 128) : encode cs = cs := by
  induction cs with
  | nil => rfl
  | cons c cs ih =>
    rw [encode, flatMap_cons, encodeChar_of_lt (h c mem_cons_self)]
    exact congrArg (c :: ·) (ih fun d hd => h d (mem_cons_of_mem c hd))

end Text

/-! ### Spelling -/

def Punct.spelling : Punct → List Char
  | .openParen => ['(']
  | .closeParen => [')']
  | .openBrace => ['\x7b']
  | .closeBrace => ['\x7d']
  | .openBracket => ['[']
  | .closeBracket => [']']
  | .comma => [',']
  | .colon => [':']
  | .semicolon => [';']
  | .dot => ['.']
  | .atSign => ['@']
  | .bar => ['|']
  | .assign => ['=']
  | .plus => ['+']
  | .minus => ['-']
  | .star => ['*']
  | .slash => ['/']
  | .equal => ['=', '=']
  | .notEqual => ['!', '=']
  | .less => ['<']
  | .lessEqual => ['<', '=']
  | .greater => ['>']
  | .greaterEqual => ['>', '=']
  | .both => ['&', '&']
  | .either => ['|', '|']
  | .bang => ['!']

namespace Token

/-- A character between quotes: the quote and the backslash stand behind a backslash. -/
def escape (c : Char) : List Char := if c = '"' ∨ c = '\\' then ['\\', c] else [c]

def IsQuote (q : Char) : Prop := q = '"' ∨ q = '\''

def escapeFor (q c : Char) : List Char := if c = q ∨ c = '\\' then ['\\', c] else [c]

def isWord (text : String) : Bool :=
  match text.toList with
  | [] => false
  | c :: cs => isWordStart c && cs.all isWordPart

def isIdentifier (text : String) : Bool := isWord text && (Keyword.ofText? text).isNone

/-- How a token is written. The end of the source and faults have no spelling. -/
def spelling (numerals : Numerals) : Token → List Char
  | .eof | .fault _ => []
  | .punct mark => mark.spelling
  | .ident text => text.toList
  | .keyword word => word.text.toList
  | .int value => Nat.toDigits 10 value
  | .float value => (numerals.write value).1 ++ '.' :: (numerals.write value).2
  | .str text => '"' :: text.toList.flatMap escape ++ ['"']

/-- A token that some source text holds, and no fault. -/
def Readable : Token → Prop
  | .eof | .fault _ => False
  | .punct _ | .keyword _ | .str _ => True
  | .ident text => isIdentifier text
  | .int value => value < intCeiling
  | .float value => ∃ whole fraction, Number.Written value whole fraction

/-! ### Strings -/

theorem IsQuote.plain (h : IsQuote q) : q.toNat < 128 ∧ '\\' ≠ q ∧ unescape q = q := by
  rcases h with rfl | rfl <;> decide

theorem read_of_isQuote (h : IsQuote q) (rest : List Char) : read q rest = readString q rest := by
  rcases h with rfl | rfl <;> cases rest <;> rfl

theorem readString?_append {bytes : List Char} (h : ∀ b ∈ bytes, b ≠ q ∧ b ≠ '\\')
    (rest : List Char) :
    readString? q (bytes ++ rest) =
      (readString? q rest).map fun r => (bytes ++ r.1, r.2 + bytes.length) := by
  induction bytes with
  | nil =>
    rw [nil_append]
    cases readString? q rest <;> rfl
  | cons b bytes ih =>
    obtain ⟨hq, hslash⟩ := h b mem_cons_self
    rw [cons_append, readString?.eq_def]
    dsimp only
    rw [if_neg hq, if_neg hslash, ih fun d hd => h d (mem_cons_of_mem b hd), Option.map_map]
    rfl

theorem readString?_encodeChar {c : Char} (hq : IsQuote q) (hc : c ≠ q) (hslash : c ≠ '\\')
    (rest : List Char) :
    readString? q (Text.encodeChar c ++ rest) =
      (readString? q rest).map fun r =>
        (Text.encodeChar c ++ r.1, r.2 + (Text.encodeChar c).length) := by
  refine readString?_append (fun b hb => ?_) rest
  rcases Nat.lt_or_ge c.toNat 128 with hplain | hwide
  · rw [Text.encodeChar_of_lt hplain, mem_singleton] at hb
    exact hb ▸ ⟨hc, hslash⟩
  · have hb := Text.le_of_mem_encodeChar hwide hb
    constructor
    · rintro rfl
      exact Nat.not_le.mpr hq.plain.1 hb
    · rintro rfl
      exact absurd hb (by decide)

theorem unescape_of_le {c : Char} (h : 128 ≤ c.toNat) : unescape c = c := by
  unfold unescape
  split
  · exact absurd h (by decide)
  · exact absurd h (by decide)
  · rfl

theorem unescape_lt {c : Char} (h : c.toNat < 128) : (unescape c).toNat < 128 := by
  unfold unescape
  split
  · decide
  · decide
  · exact h

/-- Behind a backslash, `n` and `t` are a line end and a tab, others themselves. -/
theorem readString?_backslash (hq : IsQuote q) (c : Char) (rest : List Char) :
    readString? q ('\\' :: (Text.encodeChar c ++ rest)) =
      (readString? q rest).map fun r =>
        (Text.encodeChar (unescape c) ++ r.1, r.2 + (1 + (Text.encodeChar c).length)) := by
  have hstep : ∀ b more, readString? q ('\\' :: b :: more) =
      (readString? q more).map fun r => (unescape b :: r.1, r.2 + 2) := by
    intro b more
    rw [readString?, if_neg hq.plain.2.1, if_pos rfl]
  rcases Nat.lt_or_ge c.toNat 128 with hplain | hwide
  · rw [Text.encodeChar_of_lt hplain, Text.encodeChar_of_lt (unescape_lt hplain)]
    exact hstep c rest
  · have hbytes : ∀ b ∈ Text.encodeChar c, b ≠ q ∧ b ≠ '\\' ∧ unescape b = b := by
      intro b hb
      have hb := Text.le_of_mem_encodeChar hwide hb
      refine ⟨?_, ?_, unescape_of_le hb⟩
      · rintro rfl
        exact Nat.not_le.mpr hq.plain.1 hb
      · rintro rfl
        exact absurd hb (by decide)
    rw [unescape_of_le hwide]
    cases henc : Text.encodeChar c with
    | nil => exact absurd (map_eq_nil_iff.mp henc) (by simp)
    | cons b bs =>
      rw [henc] at hbytes
      obtain ⟨hb, hbs⟩ := forall_mem_cons.mp hbytes
      rw [cons_append, hstep, hb.2.2,
        readString?_append fun d hd => ⟨(hbs d hd).1, (hbs d hd).2.1⟩, Option.map_map]
      congr 1
      funext r
      simp only [Function.comp_apply, cons_append, length_cons]
      congr 1
      omega

theorem readString?_escapeFor (hq : IsQuote q) (c : Char) (rest : List Char) :
    readString? q (Text.encode (escapeFor q c) ++ rest) =
      (readString? q rest).map fun r =>
        (Text.encodeChar c ++ r.1, r.2 + (Text.encode (escapeFor q c)).length) := by
  by_cases hspecial : c = q ∨ c = '\\'
  · have hunescape : unescape c = c := by
      rcases hspecial with rfl | rfl
      · exact hq.plain.2.2
      · rfl
    have henc : Text.encode ['\\', c] = '\\' :: Text.encodeChar c := by
      simp [Text.encode, Text.encodeChar_of_lt (c := '\\') (by decide)]
    rw [escapeFor, if_pos hspecial, henc, cons_append, readString?_backslash hq, hunescape,
      length_cons, Nat.add_comm 1]
  · have henc : Text.encode [c] = Text.encodeChar c := append_nil _
    rw [escapeFor, if_neg hspecial, henc]
    exact readString?_encodeChar hq (fun h => hspecial (Or.inl h))
      (fun h => hspecial (Or.inr h)) rest

theorem readString?_flatMap_escapeFor (hq : IsQuote q) (cs rest : List Char) :
    readString? q (Text.encode (cs.flatMap (escapeFor q)) ++ q :: rest) =
      some (Text.encode cs, (Text.encode (cs.flatMap (escapeFor q))).length + 1) := by
  induction cs with
  | nil =>
    show readString? q (q :: rest) = some ([], 1)
    rw [readString?.eq_def]
    dsimp only
    rw [if_pos rfl]
  | cons c cs ih =>
    rw [flatMap_cons, Text.encode_append, append_assoc, readString?_escapeFor hq, ih,
      Option.map_some, length_append]
    refine congrArg some (Prod.ext rfl ?_)
    omega

def literal (q : Char) (text : String) : List Char :=
  q :: text.toList.flatMap (escapeFor q) ++ [q]

theorem exists_read_literal (hq : IsQuote q) (text : String) :
    ∃ body, Text.encode (literal q text) = q :: body ∧
      ∀ rest, read q (body ++ rest) = (.str text, (Text.encode (literal q text)).length) := by
  have henc : Text.encode (literal q text) =
      q :: (Text.encode (text.toList.flatMap (escapeFor q)) ++ [q]) := by
    have hquote : Text.encode [q] = [q] :=
      (append_nil _).trans (Text.encodeChar_of_lt hq.plain.1)
    rw [literal, cons_append, ← singleton_append, Text.encode_append, Text.encode_append,
      hquote, singleton_append]
  refine ⟨_, henc, fun rest => ?_⟩
  rw [read_of_isQuote hq, append_assoc, singleton_append, readString,
    readString?_flatMap_escapeFor hq, henc]
  dsimp only
  rw [Text.decode_encode, String.ofList_toList, length_cons, length_append]
  rfl

/-! ### Words and digits -/

theorem toNat_lt_of_isWordPart (h : isWordPart b) : b.toNat < 128 := by
  unfold isWordPart Char.isAlphanum Char.isAlpha Char.isUpper Char.isLower Char.isDigit at h
  simp only [Bool.or_eq_true, Bool.and_eq_true, decide_eq_true_eq, beq_iff_eq, ge_iff_le] at h
  rcases h with ((h | h) | h) | rfl
  · exact Nat.lt_of_le_of_lt (UInt32.le_iff_toNat_le.mp h.2) (by decide)
  · exact Nat.lt_of_le_of_lt (UInt32.le_iff_toNat_le.mp h.2) (by decide)
  · exact Nat.lt_of_le_of_lt (UInt32.le_iff_toNat_le.mp h.2) (by decide)
  · decide

theorem isWordPart_of_isDigit (h : b.isDigit) : isWordPart b := by
  simp [isWordPart, Char.isAlphanum, h]

theorem isWordPart_of_isWordStart (h : isWordStart b) : isWordPart b := by
  rw [isWordStart, Bool.or_eq_true] at h
  rw [isWordPart, Char.isAlphanum, Bool.or_eq_true, Bool.or_eq_true]
  exact h.imp_left Or.inl

theorem double?_of_isWordPart (h : isWordPart b) (c : Char) : double? b c = none := by
  unfold double?
  split <;> first | rfl | exact absurd h (by decide)

theorem single?_of_isWordPart (h : isWordPart b) : single? b = none := by
  unfold single?
  split <;> first | rfl | exact absurd h (by decide)

theorem ne_quote_of_isWordPart (h : isWordPart b) : ¬ (b = '"' ∨ b = '\'') := by
  rintro (rfl | rfl) <;> exact absurd h (by decide)

theorem takeWhile_append_blank {p : Char → Bool} (hblank : p ' ' = false) {cs : List Char}
    (h : ∀ c ∈ cs, p c) (rest : List Char) : (cs ++ ' ' :: rest).takeWhile p = cs := by
  rw [takeWhile_append_of_pos h, takeWhile_cons, hblank, if_neg Bool.false_ne_true,
    append_nil]

/-! ### Reading a token back -/

/-- A token is read back from its bytes before a blank. -/
structure ReadsBack (t : Token) (bytes : List Char) : Prop where
  exists_cons : ∃ b rest, bytes = b :: rest ∧ Gap.isBlank b = false ∧
    ∀ more, (b = '/' → rest = []) ∧ read b (rest ++ ' ' :: more) = (t, bytes.length)

theorem read_of_isWordPart (h : isWordPart b) (rest : List Char) :
    read b rest = if b.isDigit then readNumber (b :: rest)
      else if isWordStart b then readWord (b :: rest) else (.fault (.unexpectedByte b), 1) := by
  have hdouble : rest.head?.bind (double? b) = none := by
    cases rest with
    | nil => rfl
    | cons c rest => exact double?_of_isWordPart h c
  rw [read, hdouble]
  rw [single?_of_isWordPart h]
  rw [if_neg (ne_quote_of_isWordPart h)]

theorem isBlank_of_isWordPart (h : isWordPart b) : Gap.isBlank b = false := by
  have hlt := toNat_lt_of_isWordPart h
  rw [← Bool.not_eq_true]
  intro hblank
  simp only [Gap.isBlank, Bool.or_eq_true, Bool.and_eq_true, decide_eq_true_eq, beq_iff_eq]
    at hblank
  rcases hblank with ((hblank | rfl) | rfl) | rfl
  · have hb : b = Char.ofNat b.toNat := (Char.ofNat_toNat b).symm
    rw [hb] at h
    obtain ⟨hlow, hhigh⟩ := hblank
    generalize b.toNat = n at hlow hhigh h
    interval_cases n <;> exact absurd h (by decide)
  · exact absurd h (by decide)
  · exact absurd h (by decide)
  · exact absurd h (by decide)

theorem ne_slash_of_isWordPart (h : isWordPart b) : b ≠ '/' := by
  rintro rfl
  exact absurd h (by decide)

theorem not_isDigit_of_isWordStart (h : isWordStart b) : b.isDigit = false := by
  rw [← Bool.not_eq_true]
  intro hdig
  unfold isWordStart Char.isAlpha Char.isUpper Char.isLower at h
  unfold Char.isDigit at hdig
  simp only [Bool.or_eq_true, Bool.and_eq_true, decide_eq_true_eq, beq_iff_eq, ge_iff_le]
    at h hdig
  rcases h with (h | h) | rfl
  · exact absurd (UInt32.le_trans h.1 hdig.2) (by decide)
  · exact absurd (UInt32.le_trans h.1 hdig.2) (by decide)
  · exact absurd hdig.2 (by decide)

theorem exists_of_isWord (h : isWord text) : ∃ b cs, text.toList = b :: cs ∧
    isWordStart b ∧ ∀ c ∈ cs, isWordPart c := by
  unfold isWord at h
  cases htext : text.toList with
  | nil =>
    rw [htext] at h
    cases h
  | cons b cs =>
    rw [htext] at h
    obtain ⟨hsta, hparts⟩ := (Bool.and_eq_true _ _).mp h
    exact ⟨b, cs, rfl, hsta, all_eq_true.mp hparts⟩

theorem encode_of_isWord (h : isWord text) : Text.encode text.toList = text.toList := by
  obtain ⟨b, cs, htext, hsta, hparts⟩ := exists_of_isWord h
  rw [htext]
  refine Text.encode_of_lt fun c hc => toNat_lt_of_isWordPart ?_
  rcases mem_cons.mp hc with rfl | hc
  · exact isWordPart_of_isWordStart hsta
  · exact hparts c hc

def ofWord (text : String) : Token :=
  match Keyword.ofText? text with
  | some word => .keyword word
  | none => .ident text

theorem readsBack_word (h : isWord text) : ReadsBack (ofWord text) (Text.encode text.toList) := by
  rw [encode_of_isWord h]
  obtain ⟨b, cs, htext, hsta, hparts⟩ := exists_of_isWord h
  obtain rfl : text = String.ofList (b :: cs) := by rw [← htext, String.ofList_toList]
  rw [String.toList_ofList]
  have hb := isWordPart_of_isWordStart hsta
  refine ⟨b, cs, rfl, isBlank_of_isWordPart hb, fun more =>
    ⟨fun hslash => absurd hslash (ne_slash_of_isWordPart hb), ?_⟩⟩
  have htake : (b :: (cs ++ ' ' :: more)).takeWhile isWordPart = b :: cs :=
    takeWhile_append_blank (by decide) (forall_mem_cons.mpr ⟨hb, hparts⟩) more
  rw [read_of_isWordPart hb, not_isDigit_of_isWordStart hsta, if_neg Bool.false_ne_true,
    if_pos hsta, readWord, htake]
  rfl

theorem readsBack_int {n : Nat} (h : n < intCeiling) : ReadsBack (.int n) (Nat.toDigits 10 n) := by
  have hdigs : ∀ d ∈ Nat.toDigits 10 n, d.isDigit :=
    fun d => Nat.isDigit_of_mem_toDigits (by omega) (by omega)
  have hval := Number.digitsValue_toDigits n
  cases hds : Nat.toDigits 10 n with
  | nil => exact absurd hds Nat.toDigits_ne_nil
  | cons b cs =>
    rw [hds] at hdigs hval
    have hb := isWordPart_of_isDigit (hdigs b mem_cons_self)
    refine ⟨b, cs, rfl, isBlank_of_isWordPart hb, fun more =>
      ⟨fun hslash => absurd hslash (ne_slash_of_isWordPart hb), ?_⟩⟩
    have htake : (b :: (cs ++ ' ' :: more)).takeWhile Char.isDigit = b :: cs :=
      takeWhile_append_blank (by decide) hdigs more
    have hdrop : (b :: (cs ++ ' ' :: more)).dropWhile Char.isDigit = ' ' :: more := by
      rw [← cons_append, dropWhile_append_of_pos hdigs]
      rfl
    rw [read_of_isWordPart hb, if_pos (hdigs b mem_cons_self), readNumber, htake, hdrop]
    rw [ofDigits, hval, if_pos h]
    rfl

/-- A number is read up to the end of its digits. -/
theorem readsBack_float {x : Number} {whole fraction : List Char}
    (h : Number.Written x whole fraction) :
    ReadsBack (.float x) (whole ++ '.' :: fraction) := by
  cases whole with
  | nil => exact absurd rfl h.whole_ne_nil
  | cons b cs =>
    have hb := isWordPart_of_isDigit (h.isDigit_whole b mem_cons_self)
    refine ⟨b, cs ++ '.' :: fraction, rfl, isBlank_of_isWordPart hb, fun more =>
      ⟨fun hslash => absurd hslash (ne_slash_of_isWordPart hb), ?_⟩⟩
    -- The digits end at the point, and those after it at the blank.
    have hsplit : b :: (cs ++ '.' :: fraction ++ ' ' :: more) =
        (b :: cs) ++ '.' :: (fraction ++ ' ' :: more) := by simp
    have htake :
        (b :: (cs ++ '.' :: fraction ++ ' ' :: more)).takeWhile Char.isDigit = b :: cs := by
      rw [hsplit, takeWhile_append_of_pos h.isDigit_whole]
      exact append_nil _
    have hdrop : (b :: (cs ++ '.' :: fraction ++ ' ' :: more)).dropWhile Char.isDigit =
        '.' :: (fraction ++ ' ' :: more) := by
      rw [hsplit, dropWhile_append_of_pos h.isDigit_whole]
      rfl
    have hfrac : (fraction ++ ' ' :: more).takeWhile Char.isDigit = fraction :=
      takeWhile_append_blank (by decide) h.isDigit_fraction more
    rw [read_of_isWordPart hb, if_pos (h.isDigit_whole b mem_cons_self), readNumber, htake,
      hdrop]
    have hlen : (b :: cs ++ '.' :: fraction).length =
        (b :: cs).length + 1 + fraction.length := by
      simp only [length_append, length_cons]
      omega
    show (if ((fraction ++ ' ' :: more).takeWhile Char.isDigit).isEmpty then _ else _) = _
    rw [hfrac, if_neg (by simpa using h.fraction_ne_nil), h.ofDigits_eq, hlen]

theorem readsBack_punct (mark : Punct) : ReadsBack (.punct mark) mark.spelling := by
  cases mark <;> exact ⟨_, _, rfl, rfl, fun more => ⟨fun h => by cases h <;> rfl, rfl⟩⟩

theorem readsBack_str (text : String) :
    ReadsBack (.str text) (Text.encode ('"' :: text.toList.flatMap escape ++ ['"'])) := by
  obtain ⟨body, henc, hread⟩ := exists_read_literal (Or.inl rfl) text
  exact ⟨'"', body, henc, rfl, fun more => ⟨fun h => absurd h (by decide), hread _⟩⟩

theorem isWord_text (word : Keyword) : isWord word.text := by
  cases word <;> decide +kernel

theorem ofText?_text (word : Keyword) : Keyword.ofText? word.text = some word := by
  cases word <;> decide +kernel

/-- Every token that is readable is read back from its spelling. -/
theorem readsBack_spelling (numerals : Numerals) {t : Token} (h : t.Readable) :
    ReadsBack t (Text.encode (t.spelling numerals)) := by
  have hdigs : ∀ {ds : List Char}, (∀ d ∈ ds, d.isDigit) → ∀ d ∈ ds, d.toNat < 128 :=
    fun hds d hd => toNat_lt_of_isWordPart (isWordPart_of_isDigit (hds d hd))
  cases t with
  | eof => exact h.elim
  | fault cause => exact h.elim
  | punct mark =>
    have henc : Text.encode mark.spelling = mark.spelling := by
      cases mark <;> decide +kernel
    rw [spelling, henc]
    exact readsBack_punct mark
  | ident text =>
    obtain ⟨hword, hnone⟩ := (Bool.and_eq_true _ _).mp h
    have hback := readsBack_word hword
    rwa [ofWord, Option.isNone_iff_eq_none.mp hnone] at hback
  | keyword word =>
    have hback := readsBack_word (isWord_text word)
    rwa [ofWord, ofText?_text word] at hback
  | int n =>
    have hback := readsBack_int h
    rwa [← Text.encode_of_lt (hdigs fun d =>
      Nat.isDigit_of_mem_toDigits (by omega) (by omega))] at hback
  | float x =>
    obtain ⟨whole, fraction, hx⟩ := h
    have hwr := numerals.written hx
    have hplain : ∀ d ∈ spelling numerals (.float x), d.toNat < 128 := by
      intro d hd
      rcases mem_append.mp hd with hd | hd
      · exact hdigs hwr.isDigit_whole d hd
      · rcases mem_cons.mp hd with rfl | hd
        · decide
        · exact hdigs hwr.isDigit_fraction d hd
    rw [Text.encode_of_lt hplain]
    exact readsBack_float hwr
  | str text => exact readsBack_str text

/-! ### Reading tokens back -/

def textOf (numerals : Numerals) (ts : List Token) : List Char :=
  ts.flatMap fun t => t.spelling numerals ++ [' ']

theorem skip_of_not_isBlank (h : Gap.isBlank b = false) {rest : List Char}
    (hslash : b = '/' → ∃ more, rest = ' ' :: more) (pos : Nat) :
    Gap.skip .blank pos (b :: rest) = (pos, b :: rest) := by
  rw [Gap.skip.eq_def]
  split
  · next heq => cases heq
  · next heq =>
    obtain ⟨rfl, rfl⟩ := cons.inj heq
    obtain ⟨more, hmore⟩ := hslash rfl
    cases hmore
  · next heq =>
    obtain ⟨rfl, rfl⟩ := cons.inj heq
    obtain ⟨more, hmore⟩ := hslash rfl
    cases hmore
  · next heq =>
    obtain ⟨rfl, rfl⟩ := cons.inj heq
    rw [if_neg (by rw [h]; exact Bool.false_ne_true)]
  · next hmode _ => cases hmode
  · next hmode _ => cases hmode
  · next hmode _ => cases hmode

theorem scanFrom_blank (steps pos : Nat) (bytes : List Char) :
    scanFrom (steps + 1) pos (' ' :: bytes) = scanFrom (steps + 1) (pos + 1) bytes := by
  rw [scanFrom, scanFrom]
  rfl

theorem scanFrom_of_readsBack {t : Token} {bytes : List Char} (h : ReadsBack t bytes)
    (steps pos : Nat) (more : List Char) :
    ∃ span, scanFrom (steps + 1) pos (bytes ++ ' ' :: more) =
      ⟨t, span⟩ :: scanFrom steps (pos + bytes.length) (' ' :: more) := by
  obtain ⟨b, rest, rfl, hblank, hread⟩ := h.exists_cons
  obtain ⟨hslash, hread⟩ := hread more
  refine ⟨⟨pos, pos + (b :: rest).length⟩, ?_⟩
  have hskip : Gap.skip .blank pos (b :: (rest ++ ' ' :: more)) =
      (pos, b :: (rest ++ ' ' :: more)) := by
    refine skip_of_not_isBlank hblank (fun hb => ?_) pos
    rw [hslash hb]
    exact ⟨more, rfl⟩
  rw [cons_append, scanFrom, hskip]
  dsimp only
  rw [hread]
  rw [← cons_append, drop_left]

theorem encode_textOf_cons (numerals : Numerals) (t : Token) (ts : List Token) :
    Text.encode (textOf numerals (t :: ts)) =
      Text.encode (t.spelling numerals) ++ ' ' :: Text.encode (textOf numerals ts) := by
  rw [textOf, flatMap_cons, append_assoc, Text.encode_append, singleton_append]
  rfl

theorem length_le_encode_textOf (numerals : Numerals) (ts : List Token) :
    ts.length ≤ (Text.encode (textOf numerals ts)).length := by
  induction ts with
  | nil => exact Nat.zero_le _
  | cons t ts ih =>
    rw [encode_textOf_cons, length_append, length_cons, length_cons]
    omega

theorem map_token_scanFrom (numerals : Numerals) {ts : List Token} (h : ∀ t ∈ ts, t.Readable)
    {steps : Nat} (hsteps : ts.length ≤ steps) (pos : Nat) :
    (scanFrom steps pos (Text.encode (textOf numerals ts))).map Lexeme.token = ts := by
  induction ts generalizing steps pos with
  | nil =>
    cases steps <;> rfl
  | cons t ts ih =>
    obtain ⟨steps, rfl⟩ := Nat.exists_eq_add_one_of_ne_zero
      (Nat.ne_of_gt (Nat.lt_of_lt_of_le (Nat.succ_pos ts.length) hsteps))
    obtain ⟨span, hscan⟩ := scanFrom_of_readsBack
      (readsBack_spelling numerals (h t mem_cons_self)) steps pos
      (Text.encode (textOf numerals ts))
    rw [encode_textOf_cons, hscan, map_cons]
    refine congrArg (t :: ·) ?_
    have hrest := ih (fun u hu => h u (mem_cons_of_mem t hu)) (Nat.le_of_succ_le_succ hsteps)
    cases steps with
    | zero =>
      rw [← hrest 0]
      rfl
    | succ steps => rw [scanFrom_blank, hrest]

theorem map_token_scanBytes (numerals : Numerals) {ts : List Token} (h : ∀ t ∈ ts, t.Readable) :
    (scanBytes (Text.encode (textOf numerals ts))).map Lexeme.token = ts :=
  map_token_scanFrom numerals h (length_le_encode_textOf numerals ts) 0

/-! ### What the lexer gives -/

def Lexed (t : Token) : Prop := t.Readable ∨ ∃ cause, t = .fault cause

theorem lexed_readString (q : Char) (rest : List Char) : (readString q rest).1.Lexed := by
  unfold readString
  split
  · exact Or.inl trivial
  · exact Or.inr ⟨_, rfl⟩

theorem lexed_ofDigits (ds : List Char) : (ofDigits ds).Lexed := by
  unfold ofDigits
  dsimp only
  split
  · next h => exact Or.inl h
  · exact Or.inr ⟨_, rfl⟩

theorem lexed_readNumber (h : b.isDigit) (rest : List Char) : (readNumber (b :: rest)).1.Lexed := by
  unfold readNumber
  dsimp only
  split
  · next more hdrop =>
    split
    · exact lexed_ofDigits _
    · next hfrac =>
      refine Or.inl ⟨_, _, ?_, ?_, fun d => mem_takeWhile_imp, fun d => mem_takeWhile_imp,
        rfl⟩
      · rw [takeWhile_cons, if_pos h]
        exact cons_ne_nil _ _
      · exact fun hnil => hfrac (hnil ▸ rfl)
  · exact lexed_ofDigits _

theorem lexed_readWord (h : isWordStart b) (rest : List Char) : (readWord (b :: rest)).1.Lexed := by
  unfold readWord
  dsimp only
  split
  · exact Or.inl trivial
  · next hnone =>
    refine Or.inl ((Bool.and_eq_true _ _).mpr ⟨?_, Option.isNone_iff_eq_none.mpr hnone⟩)
    rw [isWord, String.toList_ofList, takeWhile_cons, if_pos (isWordPart_of_isWordStart h)]
    exact (Bool.and_eq_true _ _).mpr
      ⟨h, all_eq_true.mpr fun c hc => mem_takeWhile_imp hc⟩

theorem lexed_read (b : Char) (rest : List Char) : (read b rest).1.Lexed := by
  unfold read
  split
  · exact Or.inl trivial
  split
  · exact Or.inl trivial
  split
  · exact lexed_readString _ _
  split
  · next h => exact lexed_readNumber h rest
  split
  · next h => exact lexed_readWord h rest
  · exact Or.inr ⟨_, rfl⟩

theorem lexed_of_mem_scanFrom (steps pos : Nat) (bytes : List Char) {l : Lexeme}
    (h : l ∈ scanFrom steps pos bytes) : l.token.Lexed := by
  induction steps generalizing pos bytes with
  | zero => exact (not_mem_nil h).elim
  | succ steps ih =>
    rw [scanFrom] at h
    split at h
    · exact (not_mem_nil h).elim
    · rcases mem_cons.mp h with rfl | h
      · exact lexed_read _ _
      · exact ih _ _ h

end Token

end Provision
