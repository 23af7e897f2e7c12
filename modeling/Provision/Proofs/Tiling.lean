import Provision.Cursor
import Provision.Proofs.Token

/-!
# The pieces of a source

A source is cut into tokens and the parts of the gaps between them: white bytes, comments up to the
end of their line, and block comments up to their first end (`Gap.Part`). The pieces of a source lie
one behind the other and leave no byte out (`Tiled`). The lexer gives the tokens among them
(`Token.exists_tiled`), so tokens stand inside the source, one behind the other, and every byte lies
in one piece (`Token.tiled_scan`).
-/

namespace Provision

open List

/-! ### Gaps -/

namespace Gap

/-- A part of a gap, before the bytes `rest`. -/
inductive Part : (part rest : List Char) → Prop where
  | blank {b : Char} {rest : List Char} (h : isBlank b) : Part [b] rest
  /-- A comment that ends before its newline, or with the source. -/
  | line {body rest : List Char} (hbody : '\n' ∉ body) (hrest : ∀ b ∈ rest.head?, b = '\n') :
      Part ('/' :: '/' :: body) rest
  /-- A comment up to the first end behind its opening. -/
  | block {body rest : List Char} (h : ¬ ['*', '/'] <:+: body ++ ['*']) :
      Part ('/' :: '*' :: body ++ ['*', '/']) rest
  /-- A comment without an end takes the rest of the source. -/
  | unclosed {body : List Char} (h : ¬ ['*', '/'] <:+: body) : Part ('/' :: '*' :: body) []

theorem Part.ne_nil {part rest : List Char} (h : Part part rest) : part ≠ [] := by
  cases h <;> exact cons_ne_nil _ _

structure Absent (bytes : List Char) : Prop where
  blank : ∀ b ∈ bytes.head?, isBlank b = false
  line : ¬ ['/', '/'] <+: bytes
  block : ¬ ['/', '*'] <+: bytes

theorem skip_line (pos : Nat) (bytes : List Char) : ∃ body rest, bytes = body ++ rest ∧
    '\n' ∉ body ∧ (∀ b ∈ rest.head?, b = '\n') ∧
    skip .line pos bytes = skip .blank (pos + body.length) rest := by
  induction bytes generalizing pos with
  | nil => exact ⟨[], [], rfl, not_mem_nil, by simp, rfl⟩
  | cons b bytes ih =>
    rw [skip]
    by_cases hb : b = '\n'
    · subst hb
      refine ⟨[], '\n' :: bytes, rfl, not_mem_nil, fun b hb => ?_, rfl⟩
      exact (Option.mem_some_iff.mp hb).symm
    · obtain ⟨body, rest, rfl, hbody, hrest, hskip⟩ := ih (pos + 1)
      refine ⟨b :: body, rest, rfl, ?_, hrest, ?_⟩
      · exact not_mem_cons_of_ne_of_not_mem (Ne.symm hb) hbody
      · rw [if_neg hb, hskip, length_cons, Nat.add_assoc, Nat.add_comm 1]

/-- A comment reaches up to the first mark that ends it, or to the end of the text. -/
theorem skip_block (pos : Nat) (bytes : List Char) :
    (∃ body rest, bytes = body ++ '*' :: '/' :: rest ∧ ¬ ['*', '/'] <:+: body ++ ['*'] ∧
      skip .block pos bytes = skip .blank (pos + body.length + 2) rest) ∨
    ¬ ['*', '/'] <:+: bytes ∧ skip .block pos bytes = (pos + bytes.length, []) := by
  induction bytes generalizing pos with
  | nil => exact Or.inr ⟨by simp, rfl⟩
  | cons b bytes ih =>
    by_cases hclose : ['*', '/'] <+: b :: bytes
    · obtain ⟨rest, heq⟩ := hclose
      refine Or.inl ⟨[], rest, heq.symm, by decide, ?_⟩
      rw [← heq]
      exact skip.eq_6 pos rest
    · rw [skip.eq_7 _ _ _ fun rest hb hbytes => hclose ⟨rest, by rw [hb, hbytes]; rfl⟩]
      rcases ih (pos + 1) with ⟨body, rest, rfl, hbody, hskip⟩ | ⟨hbytes, hskip⟩
      · refine Or.inl ⟨b :: body, rest, rfl, fun hinfix => ?_, ?_⟩
        · rcases infix_cons_iff.mp hinfix with hfront | hinfix
          · exact hclose (hfront.trans ⟨'/' :: rest, by simp⟩)
          · exact hbody hinfix
        · rw [hskip, length_cons, Nat.add_right_comm pos 1, Nat.add_assoc pos]
      · refine Or.inr ⟨fun hinfix => ?_, ?_⟩
        · exact (infix_cons_iff.mp hinfix).elim hclose hbytes
        · rw [hskip, length_cons, Nat.add_assoc, Nat.add_comm 1]

/-- One gap is skipped after the other. -/
theorem skip_blank (pos : Nat) (bytes : List Char) :
    Absent bytes ∧ skip .blank pos bytes = (pos, bytes) ∨
    ∃ part rest, bytes = part ++ rest ∧ Part part rest ∧
      skip .blank pos bytes = skip .blank (pos + part.length) rest := by
  by_cases hline : ['/', '/'] <+: bytes
  · obtain ⟨bytes, rfl⟩ := hline
    obtain ⟨body, rest, rfl, hbody, hrest, hskip⟩ := skip_line (pos + 2) bytes
    refine Or.inr ⟨'/' :: '/' :: body, rest, rfl, .line hbody hrest, ?_⟩
    exact hskip.trans (by rw [Nat.add_right_comm]; rfl)
  by_cases hblock : ['/', '*'] <+: bytes
  · obtain ⟨bytes, rfl⟩ := hblock
    rcases skip_block (pos + 2) bytes with ⟨body, rest, rfl, hbody, hskip⟩ | ⟨hbody, hskip⟩
    · refine Or.inr ⟨'/' :: '*' :: body ++ ['*', '/'], rest, by simp, .block hbody, ?_⟩
      refine hskip.trans (congrArg (skip .blank · rest) ?_)
      simp only [length_append, length_cons, length_nil]
      omega
    · refine Or.inr ⟨'/' :: '*' :: bytes, [], (append_nil _).symm, .unclosed hbody, ?_⟩
      exact hskip.trans (by rw [Nat.add_right_comm]; rfl)
  cases bytes with
  | nil => exact Or.inl ⟨⟨by simp, hline, hblock⟩, rfl⟩
  | cons b rest =>
    -- No comment starts here, so only a blank can be skipped.
    rw [skip.eq_4 _ _ _ (fun more hb hrest => hline ⟨more, by rw [hb, hrest]; rfl⟩)
      fun more hb hrest => hblock ⟨more, by rw [hb, hrest]; rfl⟩]
    by_cases hb : isBlank b
    · exact Or.inr ⟨[b], rest, rfl, .blank hb, if_pos hb⟩
    · refine Or.inl ⟨⟨fun c hc => ?_, hline, hblock⟩, if_neg hb⟩
      rw [← Option.mem_some_iff.mp hc]
      exact Bool.eq_false_iff.mpr hb

end Gap

/-! ### The widths of tokens -/

namespace Token

theorem pos_of_readString (q : Char) (rest : List Char) : 0 < (readString q rest).2 := by
  unfold readString
  split <;> exact Nat.succ_pos _

theorem pos_of_readNumber {b : Char} (hb : b.isDigit) (rest : List Char) :
    0 < (readNumber (b :: rest)).2 := by
  have hwhole : 0 < ((b :: rest).takeWhile Char.isDigit).length := by
    rw [takeWhile_cons_of_pos hb]
    exact Nat.succ_pos _
  unfold readNumber
  dsimp only
  split
  · split
    · exact hwhole
    · exact Nat.lt_of_lt_of_le hwhole (by omega)
  · exact hwhole

theorem pos_of_read (b : Char) (rest : List Char) : 0 < (read b rest).2 := by
  unfold read
  split
  · exact Nat.succ_pos _
  split
  · exact Nat.one_pos
  split
  · exact pos_of_readString b rest
  split
  · next hdig => exact pos_of_readNumber hdig rest
  split
  · next hsta =>
    have hpart : isWordPart b = true := by
      unfold isWordStart at hsta
      unfold isWordPart Char.isAlphanum
      rw [Bool.or_eq_true] at hsta ⊢
      exact hsta.imp_left fun halpha => Bool.or_eq_true_iff.mpr (Or.inl halpha)
    show 0 < ((b :: rest).takeWhile isWordPart).length
    rw [takeWhile_cons_of_pos hpart]
    exact Nat.succ_pos _
  · exact Nat.one_pos

theorem le_of_readString? {q : Char} {rest content : List Char} {n : Nat}
    (h : readString? q rest = some (content, n)) : n ≤ rest.length := by
  fun_induction readString? q rest generalizing content n with
  | case1 => cases h
  | case2 rest =>
    cases h
    exact Nat.succ_pos _
  | case3 => cases h
  | case4 e tail _ ih =>
    obtain ⟨⟨content', k⟩, hread, heq⟩ := Option.map_eq_some_iff.mp h
    obtain ⟨-, rfl⟩ := Prod.mk.inj heq
    have hle := ih hread
    simp only [length_cons]
    omega
  | case5 b rest _ _ ih =>
    obtain ⟨⟨content', k⟩, hread, heq⟩ := Option.map_eq_some_iff.mp h
    obtain ⟨-, rfl⟩ := Prod.mk.inj heq
    have hle := ih hread
    simp only [length_cons]
    omega

theorem width_readNumber (cs : List Char) : (readNumber cs).2 ≤ cs.length := by
  have hsplit : (cs.takeWhile Char.isDigit).length + (cs.dropWhile Char.isDigit).length =
      cs.length := by
    rw [← length_append, takeWhile_append_dropWhile]
  unfold readNumber
  dsimp only
  split
  · next rest hdrop =>
    have hfrac := (List.takeWhile_prefix (l := rest) Char.isDigit).length_le
    rw [hdrop, length_cons] at hsplit
    split <;> (dsimp only; omega)
  · dsimp only
    omega

theorem width_read (b : Char) (rest : List Char) : (read b rest).2 ≤ rest.length + 1 := by
  unfold read
  split
  · next mark hmark =>
    obtain ⟨c, hc, -⟩ := Option.bind_eq_some_iff.mp hmark
    obtain ⟨tail, rfl⟩ := head?_eq_some_iff.mp hc
    simp
  split
  · exact Nat.succ_le_succ (Nat.zero_le _)
  split
  · unfold readString
    split
    · next hread => exact Nat.succ_le_succ (le_of_readString? hread)
    · exact le_rfl
  split
  · exact width_readNumber (b :: rest)
  split
  · exact (List.takeWhile_prefix (l := b :: rest) isWordPart).length_le
  · exact Nat.succ_le_succ (Nat.zero_le _)

end Token

/-! ### Pieces -/

/-- A piece of a source: a token, or a part of a gap. -/
inductive Piece where
  | token (l : Lexeme)
  | gap (span : Span)

namespace Piece

def span : Piece → Span
  | token l => l.span
  | gap span => span

def lexeme? : Piece → Option Lexeme
  | token l => some l
  | gap _ => none

theorem eq_token {p : Piece} {l : Lexeme} (h : p.lexeme? = some l) : p = token l := by
  cases p with
  | token m => exact congrArg token (Option.some.inj h)
  | gap span => cases h

/-- A piece consists of the bytes `part` before `rest`: they are a part of a gap, or what is read as
the token where no gap starts. -/
def Covers (part rest : List Char) : Piece → Prop
  | gap _ => Gap.Part part rest
  | token l => Gap.Absent (part ++ rest) ∧
      ∃ b more, part ++ rest = b :: more ∧ Token.read b more = (l.token, part.length)

end Piece

/-- From the offset `pos` on the bytes are the pieces, one behind the other and none of them
empty. -/
inductive Tiled : (pos : Nat) → (bytes : List Char) → List Piece → Prop where
  | nil {pos : Nat} : Tiled pos [] []
  | cons {pos : Nat} {part rest : List Char} {p : Piece} {ps : List Piece} (hne : part ≠ [])
      (hspan : p.span = ⟨pos, pos + part.length⟩) (hp : p.Covers part rest)
      (hps : Tiled (pos + part.length) rest ps) : Tiled pos (part ++ rest) (p :: ps)

namespace Tiled

variable {pos : Nat} {bytes : List Char} {ps : List Piece}

theorem bounds (h : Tiled pos bytes ps) : ∀ p ∈ ps,
    pos ≤ p.span.start ∧ p.span.start < p.span.stop ∧ p.span.stop ≤ pos + bytes.length := by
  induction h with
  | nil => exact forall_mem_nil _
  | cons hne hspan _ _ ih =>
    have hpos := length_pos_iff.mpr hne
    rw [length_append]
    refine forall_mem_cons.mpr ⟨?_, fun q hq => ?_⟩
    · rw [hspan]
      dsimp only
      omega
    · have hrest := ih q hq
      omega

theorem pairwise (h : Tiled pos bytes ps) :
    ps.Pairwise fun p q => p.span.stop ≤ q.span.start := by
  induction h with
  | nil => exact .nil
  | cons _ hspan _ hps ih =>
    refine .cons (fun q hq => ?_) ih
    rw [hspan]
    exact (hps.bounds q hq).1

theorem existsUnique (h : Tiled pos bytes ps) {i : Nat} (hpos : pos ≤ i)
    (hi : i < pos + bytes.length) : ∃! p, p ∈ ps ∧ p.span.start ≤ i ∧ i < p.span.stop := by
  induction h with
  | nil => exact absurd hi (by simpa using hpos)
  | @cons pos part rest p ps _ hspan _ hps ih =>
    rw [length_append] at hi
    rcases Nat.lt_or_ge i (pos + part.length) with hlt | hge
    · refine ⟨p, ⟨mem_cons_self, by rw [hspan]; exact ⟨hpos, hlt⟩⟩, ?_⟩
      rintro q ⟨hq, hsta, -⟩
      rcases mem_cons.mp hq with rfl | hq
      · rfl
      · have hbd := (hps.bounds q hq).1
        omega
    · obtain ⟨q, ⟨hq, hin⟩, hunique⟩ := ih hge (by omega)
      refine ⟨q, ⟨mem_cons_of_mem p hq, hin⟩, ?_⟩
      rintro r ⟨hr, hsta, hstop⟩
      rcases mem_cons.mp hr with rfl | hr
      · rw [hspan] at hstop
        exact absurd hstop (Nat.not_lt.mpr hge)
      · exact hunique r ⟨hr, hsta, hstop⟩

theorem exists_read (h : Tiled pos bytes ps) {l : Lexeme} (hl : .token l ∈ ps) :
    ∃ front b rest, bytes = front ++ b :: rest ∧
      l = ⟨(Token.read b rest).1,
        ⟨pos + front.length, pos + front.length + (Token.read b rest).2⟩⟩ := by
  induction h with
  | nil => cases hl
  | @cons pos part rest p ps _ hspan hp _ ih =>
    rcases mem_cons.mp hl with rfl | hl
    · obtain ⟨-, b, more, heq, hread⟩ := hp
      obtain ⟨token, span⟩ := l
      refine ⟨[], b, more, heq, ?_⟩
      rw [hread]
      exact congrArg (Lexeme.mk token) hspan
    · obtain ⟨front, b, more, rfl, hl⟩ := ih hl
      refine ⟨part ++ front, b, more, (append_assoc _ _ _).symm, ?_⟩
      rw [length_append, ← Nat.add_assoc]
      exact hl

end Tiled

namespace Token

theorem scanFrom_of_skip {pos pos' : Nat} {bytes bytes' : List Char}
    (h : Gap.skip .blank pos bytes = Gap.skip .blank pos' bytes') (steps : Nat) :
    scanFrom steps pos bytes = scanFrom steps pos' bytes' := by
  cases steps with
  | zero => rfl
  | succ steps => rw [scanFrom, scanFrom, h]

/-- Pieces cover the text, and the lexemes among them are those that are read. -/
theorem exists_tiled (steps pos : Nat) (bytes : List Char) (h : bytes.length ≤ steps) :
    ∃ ps, Tiled pos bytes ps ∧ ps.filterMap Piece.lexeme? = scanFrom steps pos bytes := by
  induction hn : bytes.length using Nat.strong_induction_on generalizing steps pos bytes with
  | _ n ih =>
    subst hn
    -- Either a lexeme starts here or a gap does; both leave fewer bytes.
    rcases Gap.skip_blank pos bytes with ⟨habsent, hskip⟩ | ⟨part, rest, rfl, hpart, hskip⟩
    · cases bytes with
      | nil => cases steps <;> exact ⟨[], .nil, rfl⟩
      | cons b rest =>
        obtain ⟨steps, rfl⟩ := Nat.exists_eq_add_one_of_ne_zero (Nat.ne_zero_of_lt h)
        have hpos := pos_of_read b rest
        have hwidth : ((b :: rest).take (read b rest).2).length = (read b rest).2 := by
          rw [length_take, length_cons]
          exact min_eq_left (width_read b rest)
        have hsplit := take_append_drop (read b rest).2 (b :: rest)
        have hdrop : ((b :: rest).drop (read b rest).2).length < (b :: rest).length := by
          rw [length_drop, length_cons]
          omega
        obtain ⟨ps, hps, htoks⟩ := ih _ hdrop steps (pos + (read b rest).2) _
          (Nat.le_of_lt_succ (Nat.lt_of_lt_of_le hdrop h)) rfl
        refine ⟨.token ⟨(read b rest).1, ⟨pos, pos + (read b rest).2⟩⟩ :: ps, ?_, ?_⟩
        · rw [← hsplit]
          refine .cons ?_ (by rw [hwidth]; rfl) ⟨by rwa [hsplit], b, rest, hsplit, ?_⟩ ?_
          · exact ne_nil_of_length_pos (by rwa [hwidth])
          · rw [hwidth]
          · rwa [hwidth]
        · rw [scanFrom, hskip, filterMap_cons, htoks]
          rfl
    · have hrest : rest.length < (part ++ rest).length := by
        have hpos := length_pos_iff.mpr hpart.ne_nil
        rw [length_append]
        omega
      obtain ⟨ps, hps, htoks⟩ := ih _ hrest steps (pos + part.length) rest (by omega) rfl
      refine ⟨.gap ⟨pos, pos + part.length⟩ :: ps, .cons hpart.ne_nil rfl hpart hps, ?_⟩
      rw [scanFrom_of_skip hskip, filterMap_cons, ← htoks]
      rfl

theorem exists_tiled_scanBytes (bytes : List Char) :
    ∃ ps, Tiled 0 bytes ps ∧ ps.filterMap Piece.lexeme? = scanBytes bytes :=
  exists_tiled bytes.length 0 bytes le_rfl

theorem bounds_scanBytes {bytes : List Char} {l : Lexeme} (h : l ∈ scanBytes bytes) :
    l.span.start < l.span.stop ∧ l.span.stop ≤ bytes.length := by
  obtain ⟨ps, hps, htoks⟩ := exists_tiled_scanBytes bytes
  rw [← htoks] at h
  obtain ⟨p, hp, hl⟩ := mem_filterMap.mp h
  obtain rfl := Piece.eq_token hl
  have hbounds := (hps.bounds _ hp).2
  rwa [Nat.zero_add] at hbounds

theorem pairwise_scanBytes (bytes : List Char) :
    (scanBytes bytes).Pairwise fun l m => l.span.stop ≤ m.span.start := by
  obtain ⟨ps, hps, htoks⟩ := exists_tiled_scanBytes bytes
  rw [← htoks]
  refine hps.pairwise.filterMap _ fun p q hpq l hl m hm => ?_
  obtain rfl := Piece.eq_token hl
  obtain rfl := Piece.eq_token hm
  exact hpq

theorem Lexed.ne_eof {t : Token} (h : t.Lexed) : t ≠ .eof := by
  rintro rfl
  rcases h with h | ⟨_, h⟩ <;> cases h

end Token

theorem Text.length_encode (source : String) :
    (Text.encode source.toList).length = source.utf8ByteSize := by
  have hbytes : source.toByteArray = source.toList.utf8Encode := by
    conv_lhs => rw [← String.ofList_toList (s := source)]
    rfl
  rw [String.utf8ByteSize, hbytes, utf8Encode, size_toByteArray, length_flatMap,
    Text.encode, length_flatMap]
  congr 2
  funext c
  exact length_map _

theorem Cursor.current_iterate_advance (c : Cursor) (i : Nat) :
    (advance^[i] c).current = c.rest[i]?.getD c.atEnd := by
  induction i generalizing c with
  | zero =>
    rw [Function.iterate_zero_apply, current]
    cases c.rest <;> rfl
  | succ i ih =>
    rw [Function.iterate_succ_apply, ih, advance]
    cases c.rest <;> rfl

/-- The lexer cuts a source into tokens and the parts of the gaps between them, and each byte lies
in one of these pieces. Behind the last token there is only the end of the source. -/
theorem Token.tiled_scan (source : String) :
    (∃ pieces, Tiled 0 (Text.encode source.toList) pieces ∧
      pieces.filterMap Piece.lexeme? = scan source ∧
      ∀ i < source.utf8ByteSize, ∃! p, p ∈ pieces ∧ p.span.start ≤ i ∧ i < p.span.stop) ∧
    (∀ l ∈ scan source, l.token ≠ .eof ∧ l.span.start < l.span.stop ∧
      l.span.stop ≤ source.utf8ByteSize) ∧
    ((scan source).Pairwise fun l m => l.span.stop ≤ m.span.start) ∧
    ∀ i, (Cursor.advance^[i] ⟨scan source, source.utf8ByteSize, 0⟩).current =
      (scan source)[i]?.getD ⟨.eof, ⟨source.utf8ByteSize, source.utf8ByteSize⟩⟩ := by
  obtain ⟨pieces, hpieces, htoks⟩ := exists_tiled_scanBytes (Text.encode source.toList)
  rw [← Text.length_encode]
  refine ⟨⟨pieces, hpieces, htoks, fun i hi => ?_⟩, fun l hl => ⟨?_, bounds_scanBytes hl⟩,
    pairwise_scanBytes _, Cursor.current_iterate_advance _⟩
  · exact hpieces.existsUnique (Nat.zero_le i) (by rwa [Nat.zero_add])
  · exact (lexed_of_mem_scanFrom _ _ _ hl).ne_eof

end Provision
