import Mathlib.Tactic
import Provision.Number.Read

/-!
# Numerals

A numeral of the language is digits, a point and more digits (`Number.Written`). `Numerals` are a
way to write down every number that some numeral stands for. One of them writes a number exactly: a
finite number is a whole count of `2 ^ (-1074)`, so that 1074 digits behind the point are enough
(`Numerals.exact`). It reads back since a number that was rounded once is not changed by rounding
(`Number.rounded_ofRatio`, `Number.ofRatio_eq_finite`).
-/

namespace Provision

open List

variable {units : Nat}

namespace Number

/-- Digits before and behind a point that stand for a number. -/
structure Written (x : Number) (whole fraction : List Char) : Prop where
  whole_ne_nil : whole ≠ []
  fraction_ne_nil : fraction ≠ []
  isDigit_whole : ∀ d ∈ whole, d.isDigit
  isDigit_fraction : ∀ d ∈ fraction, d.isDigit
  ofDigits_eq : ofDigits false whole fraction 0 = x

/-! ### Digits -/

theorem digitsValue_eq_ofDigitChars (ds : List Char) : digitsValue ds = Nat.ofDigitChars 10 ds 0 :=
  rfl

theorem digitsValue_append (ds es : List Char) :
    digitsValue (ds ++ es) = digitsValue ds * 10 ^ es.length + digitsValue es := by
  simp only [digitsValue_eq_ofDigitChars]
  rw [Nat.ofDigitChars_append, Nat.ofDigitChars_eq_ofDigitChars_zero, Nat.mul_comm]

theorem digitsValue_toDigits (n : Nat) : digitsValue (Nat.toDigits 10 n) = n :=
  Nat.ofDigitChars_ten_toDigits

theorem ofDigits_eq_ofRatio (negative : Bool) (whole : List Char) {fraction : List Char}
    (h : fraction ≠ []) : ofDigits negative whole fraction 0 =
      ofRatio negative (digitsValue (whole ++ fraction)) (10 ^ fraction.length) := by
  obtain ⟨k, hk⟩ := Nat.exists_eq_succ_of_ne_zero (mt length_eq_zero_iff.mp h)
  have hexponent : (0 : Int) - (fraction.length : Int) = Int.negSucc k := by omega
  rw [ofDigits, hexponent, hk]
  rfl

/-! ### Rounding -/

/-- A count of units that has no more than 53 significant bits. -/
def Rounded (units : Nat) : Prop := 2 ^ lastPlace units ∣ units

theorem roundDiv_mul_self (q : Nat) {d : Nat} (hd : 0 < d) : roundDiv (q * d) d = q := by
  unfold roundDiv
  rw [Nat.mul_mod_left, Nat.mul_div_cancel _ hd, if_pos (by omega)]

theorem roundDiv_le (n d : Nat) : roundDiv n d ≤ n / d + 1 := by
  unfold roundDiv
  dsimp only
  split
  · omega
  · split <;> omega

theorem div_lastPlace_lt (units : Nat) : units / 2 ^ lastPlace units < 2 ^ 53 := by
  rw [Nat.div_lt_iff_lt_mul (Nat.two_pow_pos _), ← Nat.pow_add]
  calc units < 2 ^ (units.log2 + 1) := Nat.lt_log2_self
    _ ≤ 2 ^ (53 + lastPlace units) := Nat.pow_le_pow_right (by omega) (by unfold lastPlace; omega)

theorem rounded_mul_two_pow {r : Nat} (hr : r ≤ 2 ^ 53) (e : Nat) : Rounded (r * 2 ^ e) := by
  unfold Rounded
  rcases Nat.eq_zero_or_pos r with rfl | hpos
  · rw [Nat.zero_mul]
    exact Nat.dvd_zero _
  rcases Nat.lt_or_eq_of_le hr with hlt | rfl
  · have hlog : (r * 2 ^ e).log2 < 53 + e := by
      rw [Nat.log2_lt (by positivity), Nat.pow_add]
      exact Nat.mul_lt_mul_of_pos_right hlt (Nat.two_pow_pos e)
    have hpl : lastPlace (r * 2 ^ e) ≤ e := by
      unfold lastPlace
      omega
    exact Dvd.dvd.mul_left (Nat.pow_dvd_pow 2 hpl) r
  · -- rounding up has led to the next power of two
    rw [← Nat.pow_add]
    refine Nat.pow_dvd_pow 2 ?_
    rw [lastPlace, Nat.log2_two_pow]
    omega

theorem rounded_ofRatio {negative s : Bool} {n d : Nat}
    (h : ofRatio negative n d = .finite s units) :
    s = negative ∧ Rounded units ∧ units < ceiling := by
  unfold ofRatio at h
  dsimp only at h
  split at h
  · next hlt =>
    obtain ⟨rfl, rfl⟩ := Number.finite.inj h
    refine ⟨rfl, rounded_mul_two_pow ?_ _, hlt⟩
    calc roundDiv (n * one) (d * Nat.pow 2 (lastPlace (n * one / d)))
        ≤ n * one / (d * Nat.pow 2 (lastPlace (n * one / d))) + 1 := roundDiv_le _ _
      _ = n * one / d / 2 ^ lastPlace (n * one / d) + 1 := by rw [Nat.div_div_eq_div_mul]; rfl
      _ ≤ 2 ^ 53 := div_lastPlace_lt _
  · cases h

theorem ofRatio_eq_finite (negative : Bool) {n d : Nat} (hunits : Rounded units)
    (hlt : units < ceiling) (hd : 0 < d) (h : n * one = units * d) :
    ofRatio negative n d = .finite negative units := by
  obtain ⟨q, hq⟩ := hunits
  have hstep : 0 < d * 2 ^ lastPlace units := Nat.mul_pos hd (Nat.two_pow_pos _)
  have hround : roundDiv (units * d) (d * Nat.pow 2 (lastPlace units)) *
      Nat.pow 2 (lastPlace units) = units := by
    have hmul : units * d = q * (d * 2 ^ lastPlace units) := by
      conv_lhs => rw [hq]
      ring
    show roundDiv (units * d) (d * 2 ^ lastPlace units) * 2 ^ lastPlace units = units
    rw [hmul, roundDiv_mul_self q hstep, Nat.mul_comm]
    exact hq.symm
  unfold ofRatio
  dsimp only
  rw [h, Nat.mul_div_cancel _ hd, hround, if_pos hlt]

/-! ### Numbers written exactly -/

/-- As many digits behind the point as a unit needs. -/
def places : Nat := 1074

theorem one_eq_two_pow : one = 2 ^ places := by
  unfold one places
  generalize 1074 = n -- or the power is evaluated
  rfl

theorem ten_pow_places : 10 ^ places = one * 5 ^ places := by
  rw [one_eq_two_pow, ← Nat.mul_pow]

theorem one_pos : 0 < one := one_eq_two_pow ▸ Nat.two_pow_pos places

def wholeDigits (units : Nat) : List Char := Nat.toDigits 10 (units / one)

/-- All digits behind the point of a count of units. -/
def fractionDigits (units : Nat) : List Char :=
  let digits := Nat.toDigits 10 (units % one * Nat.pow 5 places)
  replicate (places - digits.length) '0' ++ digits

/-- The digits of a number before and behind the point; too large for every finite number is
`1` with 309 zeros. -/
def exactDigits : Number → List Char × List Char
  | .finite _ units => (wholeDigits units, fractionDigits units)
  | _ => ('1' :: replicate 309 '0', ['0'])

theorem length_fractionDigits (units : Nat) : (fractionDigits units).length = places := by
  have hlt : units % one * Nat.pow 5 places < 10 ^ places := by
    have hmod : units % one < one := Nat.mod_lt _ one_pos
    have hfive : 0 < 5 ^ places := Nat.pow_pos (by omega)
    rw [ten_pow_places, Nat.pow_eq]
    generalize 5 ^ places = five at hfive ⊢
    exact (Nat.mul_lt_mul_right hfive).mpr hmod
  have hlen := (Nat.length_toDigits_le_iff (by omega) (by decide)).mpr hlt
  rw [fractionDigits, length_append, length_replicate]
  omega

theorem fractionDigits_ne_nil (units : Nat) : fractionDigits units ≠ [] := by
  rw [← length_pos_iff, length_fractionDigits]
  decide

theorem digitsValue_fractionDigits (units : Nat) :
    digitsValue (fractionDigits units) = units % one * 5 ^ places := by
  rw [fractionDigits, digitsValue_append, digitsValue_toDigits, digitsValue_eq_ofDigitChars,
    Nat.ofDigitChars_replicate_zero, Nat.mul_zero, Nat.zero_mul, Nat.zero_add, Nat.pow_eq]

theorem isDigit_of_mem_fractionDigits {d : Char} (h : d ∈ fractionDigits units) : d.isDigit := by
  rcases mem_append.mp h with h | h
  · rw [eq_of_mem_replicate h]
    rfl
  · exact Nat.isDigit_of_mem_toDigits (by omega) (by omega) h

theorem digitsValue_exact (units : Nat) :
    digitsValue (wholeDigits units ++ fractionDigits units) = units * 5 ^ places := by
  rw [digitsValue_append, length_fractionDigits, digitsValue_fractionDigits, wholeDigits,
    digitsValue_toDigits, ten_pow_places]
  calc units / one * (one * 5 ^ places) + units % one * 5 ^ places
      = (one * (units / one) + units % one) * 5 ^ places := by ring
    _ = units * 5 ^ places := by rw [Nat.div_add_mod]

theorem ofDigits_exact (h : Rounded units) (hlt : units < ceiling) :
    ofDigits false (wholeDigits units) (fractionDigits units) 0 = .finite false units := by
  rw [ofDigits_eq_ofRatio _ _ (fractionDigits_ne_nil units), digitsValue_exact,
    length_fractionDigits]
  refine ofRatio_eq_finite false h hlt (Nat.pow_pos (by omega)) ?_
  rw [ten_pow_places, Nat.mul_assoc, Nat.mul_comm one]

theorem ofDigits_infinity :
    ofDigits false ('1' :: replicate 309 '0') ['0'] 0 = .infinity false := by
  decide +kernel

/-- What a numeral stands for is written exactly by its digits. -/
theorem Written.exact {x : Number} {whole fraction : List Char} (h : Written x whole fraction) :
    Written x (exactDigits x).1 (exactDigits x).2 := by
  have hx := h.ofDigits_eq
  rw [ofDigits_eq_ofRatio _ _ h.fraction_ne_nil] at hx
  cases x with
  | nan =>
    unfold ofRatio at hx
    dsimp only at hx
    split at hx <;> cases hx
  | infinity s =>
    obtain rfl : s = false := by
      unfold ofRatio at hx
      dsimp only at hx
      split at hx <;> cases hx
      rfl
    refine ⟨cons_ne_nil _ _, cons_ne_nil _ _, ?_, ?_, ofDigits_infinity⟩
    · intro d hd
      rcases mem_cons.mp hd with rfl | hd
      · rfl
      · rw [eq_of_mem_replicate hd]
        rfl
    · intro d hd
      rw [mem_singleton.mp hd]
      rfl
  | finite s units =>
    obtain ⟨rfl, hrounded, hlt⟩ := rounded_ofRatio hx
    exact ⟨Nat.toDigits_ne_nil, fractionDigits_ne_nil units,
      fun d => Nat.isDigit_of_mem_toDigits (by omega) (by omega),
      fun d => isDigit_of_mem_fractionDigits, ofDigits_exact hrounded hlt⟩

end Number

/-- A way to write every number that a numeral stands for. -/
structure Numerals where
  /-- The digits of a number before and behind the point. -/
  write : Number → List Char × List Char
  written : ∀ {x whole fraction}, Number.Written x whole fraction →
    Number.Written x (write x).1 (write x).2

def Numerals.exact : Numerals := ⟨Number.exactDigits, Number.Written.exact⟩

end Provision
