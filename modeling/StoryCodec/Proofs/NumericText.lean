import StoryCodec.Proofs.BareText
import StoryCodec.Proofs.Nearest
import StoryCodec.Proofs.NumeralText

namespace StoryCodec

/-- One or more digits, which may have a point anywhere among them: `D+(\.D*)?|\.D+`. -/
inductive SpellsMantissa : List Char → ℚ → Prop
  | whole {digits : List Char} (some_digit : digits ≠ []) (hdigits : ∀ c ∈ digits, c.isDigit) :
      SpellsMantissa digits (digitsValue digits)
  | pointed {whole fraction : List Char} (some_digit : whole ≠ [])
      (hwhole : ∀ c ∈ whole, c.isDigit) (hfraction : ∀ c ∈ fraction, c.isDigit) :
      SpellsMantissa (whole ++ '.' :: fraction)
        (digitsValue whole + digitsValue fraction / 10 ^ fraction.length)
  | fraction {digits : List Char} (some_digit : digits ≠ []) (hdigits : ∀ c ∈ digits, c.isDigit) :
      SpellsMantissa ('.' :: digits) (digitsValue digits / 10 ^ digits.length)

/-- A text spells a number by digits after a sign or none, and behind them a power of ten or none:
`[+-]?(D+(\.D*)?|\.D+)([eE][+-]?D+)?`. -/
inductive SpellsNumber : List Char → ℚ → Prop
  | mk {sign : Option Char} {front power : List Char} {m : ℚ} {n : Option Int}
      (hsign : ∀ c ∈ sign, c = '-' ∨ c = '+') (hfront : SpellsMantissa front m)
      (hpower : Numeral.Power power n) :
      SpellsNumber (sign.toList ++ (front ++ power))
        (if sign = some '-' then -(m * 10 ^ n.getD 0) else m * 10 ^ n.getD 0)

namespace Numeral

theorem hasDigits_iff {n : Numeral} : n.hasDigits ↔ n.whole ≠ [] ∨ n.fraction.getD [] ≠ [] := by
  simp [hasDigits]

theorem decimal_signed (n : Numeral) : n.decimal.signed =
    let m : ℚ := digitsValue (n.whole ++ n.fraction.getD []) / 10 ^ (n.fraction.getD []).length
    if n.sign = some '-' then -(m * 10 ^ n.exponent.getD 0) else m * 10 ^ n.exponent.getD 0 := by
  rw [Decimal.signed, decimal_value, zpow_sub₀ (by norm_num), zpow_natCast, mul_div_left_comm,
    mul_comm]
  simp only [decimal, negative, decide_eq_true_eq]

theorem digitsValue_div (whole fraction : List Char) :
    (digitsValue (whole ++ fraction) / 10 ^ fraction.length : ℚ) =
      digitsValue whole + digitsValue fraction / 10 ^ fraction.length := by
  rw [digitsValue_append]
  push_cast
  field_simp

theorem spellsMantissa_iff {front : List Char} {m : ℚ} : SpellsMantissa front m ↔
    ∃ whole fraction, front = whole ++ fractionText fraction ∧ (∀ c ∈ whole, c.isDigit) ∧
      (∀ digits ∈ fraction, ∀ c ∈ digits, c.isDigit) ∧ (whole ≠ [] ∨ fraction.getD [] ≠ []) ∧
      m = digitsValue (whole ++ fraction.getD []) / 10 ^ (fraction.getD []).length := by
  constructor
  · intro h
    cases h with
    | whole some_digit hdigits =>
        exact ⟨front, none, by simp [fractionText], hdigits, by simp, .inl some_digit, by simp⟩
    | @pointed whole fraction some_digit hwhole hfraction =>
        exact ⟨whole, some fraction, rfl, hwhole, by rintro _ ⟨⟩; exact hfraction,
          .inl some_digit, (digitsValue_div whole fraction).symm⟩
    | @fraction digits some_digit hdigits =>
        exact ⟨[], some digits, rfl, by simp, by rintro _ ⟨⟩; exact hdigits, .inr some_digit, rfl⟩
  · rintro ⟨whole, fraction, rfl, hwhole, hfraction, some_digit, rfl⟩
    cases fraction with
    | none =>
        have hne := some_digit.resolve_right (not_not_intro rfl)
        simpa [fractionText] using SpellsMantissa.whole hne hwhole
    | some digits =>
        have hdigits := hfraction digits rfl
        by_cases hne : whole = []
        · subst hne
          exact .fraction (some_digit.resolve_left (not_not_intro rfl)) hdigits
        · rw [Option.getD_some, digitsValue_div]
          exact .pointed hne hwhole hdigits

/-- What a text spells is the decimal that is read from it. -/
theorem spellsNumber_iff {cs : List Char} {q : ℚ} :
    SpellsNumber cs q ↔ ∃ n, read? cs = some n ∧ n.hasDigits ∧ n.decimal.signed = q := by
  simp only [read?_eq_some_iff, hasDigits_iff]
  constructor
  · rintro @⟨sign, _, power, _, exponent, hsign, hfront, hpower⟩
    obtain ⟨whole, fraction, rfl, hwhole, hfraction, some_digit, rfl⟩ := spellsMantissa_iff.1 hfront
    rw [List.append_assoc]
    have hsplits := Splits.mk (n := ⟨sign, whole, fraction, exponent⟩) hsign hwhole hfraction hpower
    exact ⟨_, hsplits, some_digit, decimal_signed _⟩
  · rintro ⟨n, ⟨hsign, hwhole, hfraction, hpower⟩, some_digit, rfl⟩
    rw [decimal_signed, ← List.append_assoc n.whole]
    exact .mk hsign (spellsMantissa_iff.2 ⟨_, _, rfl, hwhole, hfraction, some_digit, rfl⟩) hpower

/-- A text that spells an integer is read as a numeral of nothing but a sign and digits. -/
theorem integer?_eq_some_iff {cs : List Char} {n : Numeral} {i : Int} (h : read? cs = some n) :
    n.integer? = some i ↔ SpellsInteger cs i := by
  constructor
  · intro hi
    obtain ⟨⟨hne, hfraction, hexponent⟩, ⟨⟩⟩ := Option.ite_none_right_eq_some.1 hi
    obtain ⟨hsign, hwhole, -, hpower⟩ := read?_eq_some_iff.1 h
    rw [hexponent] at hpower
    cases hpower
    rw [hfraction, fractionText, List.append_nil, List.append_nil]
    exact .mk hsign hne hwhole
  · rintro @⟨digits, sign, hsign, hne, hdigits⟩
    have hsplits := Splits.mk (n := ⟨sign, digits, none, none⟩) hsign hdigits (by simp) .none
    have hread := read?_eq_some_iff.2 hsplits
    rw [fractionText, List.append_nil, List.append_nil, h] at hread
    obtain rfl := Option.some.inj hread
    exact if_pos ⟨hne, rfl, rfl⟩

end Numeral

theorem SpellsInteger.spellsNumber {cs : List Char} {n : Int} (h : SpellsInteger cs n) :
    SpellsNumber cs n := by
  obtain ⟨hsign, hne, hdigits⟩ := h
  have hspells := SpellsNumber.mk hsign (.whole hne hdigits) .none
  rw [List.append_nil] at hspells
  convert hspells using 1
  rw [Numeral.ofSign]
  split <;> simp [digitsValue]

theorem SpellsNumber.unique {cs : List Char} {q r : ℚ} (hq : SpellsNumber cs q)
    (hr : SpellsNumber cs r) : q = r := by
  obtain ⟨n, hn, -, rfl⟩ := Numeral.spellsNumber_iff.1 hq
  obtain ⟨m, hm, -, rfl⟩ := Numeral.spellsNumber_iff.1 hr
  rw [Option.some.inj (hn.symm.trans hm)]

theorem abs_toInt_lt_overflow (n : Int64) : |(n.toInt : ℚ)| < Binary64.overflow := by
  have hlower : (-2 ^ 63 : ℚ) ≤ n.toInt := by exact_mod_cast n.le_toInt
  have hupper : (n.toInt : ℚ) < 2 ^ 63 := by exact_mod_cast n.toInt_lt
  calc |(n.toInt : ℚ)| ≤ 2 ^ 63 := abs_le.2 ⟨hlower, hupper.le⟩
    _ ≤ 2 ^ 970 := pow_le_pow_right₀ (by norm_num) (by norm_num)
    _ < Binary64.overflow := Binary64.two_pow_lt_overflow

namespace Value

theorem ofNumber_eq_int_iff {x : FiniteBinary64} {n : Int64} :
    ofNumber (.finite x) = .int n ↔ x.signed = n.toInt := by
  have hwhole : (Binary64.finite x).whole? = x.whole? := rfl
  rw [← FiniteBinary64.whole?_eq_some_iff, ofNumber, hwhole]
  constructor
  · intro h
    split at h <;> cases h
    next hn =>
      obtain ⟨m, hm, hn⟩ := Option.bind_eq_some_iff.1 hn
      rw [hm, int64?_eq_some_iff.1 hn]
  · intro h
    rw [h, Option.bind_some, int64?_toInt]

end Value

namespace BareText

/-- Of all the kinds of strings only numerals stand for an integer or a float. -/
theorem decode_eq_number_iff {s : String} {v : Value} (hv : v.float?.isSome) :
    Object.decode (.str s) = .ok (some (.value v)) ↔ number? s = some v := by
  rw [decode_eq_elim]
  constructor
  · intro h
    cases hobject : object? s with
    | none => simp [hobject] at h
    | some o =>
        rw [hobject] at h
        cases h
        rcases number_or_verbal_of_object? hobject with ⟨w, hw, ⟨⟩⟩ | hverbal
        · exact hw
        · cases hverbal
          cases hv
  · intro h
    simp [object?, kinds, numeral?, h]

variable {s : String}

theorem number?_of_spellsInteger {n : Int64} (h : SpellsInteger s.toList n.toInt) :
    number? s = some (.int n) := by
  obtain ⟨numeral, hread, hdigits, -⟩ := Numeral.spellsNumber_iff.1 h.spellsNumber
  have hinteger := (Numeral.integer?_eq_some_iff hread).2 h
  simp [number?, hread, hdigits, hinteger, int64?_toInt]

/-- Digits that spell no integer of 64 bits are rounded, and taken for an integer only then. -/
theorem number?_of_nearest {q : ℚ} {x : FiniteBinary64} (hq : SpellsNumber s.toList q)
    (hx : x.Nearest q) (hs : ∀ n : Int64, ¬SpellsInteger s.toList n.toInt) :
    ∃ y : FiniteBinary64, y.signed = x.signed ∧ number? s = some (.ofNumber (.finite y)) := by
  obtain ⟨numeral, hread, hdigits, rfl⟩ := Numeral.spellsNumber_iff.1 hq
  obtain ⟨y, hnearest, hsigned⟩ := Decimal.nearest_iff.1 hx
  have hword : numeral.integer?.bind int64? = none := by
    rw [Option.eq_none_iff_forall_ne_some]
    intro n hn
    obtain ⟨i, hi, hword⟩ := Option.bind_eq_some_iff.1 hn
    rw [← int64?_eq_some_iff.1 hword] at hi
    exact hs n ((Numeral.integer?_eq_some_iff hread).1 hi)
  exact ⟨y, hsigned, by simp [number?, hread, hdigits, hword, hnearest]⟩

theorem exists_nearest_of_number? {v : Value} (h : number? s = some v) :
    ∃ q x, SpellsNumber s.toList q ∧ FiniteBinary64.Nearest q x := by
  obtain ⟨numeral, hread, h⟩ := Option.bind_eq_some_iff.1 h
  obtain ⟨hdigits, h⟩ := Option.ite_none_right_eq_some.1 h
  split at h
  next _ n hn =>
    obtain ⟨i, hi, hword⟩ := Option.bind_eq_some_iff.1 hn
    obtain rfl := int64?_eq_some_iff.1 hword
    have hspells := ((Numeral.integer?_eq_some_iff hread).1 hi).spellsNumber
    obtain ⟨x, hx⟩ := FiniteBinary64.exists_nearest_iff.2 (abs_toInt_lt_overflow n)
    exact ⟨_, x, hspells, hx⟩
  next x _ hx =>
    exact ⟨_, x, Numeral.spellsNumber_iff.2 ⟨numeral, hread, hdigits, rfl⟩,
      Decimal.nearest_iff.2 ⟨x, hx, rfl⟩⟩
  next => cases h

end BareText

end StoryCodec
