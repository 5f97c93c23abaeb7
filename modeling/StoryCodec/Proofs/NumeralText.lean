import StoryCodec.Json.Reading
import StoryCodec.Json.Writing
import StoryCodec.Proofs.Integers

namespace StoryCodec

/-- A text does not go on with a character of a class. -/
def Stops (p : Char → Bool) (rest : List Char) : Prop :=
  ∀ c ∈ rest.head?, p c = false

theorem takeWhile_append_of_stops {p : Char → Bool} {cs rest : List Char} (hcs : ∀ c ∈ cs, p c)
    (hrest : Stops p rest) : (cs ++ rest).takeWhile p = cs := by
  rw [List.takeWhile_append_of_pos hcs]
  cases rest with
  | nil => simp
  | cons c rest => simp [hrest c rfl]

theorem dropWhile_append_of_stops {p : Char → Bool} {cs rest : List Char} (hcs : ∀ c ∈ cs, p c)
    (hrest : Stops p rest) : (cs ++ rest).dropWhile p = rest := by
  rw [List.dropWhile_append_of_pos hcs]
  cases rest with
  | nil => rfl
  | cons c rest => simp [hrest c rfl]

/-- The number whose decimal digits are given. -/
def digitsValue (digits : List Char) : Nat :=
  Nat.ofDigitChars 10 digits 0

theorem digitsValue_append (front back : List Char) : digitsValue (front ++ back) =
    digitsValue front * 10 ^ back.length + digitsValue back := by
  rw [digitsValue, Nat.ofDigitChars_append, Nat.ofDigitChars_eq_ofDigitChars_zero, Nat.mul_comm]
  rfl

theorem digitsValue_zeros (n : Nat) : digitsValue (List.replicate n '0') = 0 := by
  rw [digitsValue, Nat.ofDigitChars_replicate_zero, Nat.mul_zero]

theorem isDigit_of_mem_zeros {n : Nat} {c : Char} (h : c ∈ List.replicate n '0') : c.isDigit := by
  rw [List.eq_of_mem_replicate h]
  rfl

theorem isDigit_of_mem_toDigits {n : Nat} {c : Char} (h : c ∈ Nat.toDigits 10 n) : c.isDigit :=
  Nat.isDigit_of_mem_toDigits (by decide) le_rfl h

theorem head?_toDigits_ne {n : Nat} (h : 0 < n) : (Nat.toDigits 10 n).head? ≠ some '0' := by
  induction n using Nat.strong_induction_on with
  | _ n ih =>
      by_cases hn : n < 10
      · rw [Nat.toDigits_of_lt_base hn]
        simp [Nat.digitChar_eq_zero, h.ne']
      · rw [Nat.toDigits_of_base_le (by decide) (not_lt.1 hn),
          List.head?_append_of_ne_nil _ Nat.toDigits_ne_nil]
        exact ih (n / 10) (by omega) (by omega)

namespace Decimal

theorem significant_of_zero {d : Decimal} (h : d.digits = 0) :
    d.significant = (['0'], d.exponent) := by
  simp [significant, h]

/-- Only zeros at the end are left out of the digits of a decimal. -/
theorem significant_of_ne_zero {d : Decimal} (h : d.digits ≠ 0) :
    ∃ digits zeros, Nat.toDigits 10 d.digits = digits ++ List.replicate zeros '0' ∧ digits ≠ [] ∧
      d.significant = (digits, d.exponent + (digits.length + zeros : ℕ) - 1) := by
  set written := Nat.toDigits 10 d.digits with hwritten
  have hsplit := List.takeWhile_append_dropWhile (p := (· = '0')) (l := written.reverse)
  have hzeros : ∀ c ∈ (written.reverse.takeWhile (· = '0')).reverse, c = '0' := fun c hc => by
    simpa using List.mem_takeWhile_imp (List.mem_reverse.1 hc)
  have happend : written = (written.reverse.dropWhile (· = '0')).reverse ++
      List.replicate (written.reverse.takeWhile (· = '0')).reverse.length '0' := by
    rw [← List.eq_replicate_of_mem hzeros, ← List.reverse_append, hsplit, List.reverse_reverse]
  generalize htrimmed : (written.reverse.dropWhile (· = '0')).reverse = trimmed at happend
  have hne : trimmed ≠ [] := by
    rintro rfl
    have hvalue : digitsValue written = 0 := by rw [happend, List.nil_append, digitsValue_zeros]
    rw [hwritten, digitsValue, Nat.ofDigitChars_ten_toDigits] at hvalue
    exact h hvalue
  refine ⟨trimmed, _, happend, hne, ?_⟩
  rw [significant]
  simp only [← hwritten, htrimmed]
  rw [if_neg (by simpa using hne)]
  nth_rewrite 1 [happend]
  rw [List.length_append, List.length_replicate]

theorem isDigit_of_mem_significant {d : Decimal} {c : Char} (hc : c ∈ d.significant.1) :
    c.isDigit := by
  by_cases h : d.digits = 0
  · rw [significant_of_zero h] at hc
    rw [List.mem_singleton.1 hc]
    rfl
  · obtain ⟨digits, zeros, hwritten, -, hd⟩ := significant_of_ne_zero h
    rw [hd] at hc
    exact isDigit_of_mem_toDigits (hwritten ▸ List.mem_append_left _ hc)

theorem significant_ne_nil (d : Decimal) : d.significant.1 ≠ [] := by
  by_cases h : d.digits = 0
  · rw [significant_of_zero h]
    nofun
  · obtain ⟨digits, zeros, -, hne, hd⟩ := significant_of_ne_zero h
    rwa [hd]

theorem value_significant (d : Decimal) : d.value =
    digitsValue d.significant.1 * 10 ^ (d.significant.2 + 1 - d.significant.1.length) := by
  by_cases h : d.digits = 0
  · rw [value, significant_of_zero h, h]
    simp [digitsValue, Nat.ofDigitChars]
  · obtain ⟨digits, zeros, hwritten, -, hd⟩ := significant_of_ne_zero h
    have hdigits : d.digits = digitsValue digits * 10 ^ zeros := by
      have hvalue := digitsValue_append digits (List.replicate zeros '0')
      rw [← hwritten, digitsValue_zeros, List.length_replicate] at hvalue
      rwa [digitsValue, Nat.ofDigitChars_ten_toDigits] at hvalue
    have hpower : d.exponent + (digits.length + zeros : ℕ) - 1 + 1 - digits.length =
        zeros + d.exponent := by
      push_cast
      ring
    rw [value, hd, hpower, hdigits, zpow_add₀ (by norm_num)]
    push_cast
    rw [zpow_natCast, mul_assoc]

/-- No zero stands before the other digits. -/
theorem head?_significant_ne {d : Decimal} (h : d.digits ≠ 0) :
    d.significant.1.head? ≠ some '0' := by
  obtain ⟨digits, zeros, hwritten, hne, hd⟩ := significant_of_ne_zero h
  have hhead := head?_toDigits_ne (Nat.pos_of_ne_zero h)
  rw [hd]
  rwa [hwritten, List.head?_append_of_ne_nil _ hne] at hhead

end Decimal

namespace Numeral

def fractionText : Option (List Char) → List Char
  | none => []
  | some digits => '.' :: digits

def exponentText : Option Int → List Char
  | none => []
  | some power => 'e' :: (if power < 0 then '-' else '+') :: Nat.toDigits 10 power.natAbs

def text (n : Numeral) : List Char :=
  n.sign.toList ++ (n.whole ++ (fractionText n.fraction ++ exponentText n.exponent))

/-- The parts of a numeral are what its text is split into. -/
structure Regular (n : Numeral) : Prop where
  sign : ∀ c ∈ n.sign, c = '-' ∨ c = '+'
  some_digit : n.whole ≠ []
  whole : ∀ c ∈ n.whole, c.isDigit
  fraction : ∀ digits ∈ n.fraction, ∀ c ∈ digits, c.isDigit

/-- Behind a mark stands the power of ten that a number is multiplied by. -/
inductive Power : List Char → Option Int → Prop
  | none : Power [] none
  | some {mark : Char} {cs : List Char} {n : Int} (hmark : mark = 'e' ∨ mark = 'E')
      (h : SpellsInteger cs n) : Power (mark :: cs) (some n)

/-- A text is the parts of a numeral one after the other. -/
inductive Splits : List Char → Numeral → Prop
  | mk {n : Numeral} {power : List Char} (hsign : ∀ c ∈ n.sign, c = '-' ∨ c = '+')
      (hwhole : ∀ c ∈ n.whole, c.isDigit)
      (hfraction : ∀ digits ∈ n.fraction, ∀ c ∈ digits, c.isDigit)
      (hpower : Power power n.exponent) :
      Splits (n.sign.toList ++ (n.whole ++ (fractionText n.fraction ++ power))) n

theorem takeDigits_append {digits rest : List Char} (hdigits : ∀ c ∈ digits, c.isDigit)
    (hrest : Stops Char.isDigit rest) : takeDigits (digits ++ rest) = (digits, rest) := by
  rw [takeDigits, takeWhile_append_of_stops hdigits hrest, dropWhile_append_of_stops hdigits hrest]

/-- The sign of an integer and the digits of its absolute value are read as the integer. -/
theorem ofSign_toDigits {sign : Option Char} {n : Int} (h : sign = some '-' ↔ n < 0) :
    ofSign sign (Nat.ofDigitChars 10 (Nat.toDigits 10 n.natAbs) 0) = n := by
  rw [Nat.ofDigitChars_ten_toDigits, ofSign]
  split
  next hsign =>
    have hneg := h.1 hsign
    omega
  next hsign =>
    have hpos := mt h.2 hsign
    omega

theorem takeDigits_split (cs : List Char) :
    cs = (takeDigits cs).1 ++ (takeDigits cs).2 ∧ ∀ c ∈ (takeDigits cs).1, c.isDigit :=
  ⟨List.takeWhile_append_dropWhile.symm, fun _ hc => List.mem_takeWhile_imp hc⟩

theorem takeFraction_split (cs : List Char) :
    cs = fractionText (takeFraction cs).1 ++ (takeFraction cs).2 ∧
      ∀ digits ∈ (takeFraction cs).1, ∀ c ∈ digits, c.isDigit := by
  rw [takeFraction.eq_def]
  split
  next cs =>
    obtain ⟨hcs, hdigits⟩ := takeDigits_split cs
    exact ⟨congrArg ('.' :: ·) hcs, by rintro _ ⟨⟩; exact hdigits⟩
  next => exact ⟨rfl, nofun⟩

theorem takeFraction_append {fraction : Option (List Char)} {power : List Char} {n : Option Int}
    (hfraction : ∀ digits ∈ fraction, ∀ c ∈ digits, c.isDigit) (hpower : Power power n) :
    takeFraction (fractionText fraction ++ power) = (fraction, power) := by
  cases fraction with
  | some digits =>
      have hstops : Stops Char.isDigit power := by
        cases hpower with
        | none => nofun
        | some hmark => rintro c ⟨⟩; rcases hmark with rfl | rfl <;> rfl
      have hdigits := takeDigits_append (hfraction digits rfl) hstops
      simp [fractionText, takeFraction, hdigits]
  | none =>
      cases hpower with
      | none => rfl
      | some hmark => rcases hmark with rfl | rfl <;> rfl

/-- Behind the whole digits stands a point, the mark of a power, or nothing. -/
theorem head?_fractionText_append (fraction : Option (List Char)) {power : List Char}
    {n : Option Int} (hpower : Power power n) :
    ∀ c ∈ (fractionText fraction ++ power).head?, c = '.' ∨ c = 'e' ∨ c = 'E' := by
  cases fraction with
  | some digits => rintro c ⟨⟩; exact .inl rfl
  | none =>
      cases hpower with
      | none => nofun
      | some hmark => rintro c ⟨⟩; exact .inr hmark

theorem read?_eq_some_iff {cs : List Char} {n : Numeral} : read? cs = some n ↔ Splits cs n := by
  constructor
  · intro h
    obtain ⟨hsigned, hsign⟩ := takeSign_split cs
    obtain ⟨hunsigned, hwhole⟩ := takeDigits_split (takeSign cs).2
    obtain ⟨hrest, hfraction⟩ := takeFraction_split (takeDigits (takeSign cs).2).2
    rw [hsigned, hunsigned, hrest]
    rw [read?] at h
    dsimp only at h
    split at h
    next hend =>
      rw [hend]
      cases h
      exact .mk (n := ⟨_, _, _, none⟩) hsign hwhole hfraction .none
    next mark cs hend =>
      obtain ⟨hmark, h⟩ := Option.ite_none_right_eq_some.1 h
      obtain ⟨power, hpower, h⟩ := Option.bind_eq_some_iff.1 h
      rw [hend]
      cases h
      exact .mk (n := ⟨_, _, _, some power⟩) hsign hwhole hfraction
        (.some hmark (readInteger?_eq_some_iff.1 hpower))
  · rintro ⟨hsign, hwhole, hfraction, hpower⟩
    have hhead := head?_fractionText_append n.fraction hpower
    have hdigits := takeDigits_append hwhole fun c hc => by
      rcases hhead c hc with rfl | rfl | rfl <;> rfl
    have hunsigned := takeSign_append hsign fun c hc => by
      rw [List.head?_append, Option.mem_def, Option.or_eq_some_iff] at hc
      rcases hc with hc | ⟨-, hc⟩
      · exact not_sign_of_isDigit (hwhole c (List.mem_of_head? hc))
      · rcases hhead c hc with rfl | rfl | rfl <;> decide
    rw [read?, hunsigned]
    dsimp only
    rw [hdigits, takeFraction_append hfraction hpower]
    obtain ⟨sign, whole, fraction, exponent⟩ := n
    cases hpower with
    | none => rfl
    | some hmark h => simp [hmark, readInteger?_eq_some_iff.2 h]

/-- The sign of a power is always written. -/
theorem power_exponentText (n : Option Int) : Power (exponentText n) n := by
  cases n with
  | none => exact .none
  | some n =>
      have hnegative : some (if n < 0 then '-' else '+') = some '-' ↔ n < 0 := by
        split <;> simp [*]
      have hsign : ∀ c ∈ some (if n < 0 then '-' else '+'), c = '-' ∨ c = '+' := by
        rintro c ⟨⟩
        split <;> simp
      have hspells := SpellsInteger.mk hsign (Nat.toDigits_ne_nil (n := n.natAbs) (b := 10))
        fun c => isDigit_of_mem_toDigits
      rw [ofSign_toDigits hnegative] at hspells
      exact .some (.inl rfl) hspells

theorem read?_text {n : Numeral} (h : n.Regular) : read? n.text = some n :=
  read?_eq_some_iff.2 (.mk h.sign h.whole h.fraction (power_exponentText n.exponent))

def fraction? (digits : List Char) : Option (List Char) :=
  if digits.isEmpty then none else some digits

/-- How the digits of a float are written, the first of them counting a power of ten. -/
def ofDigits (style : FloatStyle) (negative : Bool) (digits : List Char) (power : Int) : Numeral :=
  let sign := if negative then some '-' else none
  if style.isPlain power then
    let (whole, fraction) := positional digits power
    ⟨sign, whole, fraction? (if fraction.isEmpty && style.keepsPoint then ['0'] else fraction),
      none⟩
  else ⟨sign, digits.take 1, fraction? (digits.drop 1), some power⟩

theorem write_eq_text (style : FloatStyle) (x : FiniteBinary64) : x.write style =
    (ofDigits style x.negative (x.shortest style.tie).significant.1
      (x.shortest style.tie).significant.2).text := by
  have hsign : writeSign x.negative = Option.toList (if x.negative then some '-' else none) := by
    rw [writeSign]
    split <;> rfl
  have hfraction (digits : List Char) :
      (if digits.isEmpty then [] else '.' :: digits) = fractionText (fraction? digits) := by
    rw [fraction?]
    split <;> rfl
  rw [FiniteBinary64.write, ofDigits]
  dsimp only
  split
  · simp only [text, hsign, hfraction, exponentText, List.append_nil]
  · simp only [text, hsign, hfraction, exponentText, List.append_assoc]

variable {digits : List Char} (power : Int)

theorem decimal_value (n : Numeral) :
    n.decimal.value = digitsValue (n.whole ++ n.fraction.getD []) *
      10 ^ (n.exponent.getD 0 - (n.fraction.getD []).length) := rfl

theorem fraction?_getD (digits : List Char) : (fraction? digits).getD [] = digits := by
  rw [fraction?]
  split
  next h => rw [List.isEmpty_iff.1 h]; rfl
  next => rfl

theorem positional_value (digits : List Char) :
    (digitsValue ((positional digits power).1 ++ (positional digits power).2) : ℚ) *
        10 ^ (-(positional digits power).2.length : Int) =
      digitsValue digits * 10 ^ (power + 1 - digits.length) := by
  rw [positional]
  split
  next h =>
    have hvalue : digitsValue (['0'] ++ (List.replicate (-power - 1).toNat '0' ++ digits)) =
        digitsValue digits := by
      have hzeros := digitsValue_zeros ((-power - 1).toNat + 1)
      rw [List.replicate_succ] at hzeros
      rw [← List.append_assoc, List.singleton_append, digitsValue_append, hzeros, zero_mul,
        zero_add]
    rw [hvalue, List.length_append, List.length_replicate]
    congr 2
    omega
  next h =>
    dsimp only
    by_cases hlength : digits.length ≤ power.toNat + 1
    · rw [List.take_of_length_le hlength, List.drop_of_length_le hlength, List.append_nil,
        List.rightpad, digitsValue_append, digitsValue_zeros, add_zero, List.length_replicate]
      push_cast
      rw [mul_assoc, ← zpow_natCast, ← zpow_add₀ (by norm_num)]
      congr 2
      simp only [List.length_nil]
      omega
    · have hwhole : (digits.take (power.toNat + 1)).rightpad (power.toNat + 1) '0' =
          digits.take (power.toNat + 1) := by
        rw [List.rightpad, List.length_take_of_le (by omega), Nat.sub_self]
        simp
      rw [hwhole, List.take_append_drop, List.length_drop]
      congr 2
      omega

theorem decimal_ofDigits (style : FloatStyle) (negative : Bool) (hne : digits ≠ []) :
    (ofDigits style negative digits power).decimal.value =
      digitsValue digits * 10 ^ (power + 1 - digits.length) := by
  have hlength := List.length_pos_iff.2 hne
  rw [decimal_value, ofDigits]
  split
  next =>
    dsimp only
    rw [fraction?_getD, ← positional_value power digits]
    generalize positional digits power = parts
    obtain ⟨whole, fraction⟩ := parts
    split
    next h =>
      simp only [Bool.and_eq_true, List.isEmpty_iff] at h
      rw [h.1, List.append_nil, digitsValue_append]
      simp [digitsValue, Nat.ofDigitChars]
    next => simp
  next =>
    dsimp only
    rw [fraction?_getD, List.take_append_drop, List.length_drop, Option.getD_some]
    congr 2
    omega

theorem negative_ofDigits (style : FloatStyle) (negative : Bool) (digits : List Char) :
    (ofDigits style negative digits power).negative = negative := by
  cases negative <;> rw [ofDigits] <;> split <;> rfl

theorem isDigit_of_mem_positional {c : Char} (hdigits : ∀ c ∈ digits, c.isDigit) :
    (c ∈ (positional digits power).1 → c.isDigit) ∧
      (c ∈ (positional digits power).2 → c.isDigit) := by
  rw [positional]
  split
  next =>
    constructor
    · intro hc
      rw [List.mem_singleton.1 hc]
      rfl
    · intro hc
      rcases List.mem_append.1 hc with hc | hc
      · exact isDigit_of_mem_zeros hc
      · exact hdigits c hc
  next =>
    constructor
    · intro hc
      rcases List.mem_append.1 hc with hc | hc
      · exact hdigits c (List.mem_of_mem_take hc)
      · exact isDigit_of_mem_zeros hc
    · exact fun hc => hdigits c (List.mem_of_mem_drop hc)

theorem head?_positional (hne : digits ≠ []) : (positional digits power).1.head? =
    if power < 0 then some '0' else digits.head? := by
  rw [positional]
  split
  next => rfl
  next =>
    obtain ⟨d, ds, rfl⟩ := List.exists_cons_of_ne_nil hne
    simp [List.rightpad]

theorem positional_ne_nil (hne : digits ≠ []) : (positional digits power).1 ≠ [] := by
  intro h
  have hhead := head?_positional power hne
  rw [h] at hhead
  split at hhead
  · cases hhead
  · exact hne (List.head?_eq_none_iff.1 hhead.symm)

theorem regular_ofDigits (style : FloatStyle) (negative : Bool) (hne : digits ≠ [])
    (hdigits : ∀ c ∈ digits, c.isDigit) :
    (ofDigits style negative digits power).Regular := by
  have hfraction {digits : List Char} (h : ∀ c ∈ digits, c.isDigit) :
      ∀ ds ∈ fraction? digits, ∀ c ∈ ds, c.isDigit := by
    intro ds hds
    rw [fraction?] at hds
    split at hds <;> cases hds
    exact h
  have hsign : ∀ c ∈ (if negative then some '-' else none : Option Char), c = '-' ∨ c = '+' := by
    cases negative
    · nofun
    · rintro c ⟨⟩
      exact .inl rfl
  rw [ofDigits]
  split
  next =>
    have hpositional := fun c => isDigit_of_mem_positional (c := c) power hdigits
    refine ⟨hsign, positional_ne_nil power hne, fun c hc => (hpositional c).1 hc,
      hfraction fun c hc => ?_⟩
    split at hc
    · rw [List.mem_singleton.1 hc]
      rfl
    · exact (hpositional c).2 hc
  next =>
    refine ⟨hsign, ?_, fun c hc => hdigits c (List.mem_of_mem_take hc), hfraction ?_⟩
    · obtain ⟨d, ds, rfl⟩ := List.exists_cons_of_ne_nil hne
      nofun
    · exact fun c hc => hdigits c (List.mem_of_mem_drop hc)

theorem isStrict_of_whole {n : Numeral} (hsign : n.sign ≠ some '+')
    (hfraction : n.fraction ≠ some []) (hne : n.whole ≠ [])
    (hzero : n.whole.head? = some '0' → n.whole = ['0']) : Json.isStrict n := by
  obtain ⟨d, ds, hwhole⟩ := List.exists_cons_of_ne_nil hne
  rw [hwhole] at hzero
  rw [Json.isStrict, hwhole]
  simp only [hsign, hfraction, ne_eq, not_false_eq_true, decide_true, Bool.true_and]
  split
  next h => cases h
  next h =>
    cases h
    rw [List.isEmpty_iff]
    exact (List.cons.inj (hzero rfl)).2
  next => rfl

/-- The only digits that begin with a zero are those of zero itself, which counts ones. -/
theorem isStrict_ofDigits (style : FloatStyle) (negative : Bool) (hne : digits ≠ [])
    (hzero : digits.head? = some '0' → digits = ['0'] ∧ power = 0) :
    Json.isStrict (ofDigits style negative digits power) := by
  have hsign : (if negative then some '-' else none : Option Char) ≠ some '+' := by
    cases negative <;> decide
  have hfraction (digits : List Char) : fraction? digits ≠ some [] := by
    rw [fraction?]
    split
    next => nofun
    next h => simpa using h
  rw [ofDigits]
  split
  next =>
    refine isStrict_of_whole hsign (hfraction _) (positional_ne_nil power hne) fun hhead => ?_
    change (positional digits power).1.head? = some '0' at hhead
    change (positional digits power).1 = ['0']
    rw [head?_positional power hne] at hhead
    split at hhead
    next h => rw [positional, if_pos h]
    next =>
      obtain ⟨rfl, rfl⟩ := hzero hhead
      rfl
  next =>
    obtain ⟨d, ds, rfl⟩ := List.exists_cons_of_ne_nil hne
    refine isStrict_of_whole hsign (hfraction _) (by simp) fun hhead => ?_
    rw [(hzero hhead).1]
    rfl

end Numeral

end StoryCodec
