import StoryCodec.Proofs.NumeralText

namespace StoryCodec

namespace FiniteBinary64

theorem exact_value (x : FiniteBinary64) : x.exact.value = x.value := by
  rw [exact]
  split
  next h =>
    obtain ⟨n, hn⟩ := Int.eq_ofNat_of_zero_le h
    simp [Decimal.value, value, hn, Nat.shiftLeft_eq]
  next h =>
    obtain ⟨n, hn⟩ := Int.eq_ofNat_of_zero_le (by omega : 0 ≤ -x.exponent)
    obtain hexponent : x.exponent = -n := by omega
    simp only [Decimal.value, value, hexponent, neg_neg, Int.toNat_natCast, zpow_neg, zpow_natCast]
    have hten : (10 : ℚ) ^ n = 5 ^ n * 2 ^ n := by
      rw [← mul_pow]
      norm_num
    have hfive : (Nat.pow 5 n : ℚ) = 5 ^ n := by exact_mod_cast rfl
    rw [hten, Nat.cast_mul, hfive]
    field_simp

/-- A decimal that reads back as the number, sign and all. -/
def ReadsAs (x : FiniteBinary64) (d : Decimal) : Prop :=
  d.nearest = .finite x ∧ d.negative = x.negative

theorem readsAs_onGrid {tie : Tie} {x : FiniteBinary64} {power : Int} {d : Decimal}
    (h : x.onGrid tie power = some d) : x.ReadsAs d := by
  have hpick {pair : Decimal × Decimal} {below above : Decimal}
      (h : (if pair.1.nearest = .finite x then some pair.1
        else if pair.2.nearest = .finite x then some pair.2 else none) = some d)
      (hpair : pair = (above, below) ∨ pair = (below, above))
      (hbelow : below.negative = x.negative) (habove : above.negative = x.negative) :
      x.ReadsAs d := by
    rw [ReadsAs]
    rcases hpair with rfl | rfl <;> grind
  rw [onGrid] at h
  exact hpick h (ite_eq_or_eq _ _ _) rfl rfl

/-- What is written for a number is nearest to no other. -/
theorem readsAs_shortest (tie : Tie) (x : FiniteBinary64) : x.ReadsAs (x.shortest tie) := by
  rw [shortest]
  split
  next h =>
    have hx : FiniteBinary64.zero x.negative = x := by
      obtain ⟨negative, magnitude, hmagnitude⟩ := x
      subst h
      rfl
    refine ⟨?_, rfl⟩
    rw [Decimal.nearest, if_pos rfl, hx]
  next h =>
    have hexact : x.ReadsAs x.exact := by
      have hnegative : x.exact.negative = x.negative := by
        rw [exact]
        split <;> rfl
      refine ⟨?_, hnegative⟩
      rw [Decimal.nearest_eq_round, exact_value, hnegative, round_value]
    have hgetD {found : Option Decimal} (h : ∀ d, found = some d → x.ReadsAs d) :
        x.ReadsAs (found.getD x.exact) := by
      cases found with
      | some d => exact h d rfl
      | none => exact hexact
    apply hgetD
    intro d hd
    obtain ⟨n, -, hgrid⟩ := List.exists_of_findSome?_eq_some hd
    exact readsAs_onGrid hgrid

theorem exponent_shortest_of_zero {tie : Tie} {x : FiniteBinary64}
    (h : (x.shortest tie).digits = 0) : (x.shortest tie).exponent = 0 := by
  obtain ⟨hnearest, -⟩ := readsAs_shortest tie x
  rw [Decimal.nearest, if_pos h, Binary64.finite.injEq] at hnearest
  rw [shortest, ← hnearest]
  rfl

end FiniteBinary64

namespace Json

theorem isNumeric_of_mem_text {n : Numeral} (h : n.Regular) {c : Char} (hc : c ∈ n.text) :
    isNumeric c := by
  have hdigit {c : Char} (h : c.isDigit) : isNumeric c := by simp [isNumeric, h]
  simp only [Numeral.text, List.mem_append] at hc
  rcases hc with hc | hc | hc | hc
  · rcases h.sign c (Option.mem_toList.1 hc) with rfl | rfl <;> rfl
  · exact hdigit (h.whole c hc)
  · cases hfraction : n.fraction with
    | none => simp [hfraction, Numeral.fractionText] at hc
    | some digits =>
        rw [hfraction] at hc
        rcases List.mem_cons.1 hc with rfl | hc
        · rfl
        · exact hdigit (h.fraction digits hfraction c hc)
  · cases hexponent : n.exponent with
    | none => simp [hexponent, Numeral.exponentText] at hc
    | some power =>
        rw [hexponent] at hc
        rcases List.mem_cons.1 hc with rfl | hc
        · rfl
        · rcases List.mem_cons.1 hc with rfl | hc
          · split <;> rfl
          · exact hdigit (isDigit_of_mem_toDigits hc)

theorem readNumber_text {n : Numeral} {number : Number} {rest : List Char} (h : n.Regular)
    (hstrict : isStrict n) (hnumber : Number.ofNumeral? n = some number)
    (hrest : Stops isNumeric rest) : readNumber (n.text ++ rest) = some (number, rest) := by
  have hall : ∀ c ∈ n.text, isNumeric c := fun c => isNumeric_of_mem_text h
  rw [readNumber, takeWhile_append_of_stops hall hrest, dropWhile_append_of_stops hall hrest,
    Numeral.read?_text h]
  simp [hstrict, hnumber]

/-- A numeral as numbers are written in JSON: digits for an integer, digits with a point or a power
of ten for a float. -/
def numeralOf : Number → Numeral
  | .int n _ _ => ⟨if n < 0 then some '-' else none, Nat.toDigits 10 n.natAbs, none, none⟩
  | .float x =>
    let decimal := x.shortest floatStyle.tie
    .ofDigits floatStyle x.negative decimal.significant.1 decimal.significant.2

theorem writeNumber_eq_text (n : Number) : writeNumber n = (numeralOf n).text := by
  cases n with
  | int n lower upper =>
      rw [writeNumber, writeInt, writeSign, numeralOf]
      by_cases h : n < 0 <;> simp [Numeral.text, Numeral.fractionText, Numeral.exponentText, h]
  | float x => exact Numeral.write_eq_text floatStyle x

theorem regular_numeralOf (n : Number) : (numeralOf n).Regular := by
  cases n with
  | int n lower upper =>
      refine ⟨?_, Nat.toDigits_ne_nil, fun c => isDigit_of_mem_toDigits, nofun⟩
      intro c hc
      obtain ⟨-, ⟨⟩⟩ := Option.ite_none_right_eq_some.1 hc
      exact .inl rfl
  | float x =>
      exact Numeral.regular_ofDigits _ _ _ (Decimal.significant_ne_nil _)
        fun c => Decimal.isDigit_of_mem_significant

theorem isStrict_numeralOf (n : Number) : isStrict (numeralOf n) := by
  cases n with
  | int n lower upper =>
      refine Numeral.isStrict_of_whole ?_ nofun Nat.toDigits_ne_nil fun hhead => ?_
      · intro hsign
        obtain ⟨-, ⟨⟩⟩ := Option.ite_none_right_eq_some.1 hsign
      · have hzero : n.natAbs = 0 := by
          by_contra hne
          exact head?_toDigits_ne (Nat.pos_of_ne_zero hne) hhead
        rw [numeralOf, hzero]
        rfl
  | float x =>
      refine Numeral.isStrict_ofDigits _ _ _ (Decimal.significant_ne_nil _) fun hhead => ?_
      have hzero : (x.shortest floatStyle.tie).digits = 0 := by
        by_contra hne
        exact Decimal.head?_significant_ne hne hhead
      rw [Decimal.significant_of_zero hzero, FiniteBinary64.exponent_shortest_of_zero hzero]
      exact ⟨rfl, rfl⟩

theorem integer?_numeralOf_int {n : Int} (lower : -0x8000000000000000 ≤ n)
    (upper : n < 0x10000000000000000) : (numeralOf (.int n lower upper)).integer? = some n := by
  rw [numeralOf, Numeral.integer?, if_pos ⟨Nat.toDigits_ne_nil, rfl, rfl⟩]
  congr 1
  apply Numeral.ofSign_toDigits
  split <;> simp [*]

/-- The point or the power of ten that a float is written with keeps it from being an integer. -/
theorem integer?_numeralOf_float (x : FiniteBinary64) : (numeralOf (.float x)).integer? = none := by
  rw [numeralOf, Numeral.integer?, Numeral.ofDigits]
  apply if_neg
  rintro ⟨-, hfraction, hexponent⟩
  split at hfraction
  next hplain =>
    have hne (fraction : List Char) :
        Numeral.fraction? (if fraction.isEmpty && floatStyle.keepsPoint then ['0'] else fraction) ≠
          none := by
      cases fraction <;> simp [Numeral.fraction?, floatStyle]
    exact hne _ hfraction
  next hplain =>
    rw [if_neg hplain] at hexponent
    cases hexponent

theorem nearest_numeralOf (x : FiniteBinary64) :
    (numeralOf (.float x)).decimal.nearest = .finite x := by
  obtain ⟨hnearest, hnegative⟩ := FiniteBinary64.readsAs_shortest floatStyle.tie x
  have hvalue : (numeralOf (.float x)).decimal.value = (x.shortest floatStyle.tie).value := by
    rw [numeralOf, Numeral.decimal_ofDigits _ _ _ (Decimal.significant_ne_nil _),
      ← Decimal.value_significant]
  have hsign : (numeralOf (.float x)).decimal.negative = (x.shortest floatStyle.tie).negative := by
    rw [hnegative]
    exact Numeral.negative_ofDigits _ _ _ _
  rw [Decimal.nearest_eq_round, hvalue, hsign, ← Decimal.nearest_eq_round, hnearest]

theorem ofNumeral?_numeralOf (n : Number) : Number.ofNumeral? (numeralOf n) = some n := by
  cases n with
  | int n lower upper =>
      have hzero : ¬(n = 0 ∧ (numeralOf (.int n lower upper)).negative) := by
        rintro ⟨rfl, h⟩
        cases h
      simp only [Number.ofNumeral?, integer?_numeralOf_int lower upper]
      rw [dif_pos ⟨lower, upper, hzero⟩]
  | float x => simp only [Number.ofNumeral?, integer?_numeralOf_float, nearest_numeralOf]

theorem readNumber_writeNumber (n : Number) {rest : List Char} (hrest : Stops isNumeric rest) :
    readNumber (writeNumber n ++ rest) = some (n, rest) := by
  rw [writeNumber_eq_text]
  exact readNumber_text (regular_numeralOf n) (isStrict_numeralOf n) (ofNumeral?_numeralOf n) hrest

end Json

end StoryCodec
