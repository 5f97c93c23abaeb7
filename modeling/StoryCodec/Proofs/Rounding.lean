import StoryCodec.Numeral.Shortest
import Mathlib.Data.Int.Log
import Mathlib.Data.Rat.Floor
import Mathlib.Algebra.Order.Floor.Semifield
import Mathlib.Algebra.Order.Field.Power
import Mathlib.Tactic.FieldSimp
import Mathlib.Tactic.Positivity
import Mathlib.Tactic.Ring
import Mathlib.Tactic.Linarith

namespace StoryCodec

/-- The natural number nearest to a rational; of two equally near ones, the even one. -/
def roundEven (q : ℚ) : ℕ :=
  if 2 * (q - ⌊q⌋₊) < 1 ∨ (2 * (q - ⌊q⌋₊) = 1 ∧ ⌊q⌋₊ % 2 = 0) then ⌊q⌋₊ else ⌊q⌋₊ + 1

theorem roundDiv_eq_roundEven (num : ℕ) {den : ℕ} (h : 0 < den) :
    roundDiv num den = roundEven (num / den) := by
  have hden : (0 : ℚ) < den := by exact_mod_cast h
  have hfloor : ⌊(num : ℚ) / den⌋₊ = num / den := Nat.floor_div_eq_div num den
  have hrest : 2 * ((num : ℚ) / den - (num / den : ℕ)) = (2 * (num % den) : ℕ) / den := by
    have hsplit : (num : ℚ) = den * (num / den : ℕ) + (num % den : ℕ) := by
      exact_mod_cast (Nat.div_add_mod num den).symm
    rw [Nat.cast_mul, Nat.cast_two]
    field_simp
    linarith
  have hlt : ((2 * (num % den) : ℕ) : ℚ) / den < 1 ↔ 2 * (num % den) < den := by
    rw [div_lt_one hden, Nat.cast_lt]
  have heq : ((2 * (num % den) : ℕ) : ℚ) / den = 1 ↔ 2 * (num % den) = den := by
    rw [div_eq_one_iff_eq hden.ne', Nat.cast_inj]
  simp only [roundDiv, roundEven, hfloor, hrest, hlt, heq]

theorem roundEven_natCast (n : ℕ) : roundEven n = n := by
  simp [roundEven]

theorem le_roundEven {n : ℕ} {q : ℚ} (h : n ≤ q) : n ≤ roundEven q := by
  have hfloor : n ≤ ⌊q⌋₊ := Nat.le_floor h
  rw [roundEven]
  split <;> omega

theorem roundEven_eq_zero {q : ℚ} (h : 2 * q < 1) : roundEven q = 0 := by
  have hfloor : ⌊q⌋₊ = 0 := Nat.floor_eq_zero.2 (by linarith)
  simp [roundEven, hfloor, h]

theorem scaleDown_pos {base den : ℕ} (hbase : 0 < base) (num : ℕ) (h : 0 < den) (power : Int) :
    0 < (scaleDown base num den power).2 := by
  rw [scaleDown]
  split
  · exact Nat.mul_pos h (Nat.pow_pos hbase)
  · exact h

theorem scaleDown_ratio (base : ℕ) (hbase : 0 < base) (num den : ℕ) (power : Int) :
    ((scaleDown base num den power).1 : ℚ) / (scaleDown base num den power).2 =
      num / den / base ^ power := by
  have hbase : (base : ℚ) ≠ 0 := by exact_mod_cast hbase.ne'
  rw [scaleDown]
  split
  next h =>
    obtain ⟨n, rfl⟩ := Int.eq_ofNat_of_zero_le h
    simp [div_div]
  next h =>
    obtain ⟨n, hn⟩ := Int.eq_ofNat_of_zero_le (by omega : 0 ≤ -power)
    obtain rfl : power = -n := by omega
    simp [div_eq_mul_inv, mul_right_comm]

theorem zpow_log2_bounds {n : ℕ} (h : 0 < n) :
    (2 : ℚ) ^ (n.log2 : Int) ≤ n ∧ (n : ℚ) < 2 ^ ((n.log2 : Int) + 1) := by
  have lower : 2 ^ n.log2 ≤ n := Nat.log2_self_le h.ne'
  have upper : n < 2 ^ (n.log2 + 1) := Nat.lt_log2_self
  constructor
  · exact_mod_cast lower
  · exact_mod_cast upper

theorem log_eq_of_bounds {q : ℚ} (hq : 0 < q) {e : Int} (lower : (2 : ℚ) ^ e ≤ q)
    (upper : q < (2 : ℚ) ^ (e + 1)) : Int.log 2 q = e := by
  have hle := (Int.zpow_le_iff_le_log (b := 2) (by decide) hq).1 (by exact_mod_cast lower)
  have hlt := (Int.lt_zpow_iff_log_lt (b := 2) (by decide) hq).1 (by exact_mod_cast upper)
  omega

theorem leadingBit_eq_log {num den : ℕ} (hnum : 0 < num) (hden : 0 < den) :
    leadingBit num den = Int.log 2 ((num : ℚ) / den) := by
  have hq : (0 : ℚ) < num / den := by positivity
  obtain ⟨numLower, numUpper⟩ := zpow_log2_bounds hnum
  obtain ⟨denLower, denUpper⟩ := zpow_log2_bounds hden
  set guess : Int := num.log2 - den.log2 with hguess
  have lower : (2 : ℚ) ^ (guess - 1) ≤ num / den := by
    rw [le_div_iff₀ (by positivity)]
    calc (2 : ℚ) ^ (guess - 1) * den ≤ 2 ^ (guess - 1) * 2 ^ ((den.log2 : Int) + 1) := by gcongr
      _ = 2 ^ (num.log2 : Int) := by rw [← zpow_add₀ (by norm_num)]; congr 1; omega
      _ ≤ num := numLower
  have upper : (num : ℚ) / den < 2 ^ (guess + 1) := by
    rw [div_lt_iff₀ (by positivity)]
    calc (num : ℚ) < 2 ^ ((num.log2 : Int) + 1) := numUpper
      _ = 2 ^ (guess + 1) * 2 ^ (den.log2 : Int) := by
        rw [← zpow_add₀ (by norm_num)]
        congr 1
        omega
      _ ≤ 2 ^ (guess + 1) * den := by gcongr
  have hscale : (scaleDown 2 num den guess).2 ≤ (scaleDown 2 num den guess).1 ↔
      (2 : ℚ) ^ guess ≤ num / den := by
    have hpos : (0 : ℚ) < (scaleDown 2 num den guess).2 := by
      exact_mod_cast scaleDown_pos (by decide) num hden guess
    have hratio := scaleDown_ratio 2 (by decide) num den guess
    rw [← Nat.cast_le (α := ℚ), ← one_le_div hpos, hratio, one_le_div (by positivity)]
    norm_cast
  rw [leadingBit]
  simp only [← hguess]
  split
  next h => exact (log_eq_of_bounds hq (hscale.1 h) upper).symm
  next h =>
    have hlt := not_le.1 fun hle => h (hscale.2 hle)
    exact (log_eq_of_bounds hq lower (by rwa [sub_add_cancel])).symm

namespace Binary64

/-- The power of two that counts one in the last place of the significand near a rational. -/
def place (q : ℚ) : Int :=
  if q = 0 then -1074 else max (Int.log 2 q - 52) (-1074)

/-- The binary64 number nearest to a rational, which is given with its sign apart. -/
def round (negative : Bool) (q : ℚ) : Binary64 :=
  .ofMagnitude negative (roundEven (q / 2 ^ place q) + (place q + 1074).toNat * binade)

theorem nearest_eq_round (negative : Bool) (num : ℕ) {den : ℕ} (h : 0 < den) :
    nearest negative num den = round negative (num / den) := by
  have hplace : lastPlace num den = place (num / den) := by
    rw [lastPlace, place]
    by_cases hnum : num = 0
    · simp [hnum]
    · have hden : den ≠ 0 := h.ne'
      rw [if_neg hnum, if_neg (by simp [hnum, hden]),
        leadingBit_eq_log (Nat.pos_of_ne_zero hnum) h]
  have hscaled := scaleDown_ratio 2 (by decide) num den (place (num / den))
  have hpos := scaleDown_pos two_pos num h (place (num / den))
  rw [nearest, round, hplace]
  simp only [roundDiv_eq_roundEven _ hpos, hscaled, Nat.cast_ofNat]

theorem round_of_le {q : ℚ} (h : 2 ^ (1024 : Int) ≤ q) (negative : Bool) :
    round negative q = .infinite negative := by
  have hq : 0 < q := lt_of_lt_of_le (by positivity) h
  have hlog : 1024 ≤ Int.log 2 q :=
    (Int.zpow_le_iff_le_log (b := 2) (by decide) hq).1 (by exact_mod_cast h)
  have hplace : place q = Int.log 2 q - 52 := by
    rw [place, if_neg hq.ne']
    omega
  have hsignificand : 2 ^ 52 ≤ roundEven (q / 2 ^ place q) := by
    apply le_roundEven
    rw [le_div_iff₀ (by positivity), hplace]
    have hself := Int.zpow_log_le_self (b := 2) (by decide) hq
    calc ((2 ^ 52 : ℕ) : ℚ) * 2 ^ (Int.log 2 q - 52) = 2 ^ Int.log 2 q := by
          rw [Nat.cast_pow, Nat.cast_two, ← zpow_natCast, ← zpow_add₀ (by norm_num)]
          congr 1
          omega
      _ ≤ q := by exact_mod_cast hself
  rw [round, ofMagnitude, dif_neg]
  rw [not_lt, finiteMagnitudes, binade]
  omega

theorem round_of_lt {q : ℚ} (hq : 0 ≤ q) (h : q < 2 ^ (-1075 : Int)) (negative : Bool) :
    round negative q = .finite (.zero negative) := by
  have hplace : place q = -1074 := by
    rw [place]
    split
    next => rfl
    next hne =>
      have hpos : 0 < q := lt_of_le_of_ne hq (Ne.symm hne)
      have hlog : Int.log 2 q < -1075 :=
        (Int.lt_zpow_iff_log_lt (b := 2) (by decide) hpos).1 (by exact_mod_cast h)
      omega
  have hzero : roundEven (q / 2 ^ place q) = 0 := by
    apply roundEven_eq_zero
    rw [hplace, ← mul_div_assoc, div_lt_one (by positivity)]
    calc 2 * q < 2 * 2 ^ (-1075 : Int) := by gcongr
      _ = 2 ^ (-1074 : Int) := by
        rw [← zpow_one_add₀ (by norm_num)]
        norm_num
  rw [round, hzero, hplace]
  rfl

end Binary64

namespace FiniteBinary64

/-- The rational that a finite number stands for, its sign apart. -/
def value (x : FiniteBinary64) : ℚ := x.significand * 2 ^ x.exponent

theorem ratio_pos (x : FiniteBinary64) : 0 < x.ratio.2 := by
  rw [ratio]
  split
  · exact Nat.one_pos
  · simp [Nat.shiftLeft_eq]

theorem ratio_eq_value (x : FiniteBinary64) : (x.ratio.1 : ℚ) / x.ratio.2 = x.value := by
  rw [ratio, value]
  split
  next h =>
    obtain ⟨n, hn⟩ := Int.eq_ofNat_of_zero_le h
    simp [hn, Nat.shiftLeft_eq]
  next h =>
    obtain ⟨n, hn⟩ := Int.eq_ofNat_of_zero_le (by omega : 0 ≤ -x.exponent)
    obtain hexponent : x.exponent = -n := by omega
    simp [hexponent, Nat.shiftLeft_eq, div_eq_mul_inv]

theorem exponent_eq (x : FiniteBinary64) :
    x.exponent = max (x.magnitude / 0x10000000000000 : ℕ) 1 - 1075 := rfl

theorem significand_eq (x : FiniteBinary64) : x.significand =
    if x.magnitude < 0x10000000000000 then x.magnitude
    else x.magnitude % 0x10000000000000 + 0x10000000000000 := rfl

theorem value_eq_zero_iff (x : FiniteBinary64) : x.value = 0 ↔ x.magnitude = 0 := by
  have hpower : (2 : ℚ) ^ x.exponent ≠ 0 := by positivity
  rw [value, mul_eq_zero, or_iff_left hpower, Nat.cast_eq_zero, significand_eq]
  split <;> omega

/-- One in the last place of a finite number is the power of two that multiplies its significand. -/
theorem place_value (x : FiniteBinary64) : Binary64.place x.value = x.exponent := by
  rw [Binary64.place]
  split
  next h =>
    have hm := x.value_eq_zero_iff.1 h
    rw [exponent_eq, hm]
    rfl
  next h =>
    have hm : x.magnitude ≠ 0 := fun hm => h (x.value_eq_zero_iff.2 hm)
    have hexponent := x.exponent_eq
    have hsignificand := x.significand_eq
    have hsig : 0 < x.significand := by
      rw [hsignificand]
      split <;> omega
    have hlog : Int.log 2 x.value = x.significand.log2 + x.exponent := by
      obtain ⟨lower, upper⟩ := zpow_log2_bounds hsig
      refine log_eq_of_bounds (by rw [value]; positivity) ?_ ?_
      · rw [value, zpow_add₀ (by norm_num)]
        gcongr
      · rw [value, add_right_comm, zpow_add₀ (by norm_num)]
        gcongr
    rw [hlog]
    by_cases hnormal : x.magnitude < 0x10000000000000
    · have hbits : x.significand.log2 < 52 := by
        rw [Nat.log2_lt hsig.ne', hsignificand, if_pos hnormal]
        exact hnormal
      omega
    · have hbits : x.significand.log2 = 52 := by
        rw [Nat.log2_eq_iff hsig.ne', hsignificand, if_neg hnormal]
        omega
      omega

/-- Nothing is nearer to a finite number than the number itself. -/
theorem round_value (x : FiniteBinary64) : Binary64.round x.negative x.value = .finite x := by
  have hround : roundEven (x.value / 2 ^ x.exponent) = x.significand := by
    rw [value, mul_div_cancel_right₀ _ (by positivity), roundEven_natCast]
  have hmagnitude : x.significand + (x.exponent + 1074).toNat * binade = x.magnitude := by
    rw [significand_eq, exponent_eq, binade]
    split <;> omega
  rw [Binary64.round, place_value, hround, hmagnitude, Binary64.ofMagnitude,
    dif_pos x.magnitude_lt]

end FiniteBinary64

namespace Decimal

/-- The rational that a decimal stands for, its sign apart. -/
def value (d : Decimal) : ℚ := d.digits * 10 ^ d.exponent

theorem le_value_of_lt {d : Decimal} (hd : d.digits ≠ 0) (h : 310 < d.exponent) :
    2 ^ (1024 : Int) ≤ d.value := by
  have hdigits : (1 : ℚ) ≤ d.digits := by exact_mod_cast Nat.one_le_iff_ne_zero.2 hd
  have hpowers : 2 ^ 1024 ≤ 10 ^ 310 := by decide +kernel
  calc (2 : ℚ) ^ (1024 : Int) ≤ 10 ^ (310 : Int) := by exact_mod_cast hpowers
    _ ≤ 10 ^ d.exponent := zpow_le_zpow_right₀ (by norm_num) h.le
    _ ≤ d.value := le_mul_of_one_le_left (by positivity) hdigits

theorem value_lt_of_lt {d : Decimal} (hd : d.digits ≠ 0)
    (h : (d.digits.log2 : Int) + 1100 < -3 * d.exponent) : d.value < 2 ^ (-1075 : Int) := by
  have hdigits := (zpow_log2_bounds (Nat.pos_of_ne_zero hd)).2
  -- A power of ten below one is at most the same power of eight.
  have hpower : (10 : ℚ) ^ d.exponent ≤ 2 ^ (3 * d.exponent) := by
    obtain ⟨n, hn⟩ := Int.eq_ofNat_of_zero_le (by omega : 0 ≤ -d.exponent)
    obtain hexponent : d.exponent = -n := by omega
    rw [zpow_mul, hexponent, zpow_neg, zpow_neg, zpow_natCast, zpow_natCast]
    exact inv_anti₀ (by positivity) (pow_le_pow_left₀ (by norm_num) (by norm_num) n)
  calc d.value < 2 ^ ((d.digits.log2 : Int) + 1) * 2 ^ (3 * d.exponent) :=
        mul_lt_mul hdigits hpower (by positivity) (by positivity)
    _ = 2 ^ ((d.digits.log2 : Int) + 1 + 3 * d.exponent) := (zpow_add₀ (by norm_num) _ _).symm
    _ ≤ 2 ^ (-1075 : Int) := zpow_le_zpow_right₀ (by norm_num) (by omega)

/-- How a decimal is split into digits and a power of ten does not matter to what is nearest. -/
theorem nearest_eq_round (d : Decimal) : d.nearest = Binary64.round d.negative d.value := by
  rw [nearest]
  split
  next hd =>
    have hvalue : d.value = 0 := by simp [value, hd]
    rw [hvalue, Binary64.round_of_lt le_rfl (by positivity)]
  next hd =>
    split
    next h => rw [Binary64.round_of_le (le_value_of_lt hd h)]
    next =>
      split
      next h =>
        rw [Binary64.round_of_lt (by rw [value]; positivity) (value_lt_of_lt hd h)]
      next =>
        have hpos : 0 < (scaleDown 10 d.digits 1 (-d.exponent)).2 :=
          scaleDown_pos (by decide) d.digits Nat.one_pos (-d.exponent)
        have hratio := scaleDown_ratio 10 (by decide) d.digits 1 (-d.exponent)
        have hvalue : d.value = d.digits / (1 : ℕ) / (10 : ℕ) ^ (-d.exponent) := by
          simp [value]
        rw [hvalue, ← hratio]
        exact Binary64.nearest_eq_round d.negative _ hpos

end Decimal

end StoryCodec
