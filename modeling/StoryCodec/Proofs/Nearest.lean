import StoryCodec.Proofs.Integers
import Mathlib.Data.Int.ConditionallyCompleteOrder

namespace StoryCodec

namespace Binary64

/-- Halfway from the greatest finite number to the power of two that would come next. -/
def overflow : ℚ := 2 ^ 1024 - 2 ^ 970

/-- The rational of a magnitude field, also of a field that is too large for a finite number. -/
def gridValue (m : Nat) : ℚ :=
  ((if m < binade then m else m % binade + binade : Nat) : ℚ) *
    2 ^ (max (m / binade : Nat) 1 - 1075 : Int)

/-- A magnitude field may be taken apart into the significand and a count of places also where the
significand has been rounded up to the next power of two. -/
theorem gridValue_eq {r k : Nat} (upper : r ≤ 2 * binade) (lower : k = 0 ∨ binade ≤ r) :
    gridValue (r + k * binade) = r * 2 ^ ((k : Int) - 1074) := by
  rw [gridValue, binade] at *
  generalize hm : r + k * 0x10000000000000 = m
  rcases upper.lt_or_eq with hlt | rfl
  · have hsignificand : (if m < 0x10000000000000 then m
        else m % 0x10000000000000 + 0x10000000000000) = r := by
      split <;> omega
    have hexponent : (max (m / 0x10000000000000 : Nat) 1 - 1075 : Int) = k - 1074 := by omega
    rw [hsignificand, hexponent]
  · have hsignificand : (if m < 0x10000000000000 then m
        else m % 0x10000000000000 + 0x10000000000000) = 0x10000000000000 := by
      split <;> omega
    have hexponent : (max (m / 0x10000000000000 : Nat) 1 - 1075 : Int) = 1 + (k - 1074) := by omega
    rw [hsignificand, hexponent, zpow_one_add₀ (by norm_num)]
    push_cast
    ring

theorem exists_significand (m : Nat) :
    ∃ r k, m = r + k * binade ∧ r < 2 * binade ∧ (k = 0 ∨ binade ≤ r) := by
  by_cases hm : m < binade
  · exact ⟨m, 0, by omega, by omega, .inl rfl⟩
  · rw [binade] at *
    refine ⟨m % 0x10000000000000 + 0x10000000000000, m / 0x10000000000000 - 1, ?_, ?_, .inr ?_⟩ <;>
      omega

theorem gridValue_strictMono : StrictMono gridValue := by
  refine strictMono_nat_of_lt_succ fun m => ?_
  obtain ⟨r, k, rfl, upper, lower⟩ := exists_significand m
  rw [gridValue_eq upper.le lower, add_right_comm,
    gridValue_eq (Nat.succ_le_of_lt upper) (lower.imp_right Nat.le_succ_of_le)]
  gcongr
  exact Nat.lt_succ_self r

theorem gridValue_zero : gridValue 0 = 0 := by
  simp [gridValue, binade]

theorem two_pow_lt_overflow : 2 ^ 970 < overflow := by
  have hpower : (2 : ℚ) ^ 1024 = 2 ^ 54 * 2 ^ 970 := pow_add 2 54 970
  have hpos : (0 : ℚ) < 2 ^ 970 := by positivity
  rw [overflow, hpower]
  generalize (2 : ℚ) ^ 970 = unit at hpos ⊢
  linarith

/-- A significand of 53 bits is kept, and fewer only at the least place. -/
theorem place_bounds {q : ℚ} (hq : 0 ≤ q) : -1074 ≤ place q ∧ q / 2 ^ place q < 2 * binade ∧
    (place q = -1074 ∨ binade ≤ q / 2 ^ place q) := by
  rw [place]
  split
  next hzero => simp [hzero, binade]
  next hne =>
    have hpos : 0 < q := lt_of_le_of_ne hq (Ne.symm hne)
    have hupper : q < 2 ^ (Int.log 2 q + 1) := by
      exact_mod_cast Int.lt_zpow_succ_log_self (b := 2) (by decide) q
    have hlower : 2 ^ Int.log 2 q ≤ q := by
      exact_mod_cast Int.zpow_log_le_self (b := 2) (by decide) hpos
    refine ⟨le_max_right _ _, ?_, ?_⟩
    · rw [div_lt_iff₀ (by positivity)]
      calc q < 2 ^ (Int.log 2 q + 1) := hupper
        _ ≤ 2 ^ ((53 : Int) + max (Int.log 2 q - 52) (-1074)) :=
          zpow_le_zpow_right₀ (by norm_num) (by omega)
        _ = 2 * binade * 2 ^ max (Int.log 2 q - 52) (-1074) := by
          rw [zpow_add₀ (by norm_num), binade]
          norm_num
    · rcases le_total (Int.log 2 q - 52) (-1074) with hle | hle
      · exact .inl (max_eq_right hle)
      · right
        rw [max_eq_left hle, le_div_iff₀ (by positivity)]
        calc (binade : ℚ) * 2 ^ (Int.log 2 q - 52) = 2 ^ Int.log 2 q := by
              rw [zpow_sub₀ (by norm_num), binade]
              norm_num
              ring
          _ ≤ q := hlower

/-- The magnitude field that a rational is rounded to. -/
def rounded (q : ℚ) : Nat :=
  roundEven (q / 2 ^ place q) + (place q + 1074).toNat * binade

theorem round_eq (negative : Bool) (q : ℚ) :
    round negative q = .ofMagnitude negative (rounded q) := by
  rw [round, rounded]

theorem ofMagnitude_eq_finite_iff {negative : Bool} {m : Nat} {x : FiniteBinary64} :
    ofMagnitude negative m = .finite x ↔ x.negative = negative ∧ x.magnitude = m := by
  obtain ⟨s, n, hn⟩ := x
  rw [ofMagnitude]
  split
  next => simp [eq_comm]
  next hm =>
    constructor
    · rintro ⟨⟩
    · rintro ⟨-, rfl⟩
      exact absurd hn hm

/-- Rounding goes to one of the two fields next to a rational, to the upper one from halfway
between them if the lower one is odd. -/
theorem exists_rounded {q : ℚ} (hq : 0 ≤ q) : ∃ m, gridValue m ≤ q ∧ q < gridValue (m + 1) ∧
    rounded q = if 2 * q < gridValue m + gridValue (m + 1) ∨
      (2 * q = gridValue m + gridValue (m + 1) ∧ m % 2 = 0) then m else m + 1 := by
  obtain ⟨hplace, hupper, hlower⟩ := place_bounds hq
  obtain ⟨k, hk⟩ := Int.eq_ofNat_of_zero_le (by omega : 0 ≤ place q + 1074)
  have hpower : place q = (k : Int) - 1074 := by omega
  have hunit : (0 : ℚ) < 2 ^ place q := by positivity
  -- Counted in the last place, the two fields next to `q` are the whole part and one more.
  set r := ⌊q / 2 ^ place q⌋₊ with hr
  have hquot : 0 ≤ q / 2 ^ place q := by positivity
  have hfloor : (r : ℚ) ≤ q / 2 ^ place q := Nat.floor_le hquot
  have hceil : q / 2 ^ place q < r + 1 := Nat.lt_floor_add_one _
  have hrupper : r < 2 * binade := (Nat.floor_lt hquot).2 (by exact_mod_cast hupper)
  have hrlower : k = 0 ∨ binade ≤ r :=
    hlower.imp (fun h => by omega) fun h => Nat.le_floor h
  have hbelow : gridValue (r + k * binade) = r * 2 ^ place q := by
    rw [gridValue_eq hrupper.le hrlower, hpower]
  have habove : gridValue (r + k * binade + 1) = (r + 1) * 2 ^ place q := by
    rw [add_right_comm, gridValue_eq hrupper (hrlower.imp_right Nat.le_succ_of_le), hpower]
    push_cast
    rfl
  have hsplit : q = q / 2 ^ place q * 2 ^ place q := (div_mul_cancel₀ q hunit.ne').symm
  refine ⟨r + k * binade, ?_, ?_, ?_⟩
  · rw [hbelow]
    exact (le_div_iff₀ hunit).1 hfloor
  · rw [habove]
    exact (div_lt_iff₀ hunit).1 hceil
  · have hlt : 2 * (q / 2 ^ place q - r) < 1 ↔
        2 * q < gridValue (r + k * binade) + gridValue (r + k * binade + 1) := by
      rw [hbelow, habove, ← mul_lt_mul_iff_left₀ hunit]
      constructor <;> intro h <;> linarith
    have heq : 2 * (q / 2 ^ place q - r) = 1 ↔
        2 * q = gridValue (r + k * binade) + gridValue (r + k * binade + 1) := by
      rw [hbelow, habove, ← mul_left_inj' hunit.ne']
      constructor <;> intro h <;> linarith
    have hparity : (r + k * binade) % 2 = r % 2 := by
      rw [binade]
      omega
    rw [rounded, roundEven, hk, Int.toNat_natCast]
    simp only [← hr, hlt, heq, hparity]
    split <;> omega

/-- The grid of both signs. -/
def signedGrid (i : Int) : ℚ :=
  if i < 0 then -gridValue i.natAbs else gridValue i.natAbs

theorem signedGrid_natCast (m : Nat) : signedGrid m = gridValue m := by
  rw [signedGrid, if_neg (by omega), Int.natAbs_natCast]

theorem signedGrid_neg (i : Int) : signedGrid (-i) = -signedGrid i := by
  rw [signedGrid, signedGrid, Int.natAbs_neg]
  rcases lt_trichotomy i 0 with h | rfl | h
  · rw [if_neg (by omega), if_pos h, neg_neg]
  · simp [gridValue_zero]
  · rw [if_pos (by omega), if_neg (by omega)]

theorem signedGrid_strictMono : StrictMono signedGrid := by
  refine strictMono_int_of_lt_succ fun i => ?_
  obtain ⟨m, rfl | rfl⟩ := i.eq_nat_or_neg
  · rw [← Nat.cast_succ, signedGrid_natCast, signedGrid_natCast]
    exact gridValue_strictMono (Nat.lt_succ_self m)
  · cases m with
    | zero =>
        have hlt := gridValue_strictMono one_pos
        rw [← signedGrid_natCast, ← signedGrid_natCast] at hlt
        simpa using hlt
    | succ m =>
        have hlt := gridValue_strictMono (Nat.lt_succ_self m)
        rw [← signedGrid_natCast, ← signedGrid_natCast, ← neg_lt_neg_iff, ← signedGrid_neg,
          ← signedGrid_neg] at hlt
        convert hlt using 2
        push_cast
        ring

/-- The overflow bound is halfway between the greatest finite number and what would come next. -/
theorem signedGrid_add_eq_overflow :
    signedGrid (finiteMagnitudes - 1 : Nat) + signedGrid finiteMagnitudes = 2 * overflow := by
  have hlast := gridValue_eq (r := 2 * binade - 1) (k := 2045) (by decide) (.inr (by decide))
  have hfirst := gridValue_eq (r := binade) (k := 2046) (by decide) (.inr (by decide))
  have hlastField : 2 * binade - 1 + 2045 * binade = finiteMagnitudes - 1 := by decide
  have hfirstField : binade + 2046 * binade = finiteMagnitudes := by decide
  have hpower (n : Nat) : (2 : ℚ) ^ (n + 970) = 2 ^ n * 2 ^ 970 := pow_add 2 n 970
  rw [hlastField] at hlast
  rw [hfirstField] at hfirst
  rw [signedGrid_natCast, signedGrid_natCast, hlast, hfirst, overflow, binade]
  norm_num
  rw [hpower 1, hpower 2, hpower 54]
  generalize (2 : ℚ) ^ 970 = unit
  ring

/-- What is rounded to a number lies between the midpoints to its neighbours, and on one of them
only if the number is even. -/
structure InCell (i : Int) (q : ℚ) : Prop where
  lower : signedGrid (i - 1) + signedGrid i ≤ 2 * q
  upper : 2 * q ≤ signedGrid i + signedGrid (i + 1)
  tie : 2 * q = signedGrid (i - 1) + signedGrid i ∨ 2 * q = signedGrid i + signedGrid (i + 1) →
    i % 2 = 0

theorem InCell.neg {i : Int} {q : ℚ} (h : InCell i q) : InCell (-i) (-q) := by
  have hbelow : signedGrid (-i - 1) = -signedGrid (i + 1) := by
    rw [← signedGrid_neg, neg_add']
  have habove : signedGrid (-i + 1) = -signedGrid (i - 1) := by
    rw [← signedGrid_neg, neg_sub, sub_eq_neg_add]
  have hlower := h.lower
  have hupper := h.upper
  constructor
  · rw [hbelow, signedGrid_neg]
    linarith
  · rw [habove, signedGrid_neg]
    linarith
  · rw [hbelow, habove, signedGrid_neg]
    intro heq
    have heven := h.tie (heq.symm.imp (fun h => by linarith) fun h => by linarith)
    omega

theorem InCell.unique {i j : Int} {q : ℚ} (hi : InCell i q) (hj : InCell j q) : i = j := by
  wlog hlt : i < j generalizing i j
  · rcases (not_lt.1 hlt).lt_or_eq with h | h
    · exact (this hj hi h).symm
    · exact h.symm
  have hupper := hi.upper
  have hlower := hj.lower
  have hnext := signedGrid_strictMono.monotone (by omega : i + 1 ≤ j)
  have hprevious := signedGrid_strictMono.monotone (by omega : i ≤ j - 1)
  -- Both cells end at one midpoint, so they are neighbours, and both would be even.
  have hi := hi.tie (.inr (by linarith))
  have hj := hj.tie (.inl (by linarith))
  have hadjacent : i + 1 = j := signedGrid_strictMono.injective (by linarith)
  omega

theorem inCell_rounded {q : ℚ} (hq : 0 ≤ q) : InCell (rounded q) q := by
  obtain ⟨m, hlower, hupper, hrounded⟩ := exists_rounded hq
  rw [← signedGrid_natCast] at hlower
  rw [← signedGrid_natCast, Nat.cast_succ] at hupper
  simp only [← signedGrid_natCast, Nat.cast_succ] at hrounded
  have hprevious := signedGrid_strictMono (by omega : (m : Int) - 1 < m)
  have hnext := signedGrid_strictMono (by omega : (m : Int) + 1 < m + 1 + 1)
  rw [hrounded]
  split
  next hdown =>
    refine ⟨by linarith, hdown.elim le_of_lt fun h => h.1.le, fun htie => ?_⟩
    have heven := (hdown.resolve_left fun h => by rcases htie with heq | heq <;> linarith).2
    omega
  next hup =>
    rw [not_or, not_lt, not_and] at hup
    rw [Nat.cast_succ]
    refine ⟨by rw [add_sub_cancel_right]; exact hup.1, by linarith, fun htie => ?_⟩
    rw [add_sub_cancel_right] at htie
    have hodd := hup.2 (htie.resolve_right fun h => by linarith)
    omega

/-- The overflow bound itself is no longer rounded to the greatest finite number, which is odd. -/
theorem InCell.lt_overflow_iff {i : Int} {q : ℚ} (h : InCell i q) :
    q < overflow ↔ i < finiteMagnitudes := by
  have hmono := signedGrid_strictMono.monotone
  have hpos : 0 < finiteMagnitudes := by decide
  have hsum := signedGrid_add_eq_overflow
  constructor
  · intro hq
    by_contra hi
    have hself := hmono (by omega : (finiteMagnitudes : Int) ≤ i)
    have hprevious := hmono (by omega : ((finiteMagnitudes - 1 : Nat) : Int) ≤ i - 1)
    linarith [h.lower]
  · intro hi
    have hself := hmono (by omega : i ≤ (finiteMagnitudes - 1 : Nat))
    have hnext := hmono (by omega : i + 1 ≤ finiteMagnitudes)
    have hupper := h.upper
    refine lt_of_le_of_ne (by linarith) fun heq => ?_
    have heven := h.tie (.inr (by linarith))
    have hlast : i = (finiteMagnitudes - 1 : Nat) := signedGrid_strictMono.injective (by linarith)
    rw [hlast] at heven
    exact absurd heven (by decide)

end Binary64

namespace FiniteBinary64

open Binary64

/-- Where a number stands in the order of all of them; the two zeros stand in one place. -/
def index (x : FiniteBinary64) : Int :=
  if x.negative then -x.magnitude else x.magnitude

theorem signed_eq (x : FiniteBinary64) : x.signed = signedGrid x.index := by
  have hvalue : x.value = gridValue x.magnitude := rfl
  rw [signed, index, hvalue, ← signedGrid_natCast]
  split
  · rw [signedGrid_neg]
  · rfl

theorem signed_inj {x y : FiniteBinary64} : x.signed = y.signed ↔ x.index = y.index := by
  rw [signed_eq, signed_eq, signedGrid_strictMono.injective.eq_iff]

theorem index_bounds (x : FiniteBinary64) :
    -(finiteMagnitudes : Int) < x.index ∧ x.index < finiteMagnitudes := by
  have hlt := x.magnitude_lt
  rw [index]
  split <;> omega

theorem exists_index {i : Int} (lower : -(finiteMagnitudes : Int) < i)
    (upper : i < finiteMagnitudes) : ∃ x : FiniteBinary64, x.index = i := by
  refine ⟨⟨i < 0, i.natAbs, by omega⟩, ?_⟩
  rw [index]
  simp only [decide_eq_true_eq]
  split <;> omega

theorem even_index_iff (x : FiniteBinary64) : x.index % 2 = 0 ↔ x.significand % 2 = 0 := by
  rw [significand_eq, index]
  split <;> split <;> omega

/-- The finite number nearest to a rational; of two equally near ones, the one of even significand.
From the overflow bound on there is none, for the power of two that would come next is as near. -/
structure Nearest (q : ℚ) (x : FiniteBinary64) : Prop where
  bounded : |q| < overflow
  nearest : ∀ y : FiniteBinary64, |q - x.signed| ≤ |q - y.signed|
  even : ∀ y : FiniteBinary64, |q - y.signed| = |q - x.signed| → y.signed ≠ x.signed →
    x.significand % 2 = 0

theorem abs_sub_le_abs_sub_left {q a b : ℚ} (h : a < b) : |q - a| ≤ |q - b| ↔ 2 * q ≤ a + b := by
  have hfactor : (q - b) ^ 2 - (q - a) ^ 2 = (b - a) * (a + b - 2 * q) := by ring
  rw [← sq_le_sq, ← sub_nonneg, hfactor, mul_nonneg_iff_of_pos_left (sub_pos.2 h), sub_nonneg]

theorem abs_sub_le_abs_sub_right {q a b : ℚ} (h : a < b) : |q - b| ≤ |q - a| ↔ a + b ≤ 2 * q := by
  have hfactor : (q - a) ^ 2 - (q - b) ^ 2 = (b - a) * (2 * q - (a + b)) := by ring
  rw [← sq_le_sq, ← sub_nonneg, hfactor, mul_nonneg_iff_of_pos_left (sub_pos.2 h), sub_nonneg]

theorem abs_sub_eq_abs_sub {q a b : ℚ} (h : a ≠ b) : |q - a| = |q - b| ↔ 2 * q = a + b := by
  rw [abs_eq_abs, or_iff_right fun heq => h (by linarith)]
  constructor <;> intro heq <;> linarith

variable {q : ℚ} {x y : FiniteBinary64}

/-- A nearest number is not past the midpoint to any number above it. -/
theorem Nearest.le_of_lt (h : Nearest q x) (hlt : x.index < y.index) :
    2 * q ≤ signedGrid x.index + signedGrid y.index ∧
      (2 * q = signedGrid x.index + signedGrid y.index → x.index % 2 = 0) := by
  have hsigned := signedGrid_strictMono hlt
  rw [← signed_eq, ← signed_eq] at hsigned ⊢
  refine ⟨(abs_sub_le_abs_sub_left hsigned).1 (h.nearest y), fun heq => x.even_index_iff.2 ?_⟩
  exact h.even y ((abs_sub_eq_abs_sub hsigned.ne).2 heq).symm hsigned.ne'

theorem Nearest.ge_of_lt (h : Nearest q x) (hlt : y.index < x.index) :
    signedGrid y.index + signedGrid x.index ≤ 2 * q ∧
      (2 * q = signedGrid y.index + signedGrid x.index → x.index % 2 = 0) := by
  have hsigned := signedGrid_strictMono hlt
  rw [← signed_eq, ← signed_eq] at hsigned ⊢
  refine ⟨(abs_sub_le_abs_sub_right hsigned).1 (h.nearest y), fun heq => x.even_index_iff.2 ?_⟩
  exact h.even y ((abs_sub_eq_abs_sub hsigned.ne).2 heq) hsigned.ne

theorem Nearest.inCell (h : Nearest q x) : InCell x.index q := by
  obtain ⟨hneg, hpos⟩ := abs_lt.1 h.bounded
  obtain ⟨hfirst, hlast⟩ := x.index_bounds
  have hsum := signedGrid_add_eq_overflow
  -- Past the greatest finite numbers there is no number to compare with, only the overflow bound.
  have hbelow : signedGrid (x.index - 1) + signedGrid x.index ≤ 2 * q ∧
      (2 * q = signedGrid (x.index - 1) + signedGrid x.index → x.index % 2 = 0) := by
    by_cases hprevious : -(finiteMagnitudes : Int) < x.index - 1
    · obtain ⟨y, hy⟩ := exists_index hprevious (by omega)
      rw [← hy]
      exact h.ge_of_lt (by omega)
    · have hself : x.index = -(finiteMagnitudes - 1 : Nat) := by omega
      have hbeyond : x.index - 1 = -finiteMagnitudes := by omega
      rw [hbeyond, hself, signedGrid_neg, signedGrid_neg]
      exact ⟨by linarith, fun heq => by linarith⟩
  have habove : 2 * q ≤ signedGrid x.index + signedGrid (x.index + 1) ∧
      (2 * q = signedGrid x.index + signedGrid (x.index + 1) → x.index % 2 = 0) := by
    by_cases hnext : x.index + 1 < finiteMagnitudes
    · obtain ⟨y, hy⟩ := exists_index (by omega) hnext
      rw [← hy]
      exact h.le_of_lt (by omega)
    · have hself : x.index = (finiteMagnitudes - 1 : Nat) := by omega
      have hbeyond : x.index + 1 = finiteMagnitudes := by omega
      rw [hbeyond, hself]
      exact ⟨by linarith, fun heq => by linarith⟩
  exact ⟨hbelow.1, habove.1, fun htie => htie.elim hbelow.2 habove.2⟩

theorem nearest_of_inCell (h : InCell x.index q) : Nearest q x := by
  obtain ⟨hfirst, hlast⟩ := x.index_bounds
  have hbelow {y : FiniteBinary64} (hlt : y.index < x.index) :
      signedGrid y.index ≤ signedGrid (x.index - 1) ∧ y.signed < x.signed := by
    rw [y.signed_eq, x.signed_eq]
    exact ⟨signedGrid_strictMono.monotone (by omega), signedGrid_strictMono hlt⟩
  have habove {y : FiniteBinary64} (hlt : x.index < y.index) :
      signedGrid (x.index + 1) ≤ signedGrid y.index ∧ x.signed < y.signed := by
    rw [y.signed_eq, x.signed_eq]
    exact ⟨signedGrid_strictMono.monotone (by omega), signedGrid_strictMono hlt⟩
  have hlower := h.lower
  have hupper := h.upper
  constructor
  · have hpos := h.lt_overflow_iff.2 hlast
    have hneg := h.neg.lt_overflow_iff.2 (by omega)
    exact abs_lt.2 ⟨by linarith, hpos⟩
  · intro y
    rcases lt_trichotomy y.index x.index with hlt | heq | hlt
    · obtain ⟨hle, hsigned⟩ := hbelow hlt
      rw [abs_sub_le_abs_sub_right hsigned, y.signed_eq, x.signed_eq]
      linarith
    · rw [signed_inj.2 heq]
    · obtain ⟨hle, hsigned⟩ := habove hlt
      rw [abs_sub_le_abs_sub_left hsigned, y.signed_eq, x.signed_eq]
      linarith
  · intro y heq hne
    rw [abs_sub_eq_abs_sub hne, y.signed_eq, x.signed_eq] at heq
    rw [← even_index_iff]
    rcases lt_trichotomy y.index x.index with hlt | hself | hlt
    · obtain ⟨hle, -⟩ := hbelow hlt
      exact h.tie (.inl (by linarith))
    · exact absurd (signed_inj.2 hself) hne
    · obtain ⟨hle, -⟩ := habove hlt
      exact h.tie (.inr (by linarith))

theorem nearest_iff_inCell : Nearest q x ↔ InCell x.index q :=
  ⟨Nearest.inCell, nearest_of_inCell⟩

theorem Nearest.signed_eq (hx : Nearest q x) (hy : Nearest q y) : x.signed = y.signed :=
  signed_inj.2 (hx.inCell.unique hy.inCell)

theorem Nearest.of_signed_eq (h : Nearest q x) (hsigned : x.signed = y.signed) : Nearest q y := by
  rw [nearest_iff_inCell, ← signed_inj.1 hsigned]
  exact h.inCell

/-- Rounding keeps the order. -/
theorem Nearest.signed_le {r : ℚ} (hx : Nearest q x) (hy : Nearest r y) (hle : q ≤ r) :
    x.signed ≤ y.signed := by
  by_contra hlt
  have hindex : y.index < x.index := by
    rw [x.signed_eq, y.signed_eq] at hlt
    exact signedGrid_strictMono.lt_iff_lt.1 (not_le.1 hlt)
  -- Both would be on the midpoint, and so the same rational rounded to two numbers.
  have hlower := (hx.ge_of_lt hindex).1
  have hupper := (hy.le_of_lt hindex).1
  obtain rfl : q = r := by linarith
  exact hlt (hx.signed_eq hy).le

/-- A finite number is nearest to itself. -/
theorem nearest_signed (x : FiniteBinary64) : Nearest x.signed x := by
  have hbelow := signedGrid_strictMono (by omega : x.index - 1 < x.index)
  have habove := signedGrid_strictMono (by omega : x.index < x.index + 1)
  rw [x.signed_eq]
  refine nearest_of_inCell ⟨by linarith, by linarith, fun htie => ?_⟩
  rcases htie with heq | heq <;> linarith

/-- The numbers nearest to a rational are what it is rounded to, up to the sign of a zero. -/
theorem nearest_iff_round (hq : 0 ≤ q) (negative : Bool) :
    Nearest (if negative then -q else q) x ↔
      ∃ y, Binary64.round negative q = .finite y ∧ y.signed = x.signed := by
  have hcell :
      InCell (if negative then -rounded q else rounded q) (if negative then -q else q) := by
    split
    · exact (inCell_rounded hq).neg
    · exact inCell_rounded hq
  simp only [nearest_iff_inCell, round_eq, ofMagnitude_eq_finite_iff, signed_inj]
  constructor
  · intro h
    have hindex := hcell.unique h
    have hlt : rounded q < finiteMagnitudes := by
      have hbounds := x.index_bounds
      split at hindex <;> omega
    exact ⟨⟨negative, rounded q, hlt⟩, ⟨rfl, rfl⟩, hindex⟩
  · rintro ⟨y, ⟨rfl, hmagnitude⟩, hindex⟩
    rwa [← hindex, index, hmagnitude]

/-- Below the overflow bound every rational has a nearest number. -/
theorem exists_nearest_iff : (∃ x, Nearest q x) ↔ |q| < overflow := by
  refine ⟨fun ⟨x, h⟩ => h.bounded, fun hq => ?_⟩
  have hlt : rounded |q| < finiteMagnitudes := by
    exact_mod_cast (inCell_rounded (abs_nonneg q)).lt_overflow_iff.1 hq
  have hround := (nearest_iff_round (abs_nonneg q) (q < 0)).2 ⟨_, dif_pos hlt, rfl⟩
  have hself : (if q < 0 then -|q| else |q|) = q := by
    split
    next h => rw [abs_of_neg h, neg_neg]
    next h => rw [abs_of_nonneg (not_lt.1 h)]
  simp only [decide_eq_true_eq, hself] at hround
  exact ⟨_, hround⟩

end FiniteBinary64

/-- The rational that a decimal stands for. -/
def Decimal.signed (d : Decimal) : ℚ :=
  if d.negative then -d.value else d.value

theorem Decimal.nearest_iff {d : Decimal} {x : FiniteBinary64} :
    FiniteBinary64.Nearest d.signed x ↔ ∃ y, d.nearest = .finite y ∧ y.signed = x.signed := by
  rw [d.nearest_eq_round]
  exact FiniteBinary64.nearest_iff_round (by rw [value]; positivity) d.negative

end StoryCodec
