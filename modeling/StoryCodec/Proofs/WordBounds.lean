import StoryCodec.Proofs.NumericText

namespace StoryCodec

namespace FiniteBinary64

open Binary64

/-- The bounds of the signed 64-bit words are floats: the least word, and the integer next after
the greatest. -/
def wordBound (negative : Bool) : FiniteBinary64 :=
  ⟨negative, 0x43e0000000000000, by decide⟩

theorem wordBound_signed (negative : Bool) :
    (wordBound negative).signed = if negative then -0x8000000000000000 else 0x8000000000000000 := by
  have hwhole : (wordBound negative).whole? =
      some (if negative then -0x8000000000000000 else 0x8000000000000000) := by
    cases negative <;> decide
  rw [whole?_eq_some_iff.1 hwhole]
  cases negative <;> norm_num

/-- The neighbours of a power of two: the outer one is twice as far away as the inner one. -/
theorem gridValue_wordBound : gridValue 0x43dfffffffffffff = 0x8000000000000000 - 1024 ∧
    gridValue 0x43e0000000000000 = 0x8000000000000000 ∧
    gridValue 0x43e0000000000001 = 0x8000000000000000 + 2048 := by
  have hinner := gridValue_eq (r := 2 * binade - 1) (k := 1084) (by decide) (.inr (by decide))
  have hself := gridValue_eq (r := binade) (k := 1085) (by decide) (.inr (by decide))
  have houter := gridValue_eq (r := binade + 1) (k := 1085) (by decide) (.inr (by decide))
  norm_num [binade] at hinner hself houter
  norm_num [hinner, hself, houter]

variable {q : ℚ} {x : FiniteBinary64}

/-- The least word takes what is up to half the way to either neighbour, and both midpoints, for its
significand is even. -/
theorem nearest_leastWord_iff :
    Nearest q (wordBound true) ↔ -0x8000000000000400 ≤ q ∧ q ≤ -0x7ffffffffffffe00 := by
  obtain ⟨hinner, hself, houter⟩ := gridValue_wordBound
  have hindex : (wordBound true).index = -(0x43e0000000000000 : Nat) := rfl
  have hbelow : signedGrid (-(0x43e0000000000000 : Nat) - 1) = -(0x8000000000000000 + 2048) := by
    rw [← houter, ← signedGrid_natCast, ← signedGrid_neg]
    rfl
  have hplace : signedGrid (-(0x43e0000000000000 : Nat)) = -0x8000000000000000 := by
    rw [signedGrid_neg, signedGrid_natCast, hself]
  have habove : signedGrid (-(0x43e0000000000000 : Nat) + 1) = -(0x8000000000000000 - 1024) := by
    rw [← hinner, ← signedGrid_natCast, ← signedGrid_neg]
    rfl
  rw [nearest_iff_inCell, hindex]
  constructor
  · rintro ⟨hlower, hupper, -⟩
    rw [hbelow, hplace] at hlower
    rw [hplace, habove] at hupper
    constructor <;> linarith
  · rintro ⟨hlower, hupper⟩
    refine ⟨?_, ?_, fun _ => rfl⟩
    · rw [hbelow, hplace]
      linarith
    · rw [hplace, habove]
      linarith

variable {k : Int} {n : Int64}

/-- Rounding keeps the order and both bounds. The lower bound is a word itself, the upper one is
not, so from beyond the words only the least one can be reached. -/
theorem eq_minValue_of_nearest (hx : Nearest k x) (hn : x.signed = n.toInt)
    (hk : ¬(-0x8000000000000000 ≤ k ∧ k < 0x8000000000000000)) :
    n = Int64.minValue ∧ k < -0x8000000000000000 := by
  have hlower := n.le_toInt
  have hupper := n.toInt_lt
  rcases not_and_or.1 hk with hbelow | habove
  · have hbound : (k : ℚ) ≤ (wordBound true).signed := by
      rw [wordBound_signed]
      exact_mod_cast (not_le.1 hbelow).le
    have hle := hx.signed_le (nearest_signed _) hbound
    rw [wordBound_signed, hn] at hle
    have hleast : n.toInt = -0x8000000000000000 := le_antisymm (by exact_mod_cast hle) hlower
    exact ⟨Int64.toInt_inj.1 hleast, not_le.1 hbelow⟩
  · have hbound : (wordBound false).signed ≤ k := by
      rw [wordBound_signed]
      exact_mod_cast not_lt.1 habove
    have hle := (nearest_signed _).signed_le hx hbound
    rw [wordBound_signed, hn] at hle
    have hpast : 0x8000000000000000 ≤ n.toInt := by exact_mod_cast hle
    exact absurd hupper (not_lt.2 hpast)

theorem exists_nearest_word_iff (hk : ¬(-0x8000000000000000 ≤ k ∧ k < 0x8000000000000000)) :
    (∃ x, Nearest k x ∧ x.signed = n.toInt) ↔
      n = Int64.minValue ∧ -0x8000000000000400 ≤ k ∧ k < -0x8000000000000000 := by
  have hleast : (wordBound true).signed = Int64.minValue.toInt := by
    rw [wordBound_signed]
    norm_cast
  constructor
  · rintro ⟨x, hx, hn⟩
    obtain ⟨rfl, hbelow⟩ := eq_minValue_of_nearest hx hn hk
    obtain ⟨hreach, -⟩ := nearest_leastWord_iff.1 (hx.of_signed_eq (hn.trans hleast.symm))
    exact ⟨rfl, by exact_mod_cast hreach, hbelow⟩
  · rintro ⟨rfl, hreach, hbelow⟩
    have hupper : (k : ℚ) < -0x8000000000000000 := by exact_mod_cast hbelow
    exact ⟨_, nearest_leastWord_iff.2 ⟨by exact_mod_cast hreach, by linarith⟩, hleast⟩

end FiniteBinary64

namespace BareText

variable {s : String} {k : Int}

/-- Digits that spell no word are an integer only by way of the nearest float. -/
theorem number?_eq_int_iff_nearest (h : SpellsInteger s.toList k)
    (hk : ¬(-0x8000000000000000 ≤ k ∧ k < 0x8000000000000000)) (n : Int64) :
    number? s = some (.int n) ↔ ∃ x, FiniteBinary64.Nearest k x ∧ x.signed = n.toInt := by
  have hs (m : Int64) : ¬SpellsInteger s.toList m.toInt := by
    intro hm
    rw [h.unique hm] at hk
    exact hk ⟨m.le_toInt, m.toInt_lt⟩
  constructor
  · intro hn
    obtain ⟨q, x, hq, hx⟩ := exists_nearest_of_number? hn
    obtain rfl := hq.unique h.spellsNumber
    obtain ⟨y, hsigned, hy⟩ := number?_of_nearest hq hx hs
    rw [hn, Option.some.injEq, eq_comm, Value.ofNumber_eq_int_iff, hsigned] at hy
    exact ⟨x, hx, hy⟩
  · rintro ⟨x, hx, hn⟩
    obtain ⟨y, hsigned, hy⟩ := number?_of_nearest h.spellsNumber hx hs
    rw [hy, Value.ofNumber_eq_int_iff.2 (hsigned.trans hn)]

/-- Digits that spell an integer stand for this integer or for none, but for the 1024 integers next
below the words: they are rounded to the least word, which is then kept as if it were spelled. -/
theorem decode_digits (h : SpellsInteger s.toList k) (n : Int64) :
    Object.decode (.str s) = .ok (some (.value (.int n))) ↔ n.toInt = k ∨
      n = Int64.minValue ∧ -0x8000000000000400 ≤ k ∧ k < -0x8000000000000000 := by
  rw [decode_eq_number_iff rfl]
  by_cases hk : -0x8000000000000000 ≤ k ∧ k < 0x8000000000000000
  · have hword : (Int64.ofInt k).toInt = k := Int64.toInt_ofInt_of_le hk.1 hk.2
    rw [← hword] at h
    rw [number?_of_spellsInteger h, or_iff_left (by omega), Option.some.injEq, Value.int.injEq,
      ← Int64.toInt_inj, hword, eq_comm]
  · have hne : n.toInt ≠ k := by
      rintro rfl
      exact hk ⟨n.le_toInt, n.toInt_lt⟩
    rw [number?_eq_int_iff_nearest h hk, FiniteBinary64.exists_nearest_word_iff hk,
      or_iff_right hne]

/-- The last of the 1024 integers is halfway between two floats, and the next one is past it. -/
theorem decode_digits_halfway :
    SpellsInteger "-9223372036854776832".toList (-0x8000000000000400) ∧
    Object.decode (.str "-9223372036854776832") = .ok (some (.value (.int Int64.minValue))) ∧
    SpellsInteger "-9223372036854776833".toList (-0x8000000000000401) ∧
    ∀ n, Object.decode (.str "-9223372036854776833") ≠ .ok (some (.value (.int n))) := by
  have hhalf : SpellsInteger "-9223372036854776832".toList (-0x8000000000000400) :=
    Numeral.readInteger?_eq_some_iff.1 rfl
  have hpast : SpellsInteger "-9223372036854776833".toList (-0x8000000000000401) :=
    Numeral.readInteger?_eq_some_iff.1 rfl
  refine ⟨hhalf, (decode_digits hhalf _).2 (.inr ⟨rfl, by decide, by decide⟩), hpast, ?_⟩
  intro n hn
  have hlower := n.le_toInt
  have hself := (decode_digits hpast n).1 hn
  omega

/-- The first integer below the words stands for the one above it. -/
theorem decode_digits_below : SpellsInteger "-9223372036854775809".toList (-9223372036854775809) ∧
    Object.decode (.str "-9223372036854775809") =
      .ok (some (.value (.int (-9223372036854775808)))) := by
  refine ⟨Numeral.readInteger?_eq_some_iff.1 rfl, (decode_eq_number_iff rfl).2 ?_⟩
  decide +kernel

end BareText

end StoryCodec
