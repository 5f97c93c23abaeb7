import StoryCodec.Proofs.Rounding
import Mathlib.Data.List.TakeWhile
import StoryCodec.Text.Blank
import StoryCodec.Wire.Records

namespace StoryCodec

/-- The rational that a finite number stands for. -/
def FiniteBinary64.signed (x : FiniteBinary64) : ℚ :=
  if x.negative then -x.value else x.value

/-- A text spells an integer by its digits, after a sign or none, and blanks may stand around. -/
inductive Spells : List Char → Int → Prop
  | mk {before digits after : List Char} {sign : Option Char}
      (hbefore : ∀ c ∈ before, isBlank c) (hafter : ∀ c ∈ after, isBlank c)
      (hsign : ∀ c ∈ sign, c = '-' ∨ c = '+')
      (some_digit : digits ≠ []) (hdigits : ∀ c ∈ digits, c.isDigit) :
      Spells (before ++ (sign.toList ++ digits) ++ after)
        (Numeral.ofSign sign (Nat.ofDigitChars 10 digits 0))

/-- A text spells an integer by its digits after a sign or none, and nothing stands around. -/
inductive SpellsInteger : List Char → Int → Prop
  | mk {digits : List Char} {sign : Option Char} (hsign : ∀ c ∈ sign, c = '-' ∨ c = '+')
      (some_digit : digits ≠ []) (hdigits : ∀ c ∈ digits, c.isDigit) :
      SpellsInteger (sign.toList ++ digits)
        (Numeral.ofSign sign (Nat.ofDigitChars 10 digits 0))

namespace Json

/-- The integer that a token is to be read as where one is expected. -/
inductive Denotes : Json → Int → Prop
  | int (n : Int) (lower : -0x8000000000000000 ≤ n) (upper : n < 0x10000000000000000) :
      Denotes (.num (.int n lower upper)) n
  | float {x : FiniteBinary64} {n : Int} (h : x.signed = n) : Denotes (.num (.float x)) n
  | str {s : String} {n : Int} (h : Spells s.toList n) : Denotes (.str s) n

/-- A number token that denotes an integer which no signed 64-bit word holds. -/
def Beyond (v : Json) : Prop :=
  ∃ n m, v = .num n ∧ v.Denotes m ∧ ¬(-0x8000000000000000 ≤ m ∧ m < 0x8000000000000000)

end Json

theorem FiniteBinary64.whole?_eq_some_iff {x : FiniteBinary64} {n : Int} :
    x.whole? = some n ↔ x.signed = n := by
  have hden : (x.ratio.2 : ℚ) ≠ 0 := by exact_mod_cast x.ratio_pos.ne'
  have hvalue := x.ratio_eq_value
  have hwhole : ∀ m : ℕ, x.value = m ↔ x.ratio.1 = m * x.ratio.2 := by
    intro m
    rw [← hvalue, div_eq_iff hden]
    exact_mod_cast Iff.rfl
  rw [whole?]
  dsimp only
  split
  next h =>
    have hquot := (hwhole (x.ratio.1 / x.ratio.2)).2
      (Nat.div_mul_cancel (Nat.dvd_of_mod_eq_zero h)).symm
    rw [signed, hquot, Option.some.injEq]
    split
    · rw [← Int.cast_inj (α := ℚ)]
      push_cast
      rfl
    · rw [← Int.cast_inj (α := ℚ)]
      push_cast
      rfl
  next h =>
    refine ⟨nofun, fun hn => ?_⟩
    have habs : x.value = n.natAbs := by
      have hpos : 0 ≤ x.value := by rw [value]; positivity
      rw [Nat.cast_natAbs, Int.cast_abs, ← hn, signed]
      split
      · rw [abs_neg, abs_of_nonneg hpos]
      · rw [abs_of_nonneg hpos]
    rw [(hwhole _).1 habs] at h
    simp at h

namespace Numeral

theorem isBlank_of_isDigit {c : Char} (h : c.isDigit) : isBlank c = false := by
  simp only [Char.isDigit, Bool.and_eq_true, decide_eq_true_eq, ge_iff_le,
    UInt32.le_iff_toNat_le] at h
  have hlower : 48 ≤ c.toNat := h.1
  have hupper : c.toNat ≤ 57 := h.2
  simp [isBlank]
  omega

theorem isBlank_of_sign {c : Char} (h : c = '-' ∨ c = '+') : isBlank c = false := by
  rcases h with rfl | rfl <;> rfl

theorem not_sign_of_isDigit {c : Char} (h : c.isDigit) : ¬(c = '-' ∨ c = '+') := by
  rintro (rfl | rfl) <;> cases h

theorem takeSign_append {sign : Option Char} {cs : List Char}
    (hsign : ∀ c ∈ sign, c = '-' ∨ c = '+') (hcs : ∀ c ∈ cs.head?, ¬(c = '-' ∨ c = '+')) :
    takeSign (sign.toList ++ cs) = (sign, cs) := by
  cases sign with
  | some c => simp [takeSign, hsign c rfl]
  | none =>
      cases cs with
      | nil => rfl
      | cons d ds => simp [takeSign, hcs d rfl]

theorem takeSign_split (cs : List Char) : cs = (takeSign cs).1.toList ++ (takeSign cs).2 ∧
    ∀ c ∈ (takeSign cs).1, c = '-' ∨ c = '+' := by
  cases cs with
  | nil => simp [takeSign]
  | cons c cs =>
      rw [takeSign]
      split
      next hc => simpa using hc
      next => simp

theorem readInteger?_eq_some_iff {cs : List Char} {n : Int} :
    readInteger? cs = some n ↔ SpellsInteger cs n := by
  constructor
  · intro h
    obtain ⟨hcs, hsign⟩ := takeSign_split cs
    rw [readInteger?] at h
    obtain ⟨⟨hne, hall⟩, h⟩ := Option.ite_none_right_eq_some.1 h
    rw [hcs, ← Option.some.inj h]
    exact .mk hsign hne (List.all_eq_true.1 hall)
  · rintro ⟨hsign, hne, hdigits⟩
    have hhead := fun c hc => not_sign_of_isDigit (hdigits c (List.mem_of_head? hc))
    rw [readInteger?, takeSign_append hsign hhead]
    exact if_pos ⟨hne, List.all_eq_true.2 hdigits⟩

end Numeral

theorem SpellsInteger.unique {cs : List Char} {n m : Int} (hn : SpellsInteger cs n)
    (hm : SpellsInteger cs m) : n = m := by
  rw [← Numeral.readInteger?_eq_some_iff] at hn hm
  exact Option.some.inj (hn.symm.trans hm)

theorem trimBlanks_append {before cs after : List Char} (hbefore : ∀ c ∈ before, isBlank c)
    (hafter : ∀ c ∈ after, isBlank c) (hne : cs ≠ []) (hcs : ∀ c ∈ cs, isBlank c = false) :
    trimBlanks (before ++ cs ++ after) = cs := by
  have hfront {cs rest : List Char} (hne : cs ≠ []) (hcs : ∀ c ∈ cs, isBlank c = false) :
      (cs ++ rest).dropWhile isBlank = cs ++ rest := by
    obtain ⟨c, cs, rfl⟩ := List.exists_cons_of_ne_nil hne
    simp [hcs c List.mem_cons_self]
  rw [trimBlanks, List.append_assoc, List.dropWhile_append_of_pos hbefore, hfront hne hcs,
    List.reverse_append, List.dropWhile_append_of_pos (by simpa using hafter)]
  have hback : (cs.reverse ++ []).dropWhile isBlank = cs.reverse ++ [] :=
    hfront (by simpa using hne) (by simpa using hcs)
  rw [← List.append_nil cs.reverse, hback, List.append_nil, List.reverse_reverse]

theorem exists_trimBlanks (cs : List Char) : ∃ before after, cs = before ++ trimBlanks cs ++ after ∧
    (∀ c ∈ before, isBlank c) ∧ ∀ c ∈ after, isBlank c := by
  have hfront := List.takeWhile_append_dropWhile (p := isBlank) (l := cs)
  have hback := List.takeWhile_append_dropWhile (p := isBlank) (l := (cs.dropWhile isBlank).reverse)
  refine ⟨cs.takeWhile isBlank, ((cs.dropWhile isBlank).reverse.takeWhile isBlank).reverse,
    ?_, ?_, ?_⟩
  · rw [trimBlanks, List.append_assoc, ← List.reverse_append, hback, List.reverse_reverse, hfront]
  · exact fun c hc => List.mem_takeWhile_imp hc
  · exact fun c hc => List.mem_takeWhile_imp (List.mem_reverse.1 hc)

theorem spells_iff {cs : List Char} {n : Int} :
    Spells cs n ↔ Numeral.readInteger? (trimBlanks cs) = some n := by
  rw [Numeral.readInteger?_eq_some_iff]
  constructor
  · rintro ⟨hbefore, hafter, hsign, hne, hdigits⟩
    rw [trimBlanks_append hbefore hafter (by simp [hne])]
    · exact .mk hsign hne hdigits
    · intro c hc
      rcases List.mem_append.1 hc with hc | hc
      · exact Numeral.isBlank_of_sign (hsign c (Option.mem_toList.1 hc))
      · exact Numeral.isBlank_of_isDigit (hdigits c hc)
  · intro h
    obtain ⟨before, after, hcs, hbefore, hafter⟩ := exists_trimBlanks cs
    generalize trimBlanks cs = trimmed at h hcs
    obtain ⟨hsign, hne, hdigits⟩ := h
    rw [hcs]
    exact .mk hbefore hafter hsign hne hdigits

namespace Json

theorem Denotes.unique {v : Json} {n m : Int} (hn : v.Denotes n) (hm : v.Denotes m) : n = m := by
  cases hn with
  | int => cases hm; rfl
  | float hn => cases hm with | float hm => exact_mod_cast hn.symm.trans hm
  | str hn =>
      cases hm with
      | str hm => exact Option.some.inj ((spells_iff.1 hn).symm.trans (spells_iff.1 hm))

theorem num_denotes_iff {n : Number} {m : Int} : (Json.num n).Denotes m ↔ n.whole? = some m := by
  cases n with
  | int n lower upper =>
      constructor
      · rintro ⟨⟩
        rfl
      · rintro ⟨⟩
        exact .int _ lower upper
  | float x =>
      constructor
      · intro h
        cases h with
        | float h => exact FiniteBinary64.whole?_eq_some_iff.2 h
      · exact fun h => .float (FiniteBinary64.whole?_eq_some_iff.1 h)

theorem denotes_of_beyond {v : Json} (h : v.Beyond) :
    ∃ m, v.Denotes m ∧ ¬(-0x8000000000000000 ≤ m ∧ m < 0x8000000000000000) := by
  obtain ⟨_, m, -, hm, hbound⟩ := h
  exact ⟨m, hm, hbound⟩

theorem beyond_of_denotes {n : Number} {m : Int} (h : (Json.num n).Denotes m)
    (hbound : ¬(-0x8000000000000000 ≤ m ∧ m < 0x8000000000000000)) : (Json.num n).Beyond :=
  ⟨n, m, rfl, h, hbound⟩

theorem not_beyond_str (s : String) : ¬(Json.str s).Beyond := by
  rintro ⟨n, m, ⟨⟩, -, -⟩

/-- What is read for a token is the integer it denotes, and of a number beyond 64 bits the nearest
within them. Nothing else is read. -/
theorem integer?_eq_some_iff {v : Json} {n : Int64} : v.integer? = some n ↔
    ∃ m, v.Denotes m ∧ n = clampInt64 m ∧ (v.Beyond ∨ n.toInt = m) := by
  cases v with
  | num number =>
      constructor
      · intro h
        obtain ⟨m, hm, rfl⟩ := Option.map_eq_some_iff.1 h
        have hdenotes := num_denotes_iff.2 hm
        refine ⟨m, hdenotes, rfl, ?_⟩
        by_cases hbound : -0x8000000000000000 ≤ m ∧ m < 0x8000000000000000
        · right
          rw [clampInt64_toInt]
          omega
        · exact .inl (beyond_of_denotes hdenotes hbound)
      · rintro ⟨m, hm, rfl, -⟩
        exact Option.map_eq_some_iff.2 ⟨m, num_denotes_iff.1 hm, rfl⟩
  | str s =>
      constructor
      · intro h
        obtain ⟨m, hm, hn⟩ := Option.bind_eq_some_iff.1 h
        have hself := int64?_eq_some_iff.1 hn
        have hlower := n.le_toInt
        have hupper := n.toInt_lt
        refine ⟨m, .str (spells_iff.2 hm), Int64.toInt_inj.1 ?_, .inr hself⟩
        rw [hself, clampInt64_toInt]
        omega
      · rintro ⟨m, hm, -, hself⟩
        obtain rfl := hself.resolve_left (not_beyond_str s)
        cases hm with
        | str hm => exact Option.bind_eq_some_iff.2 ⟨_, spells_iff.1 hm, int64?_toInt n⟩
  | null | bool | arr | obj =>
      constructor
      · rintro ⟨⟩
      · rintro ⟨_, ⟨⟩, -⟩

theorem denotes_iff_of_integer? {v : Json} {n : Int64} (h : v.integer? = some n) :
    v.Denotes n.toInt ↔ ¬v.Beyond := by
  obtain ⟨m, hm, -, hself⟩ := integer?_eq_some_iff.1 h
  constructor
  · intro hn hb
    obtain ⟨k, hk, hbound⟩ := denotes_of_beyond hb
    rw [hk.unique hn] at hbound
    exact hbound ⟨n.le_toInt, n.toInt_lt⟩
  · intro hb
    rwa [hself.resolve_left hb]

end Json

end StoryCodec
