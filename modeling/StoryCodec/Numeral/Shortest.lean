import StoryCodec.Numeral.Rounding

namespace StoryCodec

inductive Tie
  | toEven
  | away

namespace FiniteBinary64

def leadingDigit (num den : Nat) : Int :=
  if den ≤ num then (Nat.toDigits 10 (num / den)).length - 1
  else -(Nat.toDigits 10 ((den - 1) / num)).length

/-- The multiple of a power of ten that reads back as the number, if one does. Only the two
neighbours of the number can, and of both the nearer is taken. -/
def onGrid (tie : Tie) (x : FiniteBinary64) (power : Int) : Option Decimal :=
  let (num, den) := x.ratio
  let (n, d) := scaleDown 10 num den power
  let below : Decimal := ⟨x.negative, n / d, power⟩
  let above : Decimal := ⟨x.negative, n / d + 1, power⟩
  let preferAbove : Bool :=
    d < 2 * (n % d) || (2 * (n % d) = d && match tie with
      | .toEven => n / d % 2 = 1
      | .away => true)
  let (first, second) := if preferAbove then (above, below) else (below, above)
  if first.nearest = .finite x then some first
  else if second.nearest = .finite x then some second
  else none

/-- The number written out in full, which every binary fraction can be. -/
def exact (x : FiniteBinary64) : Decimal :=
  if 0 ≤ x.exponent then ⟨x.negative, x.significand <<< x.exponent.toNat, 0⟩
  else ⟨x.negative, x.significand * Nat.pow 5 (-x.exponent).toNat, x.exponent⟩

/-- The decimal of fewest digits that reads back as the number. Seventeen digits are always enough.
-/
def shortest (tie : Tie) (x : FiniteBinary64) : Decimal :=
  if x.magnitude = 0 then ⟨x.negative, 0, 0⟩
  else
    let (num, den) := x.ratio
    ((List.range 17).findSome? fun (n : Nat) =>
      x.onGrid tie (leadingDigit num den - n)).getD x.exact

end FiniteBinary64

end StoryCodec
