import StoryCodec.Numeral.Binary64

namespace StoryCodec

/-- The integer nearest to a quotient; of two equally near ones, the even one. -/
def roundDiv (num den : Nat) : Nat :=
  let half := 2 * (num % den)
  if half < den ∨ (half = den ∧ num / den % 2 = 0) then num / den else num / den + 1

/-- The quotient divided by a power of `base`, again as a quotient. -/
def scaleDown (base num den : Nat) (power : Int) : Nat × Nat :=
  if 0 ≤ power then (num, den * base.pow power.toNat) else (num * base.pow (-power).toNat, den)

/-- The exponent of the greatest power of two that is at most the quotient. -/
def leadingBit (num den : Nat) : Int :=
  let guess : Int := num.log2 - den.log2
  let (n, d) := scaleDown 2 num den guess
  if d ≤ n then guess else guess - 1

/-- The power of two that counts one in the last place of the significand of a quotient: 53 bits
are kept, and fewer where that would go below the least exponent. -/
def lastPlace (num den : Nat) : Int :=
  if num = 0 then -1074 else max (leadingBit num den - 52) (-1074)

/-- The binary64 number nearest to a quotient. A significand that rounds up to 54 bits carries into
the exponent, because magnitudes are consecutive. -/
def Binary64.nearest (negative : Bool) (num den : Nat) : Binary64 :=
  let place := lastPlace num den
  let (n, d) := scaleDown 2 num den place
  .ofMagnitude negative (roundDiv n d + (place + 1074).toNat * binade)

def Binary64.ofInt (n : Int) : Binary64 :=
  .nearest (n < 0) n.natAbs 1

structure Decimal where
  negative : Bool
  digits : Nat
  exponent : Int
deriving DecidableEq

/-- The binary64 number nearest to a decimal. The two cut-offs only save the work of writing out a
power of ten: what they answer is what the quotient would be rounded to. -/
def Decimal.nearest (d : Decimal) : Binary64 :=
  if d.digits = 0 then .finite (.zero d.negative)
  else if 310 < d.exponent then .infinite d.negative
  else if (d.digits.log2 : Int) + 1100 < -3 * d.exponent then .finite (.zero d.negative)
  else
    let (num, den) := scaleDown 10 d.digits 1 (-d.exponent)
    .nearest d.negative num den

end StoryCodec
