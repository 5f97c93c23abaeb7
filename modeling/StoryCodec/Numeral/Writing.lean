import StoryCodec.Numeral.Shortest

namespace StoryCodec

/-- The digits of a decimal without trailing zeros, and the power of ten of the first of them. -/
def Decimal.significant (d : Decimal) : List Char × Int :=
  let digits := Nat.toDigits 10 d.digits
  let trimmed := (digits.reverse.dropWhile (· = '0')).reverse
  (if trimmed.isEmpty then ['0'] else trimmed, d.exponent + digits.length - 1)

def positional (digits : List Char) (power : Int) : List Char × List Char :=
  if power < 0 then (['0'], List.replicate (-power - 1).toNat '0' ++ digits)
  else
    let places := power.toNat + 1
    ((digits.take places).rightpad places '0', digits.drop places)

def writeSign (negative : Bool) : List Char :=
  if negative then ['-'] else []

def writeInt (n : Int) : List Char :=
  writeSign (n < 0) ++ Nat.toDigits 10 n.natAbs

structure FloatStyle where
  tie : Tie
  /-- For which powers of ten of the first digit all places are written out. -/
  isPlain : Int → Bool
  /-- Whether a number without fraction is written with a point and a zero when all places are. -/
  keepsPoint : Bool

/-- Text that reads back as the number, of the fewest digits. -/
def FiniteBinary64.write (style : FloatStyle) (x : FiniteBinary64) : List Char :=
  let (digits, power) := (x.shortest style.tie).significant
  writeSign x.negative ++
    if style.isPlain power then
      let (whole, fraction) := positional digits power
      let fraction := if fraction.isEmpty && style.keepsPoint then ['0'] else fraction
      whole ++ if fraction.isEmpty then [] else '.' :: fraction
    else
      let fraction := digits.drop 1
      digits.take 1 ++ (if fraction.isEmpty then [] else '.' :: fraction) ++
        'e' :: (if power < 0 then '-' else '+') :: Nat.toDigits 10 power.natAbs

end StoryCodec
