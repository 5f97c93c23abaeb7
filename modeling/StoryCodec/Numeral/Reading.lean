import StoryCodec.Numeral.Rounding

namespace StoryCodec

/-- The parts of a written number: a sign, digits with an optional point among them, and an optional
power of ten. -/
structure Numeral where
  sign : Option Char
  whole : List Char
  fraction : Option (List Char)
  exponent : Option Int
deriving DecidableEq

namespace Numeral

def takeSign : List Char → Option Char × List Char
  | [] => (none, [])
  | c :: cs => if c = '-' ∨ c = '+' then (some c, cs) else (none, c :: cs)

def takeDigits (cs : List Char) : List Char × List Char :=
  (cs.takeWhile Char.isDigit, cs.dropWhile Char.isDigit)

def takeFraction : List Char → Option (List Char) × List Char
  | '.' :: cs => let (digits, cs) := takeDigits cs; (some digits, cs)
  | cs => (none, cs)

def ofSign (sign : Option Char) (n : Nat) : Int :=
  if sign = some '-' then -n else n

/-- An optional sign and one or more digits. -/
def readInteger? (cs : List Char) : Option Int :=
  let (sign, digits) := takeSign cs
  if digits ≠ [] ∧ digits.all Char.isDigit then some (ofSign sign (Nat.ofDigitChars 10 digits 0))
  else none

/-- The parts of a text of the form `[+-]?D*(\.D*)?([eE][+-]?D+)?`, with `D` a digit. -/
def read? (cs : List Char) : Option Numeral := do
  let (sign, cs) := takeSign cs
  let (whole, cs) := takeDigits cs
  let (fraction, cs) := takeFraction cs
  match cs with
  | [] => some ⟨sign, whole, fraction, none⟩
  | c :: cs =>
    if c = 'e' ∨ c = 'E' then
      let exponent ← readInteger? cs
      some ⟨sign, whole, fraction, some exponent⟩
    else none

def negative (n : Numeral) : Bool :=
  n.sign = some '-'

def hasDigits (n : Numeral) : Bool :=
  !n.whole.isEmpty || !(n.fraction.getD []).isEmpty

def integer? (n : Numeral) : Option Int :=
  if n.whole ≠ [] ∧ n.fraction = none ∧ n.exponent = none then
    some (ofSign n.sign (Nat.ofDigitChars 10 n.whole 0))
  else none

def decimal (n : Numeral) : Decimal :=
  let fraction := n.fraction.getD []
  ⟨n.negative, Nat.ofDigitChars 10 (n.whole ++ fraction) 0, n.exponent.getD 0 - fraction.length⟩

end Numeral

end StoryCodec
