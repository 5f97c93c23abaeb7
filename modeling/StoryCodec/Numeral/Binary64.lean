namespace StoryCodec

def signBit : Nat := 0x8000000000000000

/-- How many binary64 numbers lie from one power of two up to the next. -/
def binade : Nat := 0x10000000000000

/-- The magnitude field from which binary64 numbers are no longer finite. -/
def finiteMagnitudes : Nat := 2047 * binade

/-- A finite binary64 number. The magnitude is the 63-bit field below the sign, so magnitudes are
ordered as the numbers they stand for and consecutive ones are neighbours. -/
structure FiniteBinary64 where
  negative : Bool
  magnitude : Nat
  magnitude_lt : magnitude < finiteMagnitudes
deriving DecidableEq

/-- A binary64 number; the payload of a NaN is not kept, since no rule of a story reads it. -/
inductive Binary64
  | finite (x : FiniteBinary64)
  | infinite (negative : Bool)
  | nan
deriving DecidableEq

namespace FiniteBinary64

def zero (negative : Bool) : FiniteBinary64 :=
  ⟨negative, 0, by decide⟩

def significand (x : FiniteBinary64) : Nat :=
  if x.magnitude < binade then x.magnitude else x.magnitude % binade + binade

/-- The power of two that multiplies the significand; subnormal numbers share the least one. -/
def exponent (x : FiniteBinary64) : Int :=
  max (x.magnitude / binade : Nat) 1 - 1075

def ratio (x : FiniteBinary64) : Nat × Nat :=
  if 0 ≤ x.exponent then (x.significand <<< x.exponent.toNat, 1)
  else (x.significand, 1 <<< (-x.exponent).toNat)

def whole? (x : FiniteBinary64) : Option Int :=
  let (num, den) := x.ratio
  if num % den = 0 then some (if x.negative then -(num / den : Nat) else (num / den : Nat))
  else none

def eqv (x y : FiniteBinary64) : Bool :=
  x.magnitude = y.magnitude && (x.negative == y.negative || x.magnitude = 0)

end FiniteBinary64

namespace Binary64

def finite? : Binary64 → Option FiniteBinary64
  | finite x => some x
  | _ => none

def whole? (x : Binary64) : Option Int :=
  x.finite?.bind FiniteBinary64.whole?

/-- Equality of numbers: a NaN is equal to nothing, the two zeros are equal. -/
def eqv : Binary64 → Binary64 → Bool
  | finite x, finite y => x.eqv y
  | infinite s, infinite t => s == t
  | _, _ => false

/-- The finite number with a given magnitude field, or infinity where the field is too large. -/
def ofMagnitude (negative : Bool) (magnitude : Nat) : Binary64 :=
  if h : magnitude < finiteMagnitudes then finite ⟨negative, magnitude, h⟩ else infinite negative

def ofBits (bits : UInt64) : Binary64 :=
  let negative : Bool := signBit ≤ bits.toNat
  let magnitude := bits.toNat % signBit
  if magnitude ≤ finiteMagnitudes then ofMagnitude negative magnitude else nan

/-- The 64 bits of a number that is not a NaN, and those of a quiet NaN otherwise. -/
def toBits : Binary64 → UInt64
  | finite x => UInt64.ofNat ((if x.negative then signBit else 0) + x.magnitude)
  | infinite negative => UInt64.ofNat ((if negative then signBit else 0) + finiteMagnitudes)
  | nan => UInt64.ofNat (finiteMagnitudes + binade / 2)

end Binary64

end StoryCodec
