import StoryCodec.Fields
import StoryCodec.Numeral.Binary64
import StoryCodec.Numeral.Bounded

namespace StoryCodec

/-- A number of a JSON text: an integer that a signed or an unsigned 64-bit word holds, or a finite
binary64 number. -/
inductive Number
  | int (n : Int) (lower : -0x8000000000000000 ≤ n) (upper : n < 0x10000000000000000)
  | float (x : FiniteBinary64)
deriving DecidableEq

inductive Json
  | null
  | bool (b : Bool)
  | num (n : Number)
  | str (s : String)
  | arr (items : List Json)
  | obj (fields : List (String × Json))

namespace Number

def ofInt64 (n : Int64) : Number :=
  .int n.toInt n.le_toInt (by have := n.toInt_lt; omega)

def ofInt32 (n : Int32) : Number :=
  .int n.toInt (by have := n.le_toInt; omega) (by have := n.toInt_lt; omega)

def ofUInt32 (n : UInt32) : Number :=
  .int n.toNat (by omega) (by have := n.toNat_lt; omega)

def ofUInt64 (n : UInt64) : Number :=
  .int n.toNat (by omega) (by have := n.toNat_lt; omega)

def whole? : Number → Option Int
  | .int n _ _ => some n
  | .float x => x.whole?

end Number

namespace Json

def string? : Json → Option String
  | str s => some s
  | _ => none

end Json

end StoryCodec
