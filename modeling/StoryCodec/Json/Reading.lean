import StoryCodec.Json.Format
import StoryCodec.Numeral.Reading

namespace StoryCodec

/-- The number that a numeral of a JSON text stands for. Zero with a sign is a float, since no
integer has a signed zero, and so is an integer that no 64-bit word holds. A number too large for
binary64 is none. -/
def Number.ofNumeral? (n : Numeral) : Option Number :=
  let float := match n.decimal.nearest with
    | .finite x => some (.float x)
    | _ => none
  match n.integer? with
  | some i =>
    if h : -0x8000000000000000 ≤ i ∧ i < 0x10000000000000000 ∧ ¬(i = 0 ∧ n.negative) then
      some (.int i h.1 h.2.1)
    else float
  | none => float

namespace Json

/-- Takes a value off the front of a text and leaves the rest. -/
abbrev Reader (α : Type) := List Char → Option (α × List Char)

def skipBlanks (cs : List Char) : List Char :=
  cs.dropWhile fun c => c = ' ' || c = '\t' || c = '\n' || c = '\r'

def hexValue? (c : Char) : Option Nat :=
  if '0' ≤ c ∧ c ≤ '9' then some (c.toNat - '0'.toNat)
  else if 'a' ≤ c ∧ c ≤ 'f' then some (c.toNat - 'a'.toNat + 10)
  else if 'A' ≤ c ∧ c ≤ 'F' then some (c.toNat - 'A'.toNat + 10)
  else none

def unit? (a b c d : Char) : Option Nat := do
  let a ← hexValue? a
  let b ← hexValue? b
  let c ← hexValue? c
  let d ← hexValue? d
  some (((a * 16 + b) * 16 + c) * 16 + d)

def isHigh (unit : Nat) : Bool := 0xD800 ≤ unit && unit < 0xDC00

def isLow (unit : Nat) : Bool := 0xDC00 ≤ unit && unit < 0xE000

def pairChar (high low : Nat) : Char :=
  Char.ofNat (0x10000 + (high - 0xD800) * 0x400 + (low - 0xDC00))

def unescape? (c : Char) : Option Char :=
  match c with
  | '"' => some '"'
  | '\\' => some '\\'
  | '/' => some '/'
  | 'b' => some '\x08'
  | 'f' => some '\x0c'
  | 'n' => some '\n'
  | 'r' => some '\r'
  | 't' => some '\t'
  | _ => none

def push (c : Char) (rest : Option (List Char × List Char)) : Option (List Char × List Char) :=
  rest.map fun (text, cs) => (c :: text, cs)

/-- The text up to the closing quote. A unit outside the surrogates is a character of its own; a
high surrogate has to be followed by a low one. -/
def readText : List Char → Option (List Char × List Char)
  | [] => none
  | '"' :: cs => some ([], cs)
  | '\\' :: 'u' :: a :: b :: c :: d :: cs =>
    match unit? a b c d with
    | none => none
    | some unit =>
      if isHigh unit then
        match cs with
        | '\\' :: 'u' :: e :: f :: g :: h :: cs =>
          match unit? e f g h with
          | none => none
          | some next => if isLow next then push (pairChar unit next) (readText cs) else none
        | _ => none
      else if isLow unit then none
      else push (Char.ofNat unit) (readText cs)
  | '\\' :: c :: cs =>
    match unescape? c with
    | none => none
    | some c => push c (readText cs)
  | c :: cs => if c < ' ' then none else push c (readText cs)

def readString : Reader String
  | '"' :: cs => (readText cs).map fun (text, cs) => (String.ofList text, cs)
  | _ => none

def isNumeric (c : Char) : Bool :=
  c.isDigit || c = '-' || c = '+' || c = '.' || c = 'e' || c = 'E'

/-- No sign but a minus, a digit on either side of a point, and no zero before another digit. -/
def isStrict (n : Numeral) : Bool :=
  n.sign ≠ some '+' && n.fraction ≠ some [] &&
    match n.whole with
    | [] => false
    | '0' :: rest => rest.isEmpty
    | _ => true

def readNumber : Reader Number := fun cs => do
  let numeral ← Numeral.read? (cs.takeWhile isNumeric)
  if isStrict numeral then
    let number ← Number.ofNumeral? numeral
    some (number, cs.dropWhile isNumeric)
  else none

def readScalar : Reader Json
  | 'n' :: 'u' :: 'l' :: 'l' :: cs => some (.null, cs)
  | 't' :: 'r' :: 'u' :: 'e' :: cs => some (.bool true, cs)
  | 'f' :: 'a' :: 'l' :: 's' :: 'e' :: cs => some (.bool false, cs)
  | '"' :: cs => (readString ('"' :: cs)).map fun (s, cs) => (.str s, cs)
  | cs => (readNumber cs).map fun (n, cs) => (.num n, cs)

/-- One or more items with commas between them, up to a closing bracket. There are no more items
than `bound`. -/
def readItems {α : Type} (item : Reader α) (close : Char) : Nat → Reader (List α)
  | 0, _ => none
  | bound + 1, cs => do
    let (first, cs) ← item cs
    match skipBlanks cs with
    | ',' :: cs =>
      let (others, cs) ← readItems item close bound cs
      some (first :: others, cs)
    | c :: cs => if c = close then some ([first], cs) else none
    | [] => none

def readSequence {α : Type} (item : Reader α) (close : Char) (bound : Nat) :
    Reader (List α) := fun cs =>
  match skipBlanks cs with
  | c :: rest => if c = close then some ([], rest) else readItems item close bound (c :: rest)
  | [] => none

def readField (value : Reader Json) : Reader (String × Json) := fun cs => do
  let (key, cs) ← readString (skipBlanks cs)
  match skipBlanks cs with
  | ':' :: cs =>
    let (token, cs) ← value cs
    some ((key, token), cs)
  | _ => none

/-- A value in which arrays and objects are nested at most `levels` deep. -/
def readValue (bound : Nat) : Nat → Reader Json
  | 0, cs => readScalar (skipBlanks cs)
  | levels + 1, cs =>
    match skipBlanks cs with
    | '[' :: cs =>
      (readSequence (readValue bound levels) ']' bound cs).map fun (items, cs) => (.arr items, cs)
    | '{' :: cs =>
      (readSequence (readField (readValue bound levels)) '\x7d' bound cs).map fun (fields, cs) =>
        (.obj (Fields.ofEntries fields), cs)
    | cs => readScalar cs

def read? (text : String) : Option Json := do
  let cs := text.toList
  let (token, rest) ← readValue cs.length maxLevels cs
  if (skipBlanks rest).isEmpty then some token else none

end Json

end StoryCodec
