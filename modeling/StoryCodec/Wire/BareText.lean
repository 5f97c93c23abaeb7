import StoryCodec.Story.Object
import StoryCodec.Wire.Mnemonics

namespace StoryCodec.BareText

/-- Digits in quotes are a number, which may have either sign, no digits on one side of the point,
and any zeros in front. -/
def number? (s : String) : Option Value := do
  let numeral ← Numeral.read? s.toList
  if numeral.hasDigits then
    match numeral.integer?.bind int64?, numeral.decimal.nearest with
    | some n, _ => some (.int n)
    | none, .finite x => some (.ofNumber (.finite x))
    | none, _ => none
  else none

def numeral? (s : String) : Option Object :=
  (number? s).map .value

/-- A caret in front marks text, which is then never taken for any other word. -/
def marked? (s : String) : Option Object :=
  match s.toList with
  | '^' :: text => some (.value (.text (String.ofList text)))
  | _ => none

def newline? (s : String) : Option Object :=
  if s = "\n" then some (.value .newline) else none

def glueText : Glue → String
  | .bidirectional => "<>"
  | .left => "G<"
  | .right => "G>"

def glue? (s : String) : Option Object :=
  ([.bidirectional, .left, .right].find? fun g => glueText g = s).map .glue

def command? (s : String) : Option Object :=
  (MnemonicTable.standard.command? s).map .command

def operator? (s : String) : Option Object :=
  (Operator.ofSymbol? s).map .operator

/-- The two returns to a caller. -/
def return? (s : String) : Option Object :=
  if s = "->->" then some (.command .popTunnel)
  else if s = "~ret" then some (.command .popFunction)
  else none

def void? (s : String) : Option Object :=
  if s = "void" then some .void else none

/-- What a string may stand for, in the order in which it is tried. -/
def kinds : List (String → Option Object) :=
  [numeral?, marked?, newline?, glue?, command?, operator?, return?, void?]

def object? (s : String) : Option Object :=
  kinds.findSome? fun kind => kind s

end StoryCodec.BareText
