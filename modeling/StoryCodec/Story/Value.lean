import StoryCodec.Numeral.Bounded
import StoryCodec.Numeral.Writing
import StoryCodec.Story.Path

namespace StoryCodec

/-- A variable passed by name. The context counts the scopes outward in which the name is looked up,
once that is known. -/
structure VariablePointer where
  name : String
  context : Option Int32
deriving DecidableEq

inductive Value
  | int (n : Int64)
  | float (x : Binary64)
  | text (s : String)
  | target (path : Path)
  | pointer (p : VariablePointer)
deriving DecidableEq

def isNewline (s : String) : Bool := s = "\n"

def isInlineBlank (s : String) : Bool := s.toList.all fun c => c = ' ' || c = '\t'

/-- Neither a newline nor blank within its line. -/
def isVisible (s : String) : Bool := !isNewline s && !isInlineBlank s

/-- All places of a float are shown, and no point without digits after it. -/
def displayStyle : FloatStyle := ⟨.away, fun _ => true, false⟩

def Binary64.display : Binary64 → String
  | .finite x => String.ofList (x.write displayStyle)
  | .infinite negative => if negative then "-inf" else "inf"
  | .nan => "NaN"

namespace Value

def newline : Value := .text "\n"

/-- The value of a number whose spelling does not say which kind was meant: an integer if it is one.
-/
def ofNumber (x : Binary64) : Value :=
  match x.whole?.bind int64? with
  | some n => .int n
  | none => .float x

def int? : Value → Option Int64
  | int n => some n
  | _ => none

def float? : Value → Option Binary64
  | float x => some x
  | int n => some (Binary64.ofInt n.toInt)
  | _ => none

def text? : Value → Option String
  | text s => some s
  | _ => none

def typeName : Value → String
  | int _ => "int"
  | float _ => "float"
  | text _ => "string"
  | target _ => "divert target"
  | pointer _ => "variable pointer"

def display : Value → String
  | int n => String.ofList (writeInt n.toInt)
  | float x => x.display
  | text s => s
  | target path => "-> " ++ path.text
  | pointer p => "ref " ++ p.name

def eqv : Value → Value → Bool
  | float x, float y => x.eqv y
  | v, w => v = w

end Value

end StoryCodec
