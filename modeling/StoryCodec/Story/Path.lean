import StoryCodec.Numeral.Reading

namespace StoryCodec

inductive Component
  | index (n : UInt64)
  | name (text : String)
deriving DecidableEq

namespace Component

def parent : Component := .name "^"

def isParent (c : Component) : Bool := c = parent

def isIndex : Component → Bool
  | index _ => true
  | name _ => false

/-- A text is an index only if it is the decimal spelling of one, so that no spelling is lost:
with a zero in front or above 64 bits it is a name. -/
def ofChars (cs : List Char) : Component :=
  let n := Nat.ofDigitChars 10 cs 0
  if n < UInt64.size ∧ cs = Nat.toDigits 10 n then index (UInt64.ofNat n)
  else name (String.ofList cs)

def parse (text : String) : Component :=
  ofChars text.toList

def chars : Component → List Char
  | index n => Nat.toDigits 10 n.toNat
  | name text => text.toList

def text (c : Component) : String :=
  String.ofList c.chars

end Component

/-- A way through the containers of a story, from its root or from where it stands. -/
structure Path where
  relative : Bool
  components : List Component
deriving DecidableEq

namespace Path

/-- The pieces of a text between the dots; there is one more of them than there are dots. -/
def splitDots : List Char → List (List Char)
  | [] => [[]]
  | '.' :: cs => [] :: splitDots cs
  | c :: cs =>
    match splitDots cs with
    | [] => [[c]]
    | piece :: pieces => (c :: piece) :: pieces

def joinDots : List (List Char) → List Char
  | [] => []
  | [piece] => piece
  | piece :: pieces => piece ++ '.' :: joinDots pieces

def componentsOf (cs : List Char) : List Component :=
  if cs.isEmpty then [] else (splitDots cs).map Component.ofChars

/-- One dot in front makes a path relative; the others separate components. -/
def ofChars : List Char → Path
  | '.' :: cs => ⟨true, componentsOf cs⟩
  | cs => ⟨false, componentsOf cs⟩

def parse (text : String) : Path :=
  ofChars text.toList

def chars (p : Path) : List Char :=
  (if p.relative then ['.'] else []) ++ joinDots (p.components.map Component.chars)

def text (p : Path) : String :=
  String.ofList p.chars

def root : Path := ⟨false, []⟩

def length (p : Path) : Nat := p.components.length

def isEmpty (p : Path) : Bool := p.components.isEmpty

def head? (p : Path) : Option Component := p.components.head?

def last? (p : Path) : Option Component := p.components.getLast?

def tail (p : Path) : Path := { p with components := p.components.tail }

def hasNames (p : Path) : Bool := p.components.any fun c => !c.isIndex

/-- How many steps towards the root a path begins with; only a relative path climbs. -/
def climb (p : Path) : Nat :=
  if p.relative then (p.components.takeWhile Component.isParent).length else 0

/-- The second path seen from the end of the first. Each step that the second climbs takes a
component off the first, and climbing stops at the root. -/
def join (p q : Path) : Path :=
  { p with components := p.components.take (p.length - q.climb) ++ q.components.drop q.climb }

end Path

end StoryCodec
