import StoryCodec.Json.Basic
import StoryCodec.Numeral.Writing

namespace StoryCodec.Json

/-- A quote, a backslash and the control characters are escaped, and nothing else. -/
def escape (c : Char) : List Char :=
  if c = '"' then ['\\', '"']
  else if c = '\\' then ['\\', '\\']
  else if c = '\x08' then ['\\', 'b']
  else if c = '\t' then ['\\', 't']
  else if c = '\n' then ['\\', 'n']
  else if c = '\x0c' then ['\\', 'f']
  else if c = '\r' then ['\\', 'r']
  else if c < ' ' then
    ['\\', 'u', '0', '0', Nat.digitChar (c.toNat / 16), Nat.digitChar (c.toNat % 16)]
  else [c]

def writeString (s : String) : List Char :=
  '"' :: (s.toList.flatMap escape ++ ['"'])

/-- A point or a power of ten is always written, so that a float never reads back as an integer. The
power is written from `1e+16` on and below `0.00001`. -/
def floatStyle : FloatStyle := ⟨.toEven, fun power => -5 ≤ power && power ≤ 15, true⟩

def writeNumber : Number → List Char
  | .int n _ _ => writeInt n
  | .float x => x.write floatStyle

structure Layout where
  /-- What stands before an item at the given depth, and before a closing bracket. -/
  lineBreak : Nat → List Char
  colon : List Char

namespace Layout

def compact : Layout := ⟨fun _ => [], [':']⟩

/-- Each item on a line of its own, indented by two spaces for every level. -/
def indented : Layout := ⟨fun depth => '\n' :: List.replicate (2 * depth) ' ', [':', ' ']⟩

end Layout

mutual

def writeValue (layout : Layout) (depth : Nat) : Json → List Char
  | .null => "null".toList
  | .bool b => if b then "true".toList else "false".toList
  | .num n => writeNumber n
  | .str s => writeString s
  | .arr [] => ['[', ']']
  | .arr (item :: items) =>
    '[' :: (layout.lineBreak (depth + 1) ++ writeValue layout (depth + 1) item ++
      writeItems layout (depth + 1) items ++ layout.lineBreak depth ++ [']'])
  | .obj [] => ['{', '}']
  | .obj ((key, value) :: fields) =>
    '{' :: (layout.lineBreak (depth + 1) ++ writeString key ++ layout.colon ++
      writeValue layout (depth + 1) value ++ writeFields layout (depth + 1) fields ++
      layout.lineBreak depth ++ ['}'])

def writeItems (layout : Layout) (depth : Nat) : List Json → List Char
  | [] => []
  | item :: items =>
    ',' :: (layout.lineBreak depth ++ writeValue layout depth item ++ writeItems layout depth items)

def writeFields (layout : Layout) (depth : Nat) : List (String × Json) → List Char
  | [] => []
  | (key, value) :: fields =>
    ',' :: (layout.lineBreak depth ++ writeString key ++ layout.colon ++
      writeValue layout depth value ++ writeFields layout depth fields)

end

def write (layout : Layout) (token : Json) : String :=
  String.ofList (writeValue layout 0 token)

def compact (token : Json) : String :=
  token.write .compact

end StoryCodec.Json
