import StoryCodec.Wire.BareText
import StoryCodec.Wire.Records

namespace StoryCodec

namespace Encoding

def float : Binary64 → Except NonFinite Json
  | .finite x => .ok (.num (.float x))
  | x => .error ⟨x⟩

/-- Text other than a newline is marked by a caret. -/
def text (s : String) : Json :=
  if isNewline s then .str s else .str ("^" ++ s)

def int64 (n : Int64) : Json := .num (.ofInt64 n)

def pointer (p : VariablePointer) : Json :=
  .obj (("^var", .str p.name) :: match p.context with
    | some context => [("ci", .num (.ofInt32 context))]
    | none => [])

def value : Value → Except NonFinite Json
  | .int n => .ok (int64 n)
  | .float x => float x
  | .text s => .ok (text s)
  | .target path => .ok (.obj [("^->", .str path.text)])
  | .pointer p => .ok (pointer p)

def departure (d : Divert) : Record.Departure :=
  if d.external then .external
  else if d.pushes then
    match d.frame with
    | .function => .call
    | .tunnel => .tunnel
  else .jump

def target (key : String) : Target → List (String × Json)
  | .path p => [(key, .str p.text)]
  | .variableNamed name => [(key, .str name), ("var", .bool true)]

def divert (d : Divert) : Json :=
  .obj (target (departure d).key d.target ++
    if d.external ∧ 0 < d.args then [("exArgs", .num (.ofUInt64 d.args))] else [])

def choicePoint (p : ChoicePoint) : Json :=
  .obj [("*", .str p.path.text), ("flg", .num (.ofUInt32 p.flags.bits))]

def reference : VariableReference → Json
  | .named name => .obj [("VAR?", .str name)]
  | .readCount path => .obj [("CNT?", .str path.text)]

def assignment (a : VariableAssignment) : Json :=
  .obj ((if a.isGlobal then "VAR=" else "temp=", .str a.name) ::
    if a.isNew then [] else [("re", .bool true)])

def side (key : String) : Option Divert → List (String × Json)
  | some d => [(key, divert d)]
  | none => []

def branch (b : Branch) : Json :=
  .obj (side "t?" b.onTrue ++ side "f?" b.onFalse)

def choice (c : Choice) : Json :=
  .obj [("text", .str c.text), ("index", int64 c.index), ("originalChoicePath", .str c.path),
    ("originalThreadIndex", int64 c.thread)]

/-- The last element of an array: the named children, then the flags and the name if there are any.
A child under one of their two keys gives way to them. -/
def terminator (named : Fields Json) (flags : CountFlags) (name : Option String) : Json :=
  let fields := if flags.isEmpty then named else named.insert "#f" (.num (.ofUInt32 flags.bits))
  let fields := match name with
    | some name => fields.insert "#n" (.str name)
    | none => fields
  if fields.isEmpty then .null else .obj fields

end Encoding

mutual

def Object.encode : Object → Except NonFinite Json
  | .container c => Encoding.container true c
  | .value v => Encoding.value v
  | .glue g => .ok (.str (BareText.glueText g))
  | .command c => .ok (.str c.mnemonic)
  | .operator op => .ok (.str op.symbol)
  | .divert d => .ok (Encoding.divert d)
  | .choicePoint p => .ok (Encoding.choicePoint p)
  | .reference r => .ok (Encoding.reference r)
  | .assignment a => .ok (Encoding.assignment a)
  | .branch b => .ok (Encoding.branch b)
  | .void => .ok (.str "void")
  | .choice c => .ok (Encoding.choice c)
termination_by structural o => o

def Encoding.container (withName : Bool) : Container → Except NonFinite Json
  | ⟨name, flags, content, named⟩ => do
    let items ← Encoding.list content
    let fields ← Encoding.named named
    .ok (.arr (items ++ [Encoding.terminator fields flags (if withName then name else none)]))
termination_by structural c => c

def Encoding.list : List Object → Except NonFinite (List Json)
  | [] => .ok []
  | o :: os => do
    let item ← o.encode
    let items ← Encoding.list os
    .ok (item :: items)
termination_by structural os => os

/-- The tokens of named children. A container is written without its name, which its key gives back.
-/
def Encoding.named : List (String × Object) → Except NonFinite (List (String × Json))
  | [] => .ok []
  | (key, o) :: rest => do
    let token ← match o with
      | .container c => Encoding.container false c
      | o => o.encode
    let fields ← Encoding.named rest
    .ok ((key, token) :: fields)
termination_by structural os => os

end

def Container.encode (c : Container) : Except NonFinite Json :=
  Encoding.container true c

def encodeList (os : List Object) : Except NonFinite Json :=
  (os.mapM Object.encode).map .arr

def encodeMap (objects : Fields Object) : Except NonFinite Json :=
  (objects.mapM fun (entry : String × Object) =>
    entry.2.encode.map fun token => (entry.1, token)).map .obj

def encodeCounts (counts : Fields Int64) : Json :=
  .obj (counts.map fun (key, n) => (key, Encoding.int64 n))

end StoryCodec
