import StoryCodec.Wire.BareText
import StoryCodec.Wire.Records

namespace StoryCodec

/-- One entry of the record that ends an array: count flags, a name, or a child reached by name. -/
inductive Mark
  | flags (flags : CountFlags)
  | name (name : String)
  | child (key : String) (o : Object)

def Container.mark (c : Container) : Mark → Container
  | .flags flags => { c with countFlags := flags }
  | .name name => { c with name := some name }
  | .child key o => c.insertNamed key o

def Container.ofParts (parts : List Object × List Mark) : Container :=
  parts.2.foldl Container.mark (.ofContent parts.1)

namespace Decoding

def atToken {α : Type} (token : Json) : Except Reason α → Except Malformed α
  | .ok a => .ok a
  | .error reason => .error ⟨token, reason⟩

def number (n : Number) : Except Malformed (Option Object) :=
  match n with
  | .int i _ _ =>
    match int64? i with
    | some i => .ok (some (.value (.int i)))
    | none => .error ⟨.num n, .integerOutOfRange⟩
  | .float x => .ok (some (.value (.float (.finite x))))

def string (s : String) : Except Malformed (Option Object) :=
  match BareText.object? s with
  | some o => .ok (some o)
  | none => .error ⟨.str s, .unrecognisedString⟩

/-- Where an object is required, null is at fault itself. -/
def required (token : Json) : Except Malformed (Option Object) → Except Malformed Object
  | .ok (some o) => .ok o
  | .ok none => .error ⟨token, .nullContent⟩
  | .error fault => .error fault

/-- A record without a mark is a branch if a side of it is a divert; sides that are anything else
are left out. -/
def record (fields : Fields Json) (onTrue onFalse : Except Malformed (Option Object)) :
    Except Malformed (Option Object) := do
  match ← atToken (.obj fields) (Record.firstOf Record.marked fields) with
  | some o => .ok (some o)
  | none =>
    let onTrue := (← onTrue).bind Object.divert?
    let onFalse := (← onFalse).bind Object.divert?
    if onTrue.isSome || onFalse.isSome then .ok (some (.branch ⟨onTrue, onFalse⟩))
    else
      match ← atToken (.obj fields) (Record.choice fields) with
      | some o => .ok (some o)
      | none => .error ⟨.obj fields, .unrecognisedObject⟩

def mark (key : String) (token : Json) (child : Except Malformed Object) : Except Malformed Mark :=
  if key = "#f" then
    match token.integer?.bind fun n => uint32? n.toInt with
    | some bits => .ok (.flags ⟨bits⟩)
    | none => .error ⟨token, .notCountFlags⟩
  else if key = "#n" then
    match token.string? with
    | some name => .ok (.name name)
    | none => .error ⟨token, .notString "#n"⟩
  else child.map (.child key)

end Decoding

mutual

/-- The object that a token stands for; null stands for none. -/
def Object.decode : Json → Except Malformed (Option Object)
  | .null => .ok none
  | .bool b => .error ⟨.bool b, .unsupportedScalar⟩
  | .num n => Decoding.number n
  | .str s => Decoding.string s
  | .arr items => (Decoding.parts items).map fun parts => some (.container (.ofParts parts))
  | .obj fields => Decoding.record fields (Decoding.side "t?" fields) (Decoding.side "f?" fields)
termination_by structural token => token

/-- The content of an array and the marks of its last element, which is no content if it is an
object or null. -/
def Decoding.parts : List Json → Except Malformed (List Object × List Mark)
  | [] => .ok ([], [])
  | [.null] => .ok ([], [])
  | [.obj fields] => (Decoding.marks fields).map fun marks => ([], marks)
  | item :: items => do
    let o ← Decoding.required item (Object.decode item)
    let (content, marks) ← Decoding.parts items
    .ok (o :: content, marks)
termination_by structural items => items

def Decoding.marks : List (String × Json) → Except Malformed (List Mark)
  | [] => .ok []
  | (key, token) :: fields => do
    let mark ← Decoding.mark key token (Decoding.required token (Object.decode token))
    let marks ← Decoding.marks fields
    .ok (mark :: marks)
termination_by structural fields => fields

def Decoding.side (key : String) : List (String × Json) → Except Malformed (Option Object)
  | [] => .ok none
  | (k, token) :: fields => if k = key then Object.decode token else Decoding.side key fields
termination_by structural fields => fields

end

def Object.decodeRequired (token : Json) : Except Malformed Object :=
  Decoding.required token (Object.decode token)

def Container.decode (items : List Json) : Except Malformed Container :=
  (Decoding.parts items).map .ofParts

def decodeList (items : List Json) : Except Malformed (List Object) :=
  items.mapM Object.decodeRequired

def decodeMap (fields : Fields Json) : Except Malformed (Fields Object) :=
  fields.mapM fun (entry : String × Json) =>
    (Object.decodeRequired entry.2).map fun o => (entry.1, o)

def decodeCounts (fields : Fields Json) : Except Malformed (Fields Int64) :=
  fields.mapM fun (key, token) =>
    match token.integer? with
    | some n => .ok (key, n)
    | none => .error ⟨token, .notCount⟩

end StoryCodec
