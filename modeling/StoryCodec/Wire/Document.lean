import StoryCodec.Wire.Decoding
import StoryCodec.Wire.Encoding

namespace StoryCodec

/-- A compiled story: its root container, and the version of the format if the compiler noted it. -/
structure Story where
  version : Option Int64
  root : Container

namespace Story

def version? (fields : Fields Json) : Except Reason (Option Int64) :=
  Record.integer? fields "inkVersion"

/-- A story is a record with a root, or the array of the root alone. -/
def decode : Json → Except Malformed Story
  | .arr items => do .ok ⟨none, ← Container.decode items⟩
  | .obj fields =>
    match Fields.get? "root" fields with
    | some (.arr items) => do
      let version ← Decoding.atToken (.obj fields) (version? fields)
      let root ← Container.decode items
      .ok ⟨version, root⟩
    | _ => .error ⟨.obj fields, .noRoot⟩
  | token => .error ⟨token, .notDocument⟩

def encode (story : Story) : Except NonFinite Json := do
  let root ← story.root.encode
  .ok (.obj ((match story.version with
    | some version => [("inkVersion", Encoding.int64 version)]
    | none => []) ++ [("root", root)]))

end Story

end StoryCodec
