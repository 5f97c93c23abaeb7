import StoryCodec.Story.Path

namespace StoryCodec

/-- The value of a variable, or the number of times that a container was read. -/
inductive VariableReference
  | named (name : String)
  | readCount (path : Path)
deriving DecidableEq

namespace VariableReference

def name? : VariableReference → Option String
  | named name => some name
  | readCount _ => none

def path? : VariableReference → Option Path
  | named _ => none
  | readCount path => some path

end VariableReference

structure VariableAssignment where
  name : String
  isGlobal : Bool
  isNew : Bool
deriving DecidableEq

end StoryCodec
