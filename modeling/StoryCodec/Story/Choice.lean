import StoryCodec.Story.Path

namespace StoryCodec

structure ChoiceFlags where
  bits : UInt32
deriving DecidableEq

namespace ChoiceFlags

def has (flags : ChoiceFlags) (bit : UInt32) : Bool := flags.bits &&& bit ≠ 0

def hasCondition (flags : ChoiceFlags) : Bool := flags.has 1

def hasStartContent (flags : ChoiceFlags) : Bool := flags.has 2

def hasChoiceOnlyContent (flags : ChoiceFlags) : Bool := flags.has 4

def isInvisibleDefault (flags : ChoiceFlags) : Bool := flags.has 8

def onceOnly (flags : ChoiceFlags) : Bool := flags.has 16

end ChoiceFlags

structure ChoicePoint where
  path : Path
  flags : ChoiceFlags
deriving DecidableEq

/-- A choice that was offered, as a saved game keeps it. -/
structure Choice where
  text : String
  index : Int64
  path : String
  thread : Int64
deriving DecidableEq

end StoryCodec
