import StoryCodec.Story.Path

namespace StoryCodec

/-- What a divert leaves on the call stack, to come back by. -/
inductive Frame
  | function
  | tunnel
deriving DecidableEq

inductive Target
  | path (p : Path)
  | variableNamed (name : String)
deriving DecidableEq

/-- A jump to another place of a story, or a call to a function of the game around it. The fields
are free of each other: a frame may be named though none is pushed. -/
structure Divert where
  target : Target
  pushes : Bool
  frame : Frame
  external : Bool
  args : UInt64
deriving DecidableEq

structure Branch where
  onTrue : Option Divert
  onFalse : Option Divert
deriving DecidableEq

namespace Target

def path? : Target → Option Path
  | path p => some p
  | variableNamed _ => none

def variableName? : Target → Option String
  | path _ => none
  | variableNamed name => some name

end Target

namespace Divert

def ofTarget (target : Target) : Divert :=
  ⟨target, false, .function, false, 0⟩

def toPath (p : Path) : Divert := ofTarget (.path p)

def toVariable (name : String) : Divert := ofTarget (.variableNamed name)

def pushing (d : Divert) (frame : Frame) : Divert :=
  { d with pushes := true, frame }

/-- A call to the game pushes no frame of the story. -/
def calling (d : Divert) (args : UInt64) : Divert :=
  { d with external := true, pushes := false, frame := .function, args }

end Divert

end StoryCodec
