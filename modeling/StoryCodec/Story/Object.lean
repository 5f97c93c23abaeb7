import StoryCodec.Fields
import StoryCodec.Story.Choice
import StoryCodec.Story.Command
import StoryCodec.Story.Divert
import StoryCodec.Story.Operator
import StoryCodec.Story.Value
import StoryCodec.Story.Variable

namespace StoryCodec

/-- A mark that suppresses the line break on one side of it, or on both. -/
inductive Glue
  | bidirectional
  | left
  | right
deriving DecidableEq

/-- What is counted when the player comes to a container. -/
structure CountFlags where
  bits : UInt32
deriving DecidableEq

mutual

inductive Object
  | container (c : Container)
  | value (v : Value)
  | glue (g : Glue)
  | command (c : Command)
  | operator (op : Operator)
  | divert (d : Divert)
  | choicePoint (p : ChoicePoint)
  | reference (r : VariableReference)
  | assignment (a : VariableAssignment)
  | branch (b : Branch)
  | void
  | choice (c : Choice)

/-- A node of the tree of a story: content that is run through in order, and children that are only
reached by name. -/
structure Container where
  name : Option String
  countFlags : CountFlags
  content : List Object
  named : List (String × Object)

end

namespace Glue

def isLeft (g : Glue) : Bool := g = left

def isRight (g : Glue) : Bool := g = right

end Glue

namespace CountFlags

def isEmpty (flags : CountFlags) : Bool := flags.bits = 0

def has (flags : CountFlags) (bit : UInt32) : Bool := flags.bits &&& bit ≠ 0

def visits (flags : CountFlags) : Bool := flags.has 1

def turns (flags : CountFlags) : Bool := flags.has 2

def startOnly (flags : CountFlags) : Bool := flags.has 4

end CountFlags

namespace Object

def kind : Object → String
  | container _ => "container"
  | value _ => "value"
  | glue _ => "glue"
  | command _ => "control command"
  | operator _ => "native function call"
  | divert _ => "divert"
  | choicePoint _ => "choice point"
  | reference _ => "variable reference"
  | assignment _ => "variable assignment"
  | branch _ => "branch"
  | void => "void"
  | choice _ => "choice"

def container? : Object → Option Container
  | container c => some c
  | _ => none

def value? : Object → Option Value
  | value v => some v
  | _ => none

def divert? : Object → Option Divert
  | divert d => some d
  | _ => none

def command? : Object → Option Command
  | command c => some c
  | _ => none

/-- A container is renamed, and all else has no name. -/
def renamed (name : String) : Object → Object
  | container c => container { c with name := some name }
  | o => o

end Object

namespace Container

def empty : Container := ⟨none, ⟨0⟩, [], []⟩

def ofContent (content : List Object) : Container := { empty with content }

def push (c : Container) (o : Object) : Container :=
  { c with content := c.content ++ [o] }

/-- A child that is stored under a key is called by that key. -/
def insertNamed (c : Container) (key : String) (o : Object) : Container :=
  { c with named := Fields.insert key (o.renamed key) c.named }

def getNamed? (c : Container) (key : String) : Option Object :=
  Fields.get? key c.named

def eraseNamed (c : Container) (key : String) : Container :=
  { c with named := Fields.erase key c.named }

/-- The children that have a name: containers in the content, then all those reached by name only.
-/
def namedContent (c : Container) : List (String × Object) :=
  (c.content.filterMap fun o => do
    let child ← o.container?
    let name ← child.name
    some (name, o)) ++ c.named

def isPlain (c : Container) : Bool :=
  c.name.isNone && c.countFlags.isEmpty && c.named.isEmpty

end Container

end StoryCodec
