import StoryCodec.CommandLine.Summary
import StoryCodec.Json.Format

namespace StoryCodec

inductive StoryFault
  | unreadable (detail : String)
  | notJson
  | malformed (fault : Malformed)
  | nonFinite (fault : NonFinite)

def Story.read (format : JsonFormat) (text : String) : Except StoryFault Story :=
  match format.read? text with
  | none => .error .notJson
  | some token => (Story.decode token).mapError .malformed

def Story.write (format : JsonFormat) (onOneLine : Bool) (story : Story) :
    Except StoryFault String :=
  match story.encode with
  | .ok token => .ok (format.write onOneLine token)
  | .error fault => .error (.nonFinite fault)

namespace CommandLine

inductive Source
  | standardInput
  | file (name : String)
deriving DecidableEq

def Source.ofName (name : String) : Source :=
  if name = "-" then .standardInput else .file name

inductive Request
  | summarise (file : String)
  | reformat (file : String) (onOneLine : Bool)
  | listMnemonics
deriving DecidableEq

def mnemonicLine (entry : Command × String) : String :=
  String.ofList (entry.2.toList.rightpad 10 ' ') ++ " " ++ entry.1.name

/-- What a request is answered with: an exit code, the text that is printed, and what was wrong if
the request failed. -/
structure Outcome (Fault : Type) where
  code : UInt32
  output : String
  fault : Option Fault

def unlines (lines : List String) : String :=
  String.join (lines.map (· ++ "\n"))

namespace Request

def source? : Request → Option Source
  | summarise file | reformat file _ => some (.ofName file)
  | listMnemonics => none

section

variable (format : JsonFormat) (read : Source → Except StoryFault String)

def load (file : String) : Except StoryFault Story := do
  Story.read format (← read (.ofName file))

/-- The lines that answer a request. -/
def lines : Request → Except StoryFault (List String)
  | summarise file => do .ok (← load format read file).summary
  | reformat file onOneLine => do .ok [← (← load format read file).write format onOneLine]
  | listMnemonics => .ok (MnemonicTable.standard.entries.map mnemonicLine)

/-- Zero for success, and one for a story that cannot be read or written. -/
def run (request : Request) : Outcome StoryFault :=
  match request.lines format read with
  | .ok lines => ⟨0, unlines lines, none⟩
  | .error fault => ⟨1, "", some fault⟩

end

end Request

end CommandLine

end StoryCodec
