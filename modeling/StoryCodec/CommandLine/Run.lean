import StoryCodec.CommandLine.Help
import StoryCodec.Json.Standard

namespace StoryCodec

def Malformed.message (fault : Malformed) : String :=
  fault.text JsonFormat.standard.compact

def StoryFault.message : StoryFault → String
  | unreadable detail => detail
  | notJson => "not a JSON text"
  | malformed fault => fault.message
  | nonFinite fault => fault.message

namespace CommandLine

inductive Fault
  | usage (fault : UsageFault)
  | story (fault : StoryFault)

def Fault.message : Fault → String
  | usage fault => fault.message
  | story fault => fault.message

/-- Two for a command line that cannot be understood; a request has its own outcome. -/
def run (arguments : List String) (read : Source → Except StoryFault String) : Outcome Fault :=
  match Invocation.ofArguments arguments with
  | .error fault => ⟨2, "", some (.usage fault)⟩
  | .ok (.request request) =>
    let outcome := request.run .standard read
    { outcome with fault := outcome.fault.map .story }
  | .ok .showVersion => ⟨0, unlines [programName ++ " " ++ version], none⟩
  | .ok (.showHelp topic) => ⟨0, unlines topic.page, none⟩

end CommandLine

end StoryCodec
