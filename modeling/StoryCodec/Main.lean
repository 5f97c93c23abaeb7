import StoryCodec.CommandLine.Run

open StoryCodec CommandLine

/-- The text of a source; one that cannot be read, or is no UTF-8, is a fault. -/
def readSource (source : Source) : IO (Except StoryFault String) := do
  try
    match source with
    | .file name => .ok <$> IO.FS.readFile name
    | .standardInput =>
      let bytes ← (← IO.getStdin).readBinToEnd
      match String.fromUTF8? bytes with
      | some text => pure (.ok text)
      | none => pure (.error (.unreadable "standard input is not UTF-8"))
  catch e => pure (.error (.unreadable (toString e)))

/-- The source that a command line names, if it names one. -/
def sourceOf? (arguments : List String) : Option Source :=
  match Invocation.ofArguments arguments with
  | .ok (.request request) => request.source?
  | _ => none

def main (arguments : List String) : IO UInt32 := do
  let text ← match sourceOf? arguments with
    | some source => readSource source
    | none => pure (.ok "")
  let outcome := run arguments fun _ => text
  IO.print outcome.output
  if let some fault := outcome.fault then
    IO.eprintln fault.message
  return outcome.code
