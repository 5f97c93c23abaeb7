import StoryCodec.CommandLine.Request

namespace StoryCodec.CommandLine

inductive Topic
  | program
  | decode
  | roundtrip
  | opcodes
  | help
deriving DecidableEq

/-- What a command line asks for: the answer to a request, or something about the program. -/
inductive Invocation
  | request (request : Request)
  | showVersion
  | showHelp (topic : Topic)
deriving DecidableEq

inductive UsageFault
  | noCommand
  | noFile
  | unknownCommand (word : String)
  | unexpected (word : String)
  | repeated (option : String)
deriving DecidableEq

structure Operands where
  file : Option String
  onOneLine : Bool

/-- What a command takes: a file or none, and the option for output on one line or not. -/
structure Form where
  topic : Topic
  takesFile : Bool
  takesLayout : Bool

def Form.takeFile (form : Form) (operands : Operands) (word : String) :
    Except UsageFault Operands :=
  if form.takesFile ∧ operands.file = none ∧ word ≠ "" then .ok { operands with file := some word }
  else .error (.unexpected word)

/-- Reads the arguments after a command, or finds that help is asked for. After two dashes no
argument is an option; a single dash never is one. -/
def Form.read (form : Form) (operands : Operands) :
    List String → Except UsageFault (Option Operands)
  | [] => .ok (some operands)
  | word :: words =>
    match word.toList with
    | ['-', '-'] => do .ok (some (← words.foldlM form.takeFile operands))
    | '-' :: '-' :: _ =>
      if word = "--help" then .ok none
      else if word = "--compact" ∧ form.takesLayout then
        if operands.onOneLine then .error (.repeated word)
        else form.read { operands with onOneLine := true } words
      else .error (.unexpected word)
    | '-' :: c :: _ => if c = 'h' then .ok none else .error (.unexpected word)
    | _ => do form.read (← form.takeFile operands word) words

def Form.invocation (form : Form) (make : Operands → Except UsageFault Request)
    (words : List String) : Except UsageFault Invocation := do
  match ← form.read ⟨none, false⟩ words with
  | none => .ok (.showHelp form.topic)
  | some operands => .ok (.request (← make operands))

def Operands.required (operands : Operands) : Except UsageFault String :=
  match operands.file with
  | some name => .ok name
  | none => .error .noFile

def Topic.ofWords : List String → Except UsageFault Topic
  | [] => .ok .program
  | ["decode"] => .ok .decode
  | ["roundtrip"] => .ok .roundtrip
  | ["opcodes"] => .ok .opcodes
  | ["help"] => .ok .help
  | word :: _ => .error (.unknownCommand word)

def Invocation.ofArguments : List String → Except UsageFault Invocation
  | [] => .error .noCommand
  | word :: words =>
    if word = "decode" then
      Form.invocation ⟨.decode, true, false⟩ (fun o => do .ok (.summarise (← o.required))) words
    else if word = "roundtrip" then
      Form.invocation ⟨.roundtrip, true, true⟩
        (fun o => do .ok (.reformat (← o.required) o.onOneLine)) words
    else if word = "opcodes" then
      Form.invocation ⟨.opcodes, false, false⟩ (fun _ => .ok .listMnemonics) words
    else if word = "help" then do .ok (.showHelp (← Topic.ofWords words))
    else
      match word.toList with
      | '-' :: '-' :: _ =>
        if word = "--help" then .ok (.showHelp .program)
        else if word = "--version" then .ok .showVersion
        else .error (.unexpected word)
      | '-' :: c :: _ =>
        if c = 'h' then .ok (.showHelp .program)
        else if c = 'V' then .ok .showVersion
        else .error (.unexpected word)
      | _ => .error (.unknownCommand word)

end StoryCodec.CommandLine
