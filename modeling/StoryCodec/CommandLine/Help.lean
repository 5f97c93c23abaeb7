import StoryCodec.CommandLine.Arguments

namespace StoryCodec.CommandLine

def programName : String := "tale-json"

def version : String := "0.1.0"

def UsageFault.message : UsageFault → String
  | noCommand => "no command is given"
  | noFile => "no file is given"
  | unknownCommand word => "unknown command: " ++ word
  | unexpected word => "unexpected argument: " ++ word
  | repeated option => "repeated option: " ++ option

def Topic.about : Topic → String
  | program => "Decode compiled story JSON"
  | decode => "Decode a story file and print a summary of its root container"
  | roundtrip => "Decode a story file and write it back out as JSON"
  | opcodes => "List the control command mnemonics"
  | help => "Print this message or the help of the given subcommand(s)"

def Topic.usage : Topic → String
  | program => "<COMMAND>"
  | decode => "decode <FILE>"
  | roundtrip => "roundtrip [OPTIONS] <FILE>"
  | opcodes => "opcodes"
  | help => "help [COMMAND]..."

def Topic.details : Topic → List String
  | program =>
    ["Commands:",
      "  decode     " ++ about decode,
      "  roundtrip  " ++ about roundtrip,
      "  opcodes    " ++ about opcodes,
      "  help       " ++ about help,
      "",
      "Options:",
      "  -h, --help     Print help",
      "  -V, --version  Print version"]
  | decode =>
    ["Arguments:",
      "  <FILE>  Story JSON file, or `-` for stdin",
      "",
      "Options:",
      "  -h, --help  Print help"]
  | roundtrip =>
    ["Arguments:",
      "  <FILE>  ",
      "",
      "Options:",
      "      --compact  Single-line output instead of pretty-printed",
      "  -h, --help     Print help"]
  | opcodes => ["Options:", "  -h, --help  Print help"]
  | help => ["Arguments:", "  [COMMAND]...  Print help for the subcommand(s)"]

def Topic.page (topic : Topic) : List String :=
  [topic.about, "", "Usage: " ++ programName ++ " " ++ topic.usage, ""] ++ topic.details

end StoryCodec.CommandLine
