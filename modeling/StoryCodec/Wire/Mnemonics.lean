import StoryCodec.Story.Command
import StoryCodec.Text.Quoted

namespace StoryCodec

inductive TableFault
  | unnamed (command : Command)
  | repeated (command : Command)
  | shared (mnemonic : String) (first second : Command)
  | missing (command : Command)
deriving DecidableEq

def TableFault.detail : TableFault → String
  | unnamed command => command.name ++ " has an empty mnemonic"
  | repeated command => command.name ++ " has more than one mnemonic"
  | shared mnemonic first second =>
    "mnemonic " ++ quoted mnemonic ++ " is shared by " ++ first.name ++ " and " ++ second.name
  | missing command => command.name

def TableFault.message (fault : TableFault) : String :=
  "control command not accounted for in serialisation: " ++ fault.detail

/-- The mnemonics of all commands, in the order of the commands. -/
structure MnemonicTable where
  entries : List (Command × String)
deriving DecidableEq

namespace MnemonicTable

/-- Adds an entry that has a mnemonic, for a command and by a mnemonic that are both new. -/
def enter (seen : List (Command × String)) (entry : Command × String) :
    Except TableFault (List (Command × String)) :=
  if entry.2 = "" then .error (.unnamed entry.1)
  else if seen.any (·.1 = entry.1) then .error (.repeated entry.1)
  else
    match seen.find? (·.2 = entry.2) with
    | some other => .error (.shared entry.2 other.1 entry.1)
    | none => .ok (seen ++ [entry])

def named (seen : List (Command × String)) (command : Command) :
    Except TableFault (Command × String) :=
  match seen.find? (·.1 = command) with
  | some entry => .ok entry
  | none => .error (.missing command)

/-- The table with the given entries, which have to name every command once and no two alike. -/
def ofEntries (entries : List (Command × String)) : Except TableFault MnemonicTable := do
  let seen ← entries.foldlM enter []
  let inOrder ← Command.all.mapM (named seen)
  .ok ⟨inOrder⟩

def standard : MnemonicTable :=
  ⟨Command.all.map fun command => (command, command.mnemonic)⟩

def command? (table : MnemonicTable) (mnemonic : String) : Option Command :=
  (table.entries.find? (·.2 = mnemonic)).map (·.1)

def mnemonic (table : MnemonicTable) (command : Command) : String :=
  ((table.entries.find? (·.1 = command)).map (·.2)).getD ""

def size (table : MnemonicTable) : Nat := table.entries.length

def isEmpty (table : MnemonicTable) : Bool := table.entries.isEmpty

theorem ofEntries_standard : ofEntries standard.entries = .ok standard := by
  rfl

theorem standard_command?_mnemonic (command : Command) :
    standard.command? command.mnemonic = some command := by
  cases command <;> decide

end MnemonicTable

end StoryCodec
