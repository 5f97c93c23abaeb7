import StoryCodec.Story.Object
import StoryCodec.Text.Blank
import StoryCodec.Wire.Malformed

namespace StoryCodec

/-- An integer given as a JSON number or as a string of digits between blanks. A number beyond 64
bits is taken for the nearest integer within them, a string is not. -/
def Json.integer? : Json → Option Int64
  | .num n => n.whole?.map clampInt64
  | .str s => (Numeral.readInteger? (trimBlanks s.toList)).bind int64?
  | _ => none

namespace Record

def string? (fields : Fields Json) (key : String) : Except Reason (Option String) :=
  match fields.get? key with
  | none => .ok none
  | some (.str s) => .ok (some s)
  | some _ => .error (.notString key)

def integer? (fields : Fields Json) (key : String) : Except Reason (Option Int64) :=
  match fields.get? key with
  | none => .ok none
  | some token =>
    match token.integer? with
    | some n => .ok (some n)
    | none => .error (.notInteger key)

def narrowed? {α : Type} (narrow : Int → Option α) (fault : Reason) (fields : Fields Json)
    (key : String) : Except Reason (Option α) := do
  match ← integer? fields key with
  | none => .ok none
  | some n =>
    match narrow n.toInt with
    | some m => .ok (some m)
    | none => .error fault

/-- Reads one shape of record, or leaves the fields to another. -/
abbrev Shape := Fields Json → Except Reason (Option Object)

def targetValue : Shape := fun fields => do
  match ← string? fields "^->" with
  | none => .ok none
  | some target => .ok (some (.value (.target (.parse target))))

def pointerValue : Shape := fun fields => do
  match ← string? fields "^var" with
  | none => .ok none
  | some name =>
    let context ← narrowed? int32? (.outOfRange "ci") fields "ci"
    .ok (some (.value (.pointer ⟨name, context⟩)))

inductive Departure
  | jump
  | call
  | tunnel
  | external
deriving DecidableEq

namespace Departure

def all : List Departure := [jump, call, tunnel, external]

def key : Departure → String
  | jump => "->"
  | call => "f()"
  | tunnel => "->t->"
  | external => "x()"

end Departure

def divert : Shape := fun fields =>
  match Departure.all.filter fun departure => fields.has departure.key with
  | [] => .ok none
  | [departure] => do
    let target := (← string? fields departure.key).getD ""
    let plain :=
      if fields.has "var" then Divert.toVariable target else Divert.toPath (.parse target)
    match departure with
    | .jump => .ok (some (.divert plain))
    | .call => .ok (some (.divert (plain.pushing .function)))
    | .tunnel => .ok (some (.divert (plain.pushing .tunnel)))
    | .external =>
      let args ← narrowed? uint64? .negativeArguments fields "exArgs"
      .ok (some (.divert (plain.calling (args.getD 0))))
  | _ => .error .severalDivertKeys

def choicePoint : Shape := fun fields => do
  match ← string? fields "*" with
  | none => .ok none
  | some path =>
    let bits ← narrowed? uint32? (.outOfRange "flg") fields "flg"
    .ok (some (.choicePoint ⟨.parse path, ⟨bits.getD 0⟩⟩))

def reference : Shape := fun fields => do
  match ← string? fields "VAR?" with
  | some name => .ok (some (.reference (.named name)))
  | none =>
    match ← string? fields "CNT?" with
    | some path => .ok (some (.reference (.readCount (.parse path))))
    | none => .ok none

def assignment : Shape := fun fields => do
  let isNew := !fields.has "re"
  match ← string? fields "VAR=" with
  | some name => .ok (some (.assignment ⟨name, true, isNew⟩))
  | none =>
    match ← string? fields "temp=" with
    | some name => .ok (some (.assignment ⟨name, false, isNew⟩))
    | none => .ok none

/-- The shapes that a field of their own marks, in the order in which they are tried. -/
def marked : List Shape :=
  [targetValue, pointerValue, divert, choicePoint, reference, assignment]

def firstOf : List Shape → Shape
  | [], _ => .ok none
  | shape :: shapes, fields => do
    match ← shape fields with
    | some o => .ok (some o)
    | none => firstOf shapes fields

/-- A choice has no mark of its own; a null in place of its path counts as none. -/
def choice : Shape := fun fields =>
  match fields.get? "originalChoicePath" with
  | none => .ok none
  | some .null => .ok none
  | some _ => do
    let path := (← string? fields "originalChoicePath").getD ""
    let text := (← string? fields "text").getD ""
    let index := (← integer? fields "index").getD 0
    let thread := (← integer? fields "originalThreadIndex").getD 0
    .ok (some (.choice ⟨text, index, path, thread⟩))

end Record

end StoryCodec
