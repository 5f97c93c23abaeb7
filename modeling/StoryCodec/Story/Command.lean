namespace StoryCodec

/-- Instructions without operands to the evaluator and to the flow of a story. -/
inductive Command
  | evalStart
  | evalOutput
  | evalEnd
  | duplicate
  | popEvaluatedValue
  | popFunction
  | popTunnel
  | beginString
  | endString
  | noOp
  | choiceCount
  | turnsSince
  | visitIndex
  | sequenceShuffleIndex
  | startThread
  | done
  | finish
deriving DecidableEq

namespace Command

def all : List Command :=
  [evalStart, evalOutput, evalEnd, duplicate, popEvaluatedValue, popFunction, popTunnel,
    beginString, endString, noOp, choiceCount, turnsSince, visitIndex, sequenceShuffleIndex,
    startThread, done, finish]

def index (c : Command) : Nat := all.idxOf c

def ofIndex? (n : Nat) : Option Command := all[n]?

def name : Command → String
  | evalStart => "EvalStart"
  | evalOutput => "EvalOutput"
  | evalEnd => "EvalEnd"
  | duplicate => "Duplicate"
  | popEvaluatedValue => "PopEvaluatedValue"
  | popFunction => "PopFunction"
  | popTunnel => "PopTunnel"
  | beginString => "BeginString"
  | endString => "EndString"
  | noOp => "NoOp"
  | choiceCount => "ChoiceCount"
  | turnsSince => "TurnsSince"
  | visitIndex => "VisitIndex"
  | sequenceShuffleIndex => "SequenceShuffleIndex"
  | startThread => "StartThread"
  | done => "Done"
  | finish => "End"

def mnemonic : Command → String
  | evalStart => "ev"
  | evalOutput => "out"
  | evalEnd => "/ev"
  | duplicate => "du"
  | popEvaluatedValue => "pop"
  | popFunction => "~ret"
  | popTunnel => "->->"
  | beginString => "str"
  | endString => "/str"
  | noOp => "nop"
  | choiceCount => "choiceCnt"
  | turnsSince => "turns"
  | visitIndex => "visit"
  | sequenceShuffleIndex => "seq"
  | startThread => "thread"
  | done => "done"
  | finish => "end"

theorem mem_all (c : Command) : c ∈ all := by
  cases c <;> decide

theorem ofIndex?_index (c : Command) : ofIndex? c.index = some c := by
  cases c <;> rfl

theorem mnemonic_injective : ∀ c d : Command, c.mnemonic = d.mnemonic → c = d := by
  intro c d
  cases c <;> cases d <;> decide

end Command

end StoryCodec
