import StoryCodec.Wire.Document

namespace StoryCodec

def decimal (n : Nat) : String := String.ofList (Nat.toDigits 10 n)

def Container.headline (depth : Nat) (c : Container) : String :=
  String.ofList (List.replicate (2 * depth) ' ') ++ c.name.getD "<anonymous>" ++
    " content=" ++ decimal c.content.length ++
    " named=" ++ decimal c.named.length ++
    " flags=" ++ decimal c.countFlags.bits.toNat

mutual

/-- A line for every container, each before the containers in it, those in the content first. -/
def Container.summary (depth : Nat) : Container → List String
  | ⟨name, flags, content, named⟩ =>
    Container.headline depth ⟨name, flags, content, named⟩ ::
      (Object.summaries (depth + 1) content ++ Object.namedSummaries (depth + 1) named)
termination_by structural c => c

def Object.summaries (depth : Nat) : List Object → List String
  | [] => []
  | .container c :: os => Container.summary depth c ++ Object.summaries depth os
  | _ :: os => Object.summaries depth os
termination_by structural os => os

def Object.namedSummaries (depth : Nat) : List (String × Object) → List String
  | [] => []
  | (_, .container c) :: os => Container.summary depth c ++ Object.namedSummaries depth os
  | _ :: os => Object.namedSummaries depth os
termination_by structural os => os

end

def Story.summary (story : Story) : List String :=
  (match story.version with
    | some version => ["inkVersion: " ++ String.ofList (writeInt version.toInt)]
    | none => []) ++ story.root.summary 0

end StoryCodec
