import StoryCodec.Story.Object

namespace StoryCodec

mutual

/-- Equality of objects: floats are compared as numbers, and the order of named children does not
matter. -/
def Object.eqv : Object → Object → Bool
  | .container c, .container d => Container.eqv c d
  | .value v, .value w => v.eqv w
  | .glue g, .glue h => g = h
  | .command c, .command d => c = d
  | .operator op, .operator other => op = other
  | .divert d, .divert e => d = e
  | .choicePoint p, .choicePoint q => p = q
  | .reference r, .reference s => r = s
  | .assignment a, .assignment b => a = b
  | .branch b, .branch c => b = c
  | .void, .void => true
  | .choice c, .choice d => c = d
  | _, _ => false
termination_by structural o => o

def Container.eqv : Container → Container → Bool
  | ⟨name, flags, content, named⟩, d =>
    name = d.name && flags = d.countFlags && Object.eqvList content d.content &&
      named.length = d.named.length && Object.eqvNamed named d.named
termination_by structural c => c

def Object.eqvList : List Object → List Object → Bool
  | [], [] => true
  | o :: os, p :: ps => o.eqv p && Object.eqvList os ps
  | _, _ => false
termination_by structural os => os

/-- Every entry is found again under its key. -/
def Object.eqvNamed : List (String × Object) → List (String × Object) → Bool
  | [], _ => true
  | (key, o) :: rest, others =>
    (match Fields.get? key others with
      | some p => o.eqv p
      | none => false) && Object.eqvNamed rest others
termination_by structural os => os

end

end StoryCodec
