import StoryCodec.Proofs.Depth
import StoryCodec.Proofs.PathText

namespace StoryCodec

/-- Only what a key of its own says is set: a frame where one is pushed, and arguments, which have to
fit a signed word, where the game is called. -/
def Divert.Expressible (d : Divert) : Prop :=
  (d.external = false ∧ d.args = 0 ∧ (d.pushes = false → d.frame = .function)) ∨
    (d.external = true ∧ d.pushes = false ∧ d.frame = .function ∧ d.args ≤ 0x7fffffffffffffff)

namespace Object

@[simp]
def diverts : Object → List Divert
  | divert d => [d]
  | branch b => b.onTrue.toList ++ b.onFalse.toList
  | _ => []

/-- The paths in an object, those in its children apart. -/
@[simp]
def paths : Object → List Path
  | value (.target p) => [p]
  | choicePoint p => [p.path]
  | reference r => r.path?.toList
  | o => o.diverts.filterMap fun d => d.target.path?

@[simp]
def Finite : Object → Prop
  | value (.float x) => x.finite?.isSome
  | _ => True

/-- A branch has a side, and no child stands under a key that terminators use themselves. -/
@[simp]
def Readable : Object → Prop
  | branch b => b.onTrue.isSome ∨ b.onFalse.isSome
  | container c => "#f" ∉ Fields.keys c.named ∧ "#n" ∉ Fields.keys c.named
  | _ => True

/-- A token says all of the object, its children apart. -/
structure Expressible (o : Object) : Prop where
  finite : o.Finite
  readable : o.Readable
  paths : ∀ p ∈ o.paths, p.Spelled
  diverts : ∀ d ∈ o.diverts, d.Expressible

def WellFormed (x : Object) : Prop :=
  x.Everywhere Expressible

theorem Readable.withName (c : Container) (name : Option String) (h : (container c).Readable) :
    (container { c with name }).Readable := h

theorem Finite.withName (c : Container) (name : Option String) (_ : (container c).Finite) :
    (container { c with name }).Finite := trivial

theorem expressible_iff {o : Object} : o.Expressible ↔ o.Finite ∧ o.Readable ∧
    (∀ p ∈ o.paths, p.Spelled) ∧ ∀ d ∈ o.diverts, d.Expressible :=
  ⟨fun h => ⟨h.finite, h.readable, h.paths, h.diverts⟩, fun h => ⟨h.1, h.2.1, h.2.2.1, h.2.2.2⟩⟩

theorem expressible_container {c : Container} : (container c).Expressible ↔ (container c).Readable := by
  simp [expressible_iff]

theorem Expressible.withName (c : Container) (name : Option String) (h : (container c).Expressible) :
    (container { c with name }).Expressible :=
  expressible_container.2 h.readable

end Object

end StoryCodec
