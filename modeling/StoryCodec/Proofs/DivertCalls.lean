import StoryCodec.Proofs.DecodedLeaves
import StoryCodec.Proofs.Leaves
import Mathlib.Data.List.Induction

namespace StoryCodec.Divert

/-- A divert that leads to a path, or to what a variable holds, as nothing has changed it yet. The
path is one that its text says again. -/
inductive Plain : Divert → Prop
  | toPath {p : Path} (h : Path.parse p.text = p) : Plain (toPath p)
  | toVariable (name : String) : Plain (toVariable name)

/-- A change of a divert on the way to the one that is wanted. -/
inductive Change
  | pushing (frame : Frame)
  | calling (args : UInt64)
deriving DecidableEq

namespace Change

def apply (d : Divert) : Change → Divert
  | pushing frame => d.pushing frame
  | calling args => d.calling args

def frame? : Change → Option Frame
  | pushing frame => some frame
  | calling _ => none

def args? : Change → Option UInt64
  | pushing _ => none
  | calling args => some args

end Change

variable {d : Divert} {changes : List Change}

/-- The frame that is pushed after all: a call to the game takes back what was to be pushed before.
-/
def finalFrame? (changes : List Change) : Option Frame :=
  changes.getLast?.bind Change.frame?

/-- The number of arguments of the last call to the game, which no frame takes back. -/
def finalArgs? (changes : List Change) : Option UInt64 :=
  (changes.filterMap Change.args?).getLast?

/-- No change makes the divert a call to the game, or the last one does. -/
def CallsLast (changes : List Change) : Prop :=
  (∀ args, .calling args ∉ changes) ∨ ∃ args, changes.getLast? = some (.calling args)

theorem finalFrame?_concat (changes : List Change) (c : Change) :
    finalFrame? (changes ++ [c]) = c.frame? := by
  rw [finalFrame?, List.getLast?_concat, Option.bind_some]

theorem finalArgs?_concat (changes : List Change) (c : Change) :
    finalArgs? (changes ++ [c]) = c.args?.or (finalArgs? changes) := by
  cases c <;> simp [finalArgs?, Change.args?, List.filterMap_append]

/-- Of all changes only the last counts for the frame, and only the last call for the arguments. -/
theorem foldl_apply (t : Target) (changes : List Change) :
    changes.foldl Change.apply (ofTarget t) = ⟨t, (finalFrame? changes).isSome,
      (finalFrame? changes).getD .function, (finalArgs? changes).isSome,
      (finalArgs? changes).getD 0⟩ := by
  induction changes using List.reverseRecOn with
  | nil => rfl
  | append_singleton changes c ih =>
      rw [List.foldl_append, ih, finalFrame?_concat, finalArgs?_concat]
      cases c <;> simp [Change.apply, Change.frame?, Change.args?, pushing, calling]

theorem finalArgs?_eq_none_iff : finalArgs? changes = none ↔ ∀ args, .calling args ∉ changes := by
  rw [finalArgs?, List.getLast?_eq_none_iff, List.filterMap_eq_nil_iff]
  constructor
  · intro h args hargs
    cases h _ hargs
  · intro h c hc
    cases c with
    | pushing frame => rfl
    | calling args => exact absurd hc (h args)

theorem mem_of_finalArgs? {args : UInt64} (h : finalArgs? changes = some args) :
    .calling args ∈ changes := by
  obtain ⟨c, hc, hargs⟩ := List.mem_filterMap.1 (List.mem_of_getLast? h)
  cases c <;> cases hargs
  exact hc

theorem callsLast_iff :
    CallsLast changes ↔ finalArgs? changes = none ∨ finalFrame? changes = none := by
  rw [CallsLast, ← finalArgs?_eq_none_iff]
  induction changes using List.reverseRecOn with
  | nil => simp [finalArgs?]
  | append_singleton changes c =>
      rw [finalFrame?_concat, List.getLast?_concat]
      cases c <;> simp [Change.frame?]

theorem Plain.eq_ofTarget (h : d.Plain) : ∃ t : Target, d = ofTarget t ∧ t.reread = t := by
  cases h with
  | toPath h => exact ⟨.path _, rfl, congrArg Target.path h⟩
  | toVariable name => exact ⟨.variableNamed name, rfl, rfl⟩

/-- What is read for a divert that was changed: the frame of a call is lost, and nothing else. -/
theorem reread_foldl_apply {t : Target} (ht : t.reread = t)
    (hargs : ∀ args, .calling args ∈ changes → args ≤ 0x7fffffffffffffff) :
    (changes.foldl Change.apply (ofTarget t)).reread =
      match finalArgs? changes with
      | none => changes.foldl Change.apply (ofTarget t)
      | some args => (ofTarget t).calling args := by
  rw [foldl_apply, reread, ht]
  cases hcall : finalArgs? changes with
  | none => cases finalFrame? changes <;> rfl
  | some args =>
      have hmin : min args 0x7fffffffffffffff = args :=
        if_pos (hargs args (mem_of_finalArgs? hcall))
      simp [hmin]

/-- A divert comes back as it was made unless a frame was to be pushed after a call to the game.
Then it comes back as the call without the frame. -/
theorem roundTrip_iff_callsLast (plain : d.Plain)
    (hargs : ∀ args, .calling args ∈ changes → args ≤ 0x7fffffffffffffff) :
    let made := changes.foldl Change.apply d
    ∃ t, (Object.divert made).encode = .ok t ∧
      (Object.decode t = .ok (some (.divert made)) ↔ CallsLast changes) ∧
      (¬CallsLast changes → made.external ∧ made.pushes ∧ made.target = d.target ∧
        (changes.filterMap Change.args?).getLast? = some made.args ∧
        Object.decode t = .ok (some (.divert ⟨made.target, false, .function, true, made.args⟩))) := by
  obtain ⟨target, rfl, htarget⟩ := plain.eq_ofTarget
  intro made
  have hdecode := Object.decode_divert made
  rw [reread_foldl_apply htarget hargs] at hdecode
  have hmade : made = _ := foldl_apply target changes
  refine ⟨Encoding.divert made, rfl, ?_⟩
  rw [callsLast_iff]
  cases hcall : finalArgs? changes with
  | none =>
      rw [hcall] at hdecode
      exact ⟨⟨fun _ => .inl rfl, fun _ => hdecode⟩, fun h => absurd (.inl rfl) h⟩
  | some args =>
      rw [hcall] at hdecode hmade
      cases hframe : finalFrame? changes with
      | none =>
          have hsame : made = (ofTarget target).calling args := by rw [hmade, hframe]; rfl
          exact ⟨⟨fun _ => .inr rfl, fun _ => hsame ▸ hdecode⟩, fun h => absurd (.inr rfl) h⟩
      | some frame =>
          rw [hframe] at hmade
          refine ⟨⟨fun h => ?_, by simp⟩, fun _ => ?_⟩
          · rw [hdecode, hmade] at h
            cases h
          · rw [hdecode, hmade]
            exact ⟨rfl, rfl, rfl, hcall, rfl⟩

/-- The first of two calls is taken back, a frame between them too, and the frame behind them is
lost. -/
theorem roundTrip_iff_callsLast_framed :
    let changes : List Change := [.calling 7, .pushing .function, .calling 3, .pushing .tunnel]
    let made := changes.foldl Change.apply (toVariable "x")
    (toVariable "x").Plain ∧ (∀ args, .calling args ∈ changes → args ≤ 0x7fffffffffffffff) ∧
      ¬CallsLast changes ∧ ∃ t, (Object.divert made).encode = .ok t ∧
        Object.decode t = .ok (some (.divert ⟨.variableNamed "x", false, .function, true, 3⟩)) := by
  intro changes made
  have plain : (toVariable "x").Plain := .toVariable "x"
  have hargs : ∀ args, .calling args ∈ changes → args ≤ 0x7fffffffffffffff := by
    intro args h
    simp only [changes, List.mem_cons, Change.calling.injEq, reduceCtorEq, List.not_mem_nil,
      false_or, or_false] at h
    rcases h with rfl | rfl <;> decide
  have hlast : ¬CallsLast changes := by
    rw [callsLast_iff]
    decide
  obtain ⟨t, hencode, -, hlost⟩ := roundTrip_iff_callsLast plain hargs
  exact ⟨plain, hargs, hlast, t, hencode, (hlost hlast).2.2.2.2⟩

end StoryCodec.Divert
