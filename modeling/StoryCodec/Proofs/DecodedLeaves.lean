import StoryCodec.Proofs.Building
import StoryCodec.Proofs.WellFormed
import StoryCodec.Proofs.Arrays
import StoryCodec.Proofs.BareText

namespace StoryCodec

theorem le_of_uint64?_toInt {n : Int64} {m : UInt64} (h : uint64? n.toInt = some m) :
    m ≤ 0x7fffffffffffffff := by
  have upper := n.toInt_lt
  rw [uint64?] at h
  split at h
  next hn =>
    cases h
    change (UInt64.ofNat n.toInt.toNat).toNat ≤ 0x7fffffffffffffff
    rw [UInt64.toNat_ofNat_of_lt' (by change _ < 2 ^ 64; omega)]
    omega
  next => cases h

namespace Divert

theorem expressible_ofTarget (t : Target) : (ofTarget t).Expressible :=
  .inl ⟨rfl, rfl, fun _ => rfl⟩

theorem expressible_pushing (t : Target) (frame : Frame) : ((ofTarget t).pushing frame).Expressible :=
  .inl ⟨rfl, rfl, by simp [pushing]⟩

theorem expressible_calling (t : Target) {args : UInt64} (h : args ≤ 0x7fffffffffffffff) :
    ((ofTarget t).calling args).Expressible :=
  .inr ⟨rfl, rfl, rfl, h⟩

end Divert

namespace Record

variable {fields : Fields Json} {o : Object}

theorem narrowed?_uint64_le {fault : Reason} {key : String} {n : UInt64}
    (h : narrowed? uint64? fault fields key = .ok (some n)) : n ≤ 0x7fffffffffffffff := by
  simp only [narrowed?, bind_eq_ok] at h
  obtain ⟨i, -, h⟩ := h
  cases i with
  | none => cases h
  | some i =>
      cases hn : uint64? i.toInt with
      | none => simp [hn] at h
      | some m =>
          simp only [hn, Except.ok.injEq, Option.some.injEq] at h
          exact h ▸ le_of_uint64?_toInt hn

theorem targetValue_expressible (h : targetValue fields = .ok (some o)) :
    o.container? = none ∧ o.Expressible := by
  simp only [targetValue, bind_eq_ok] at h
  obtain ⟨s, -, h⟩ := h
  cases s with
  | none => cases h
  | some s =>
      cases h
      exact ⟨rfl, by simpa [Object.expressible_iff] using Path.spelled_parse s⟩

theorem pointerValue_expressible (h : pointerValue fields = .ok (some o)) :
    o.container? = none ∧ o.Expressible := by
  simp only [pointerValue, bind_eq_ok] at h
  obtain ⟨s, -, h⟩ := h
  cases s with
  | none => cases h
  | some s =>
      simp only [bind_eq_ok] at h
      obtain ⟨context, -, h⟩ := h
      cases h
      exact ⟨rfl, by simp [Object.expressible_iff]⟩

theorem expressible_divert {d : Divert} (hp : ∀ p, d.target.path? = some p → p.Spelled)
    (h : d.Expressible) : (Object.divert d).Expressible :=
  Object.expressible_iff.2 ⟨trivial, trivial, by simpa using hp, by simpa using h⟩

theorem divert_expressible (h : Record.divert fields = .ok (some o)) :
    o.container? = none ∧ o.Expressible := by
  rw [Record.divert] at h
  split at h
  next => cases h
  next departure _ =>
    simp only [bind_eq_ok] at h
    obtain ⟨s, -, h⟩ := h
    obtain ⟨target, hplain, hspelled⟩ : ∃ target : Target,
        (if fields.has "var" then Divert.toVariable (s.getD "")
          else Divert.toPath (.parse (s.getD ""))) = Divert.ofTarget target ∧
        ∀ p, target.path? = some p → p.Spelled := by
      split
      · exact ⟨.variableNamed _, rfl, by simp [Target.path?]⟩
      · refine ⟨.path _, rfl, ?_⟩
        rintro p ⟨⟩
        exact Path.spelled_parse _
    rw [hplain] at h
    cases departure with
    | jump => cases h; exact ⟨rfl, expressible_divert hspelled (Divert.expressible_ofTarget target)⟩
    | call => cases h; exact ⟨rfl, expressible_divert hspelled (Divert.expressible_pushing target _)⟩
    | tunnel => cases h; exact ⟨rfl, expressible_divert hspelled (Divert.expressible_pushing target _)⟩
    | external =>
        simp only [bind_eq_ok] at h
        obtain ⟨args, hargs, h⟩ := h
        cases h
        refine ⟨rfl, expressible_divert hspelled (Divert.expressible_calling target ?_)⟩
        cases args with
        | none => decide
        | some n => exact narrowed?_uint64_le hargs
  next => cases h

theorem choicePoint_expressible (h : Record.choicePoint fields = .ok (some o)) :
    o.container? = none ∧ o.Expressible := by
  simp only [Record.choicePoint, bind_eq_ok] at h
  obtain ⟨s, -, h⟩ := h
  cases s with
  | none => cases h
  | some s =>
      simp only [bind_eq_ok] at h
      obtain ⟨bits, -, h⟩ := h
      cases h
      exact ⟨rfl, by simpa [Object.expressible_iff] using Path.spelled_parse s⟩

theorem reference_expressible (h : Record.reference fields = .ok (some o)) :
    o.container? = none ∧ o.Expressible := by
  simp only [Record.reference, bind_eq_ok] at h
  obtain ⟨s, -, h⟩ := h
  cases s with
  | some s =>
      cases h
      exact ⟨rfl, by simp [Object.expressible_iff, VariableReference.path?]⟩
  | none =>
      simp only [bind_eq_ok] at h
      obtain ⟨s, -, h⟩ := h
      cases s with
      | none => cases h
      | some s =>
          cases h
          have hs := Path.spelled_parse s
          exact ⟨rfl, by simpa [Object.expressible_iff, VariableReference.path?] using hs⟩

theorem assignment_expressible (h : Record.assignment fields = .ok (some o)) :
    o.container? = none ∧ o.Expressible := by
  simp only [Record.assignment, bind_eq_ok] at h
  obtain ⟨s, -, h⟩ := h
  cases s with
  | some s =>
      cases h
      exact ⟨rfl, by simp [Object.expressible_iff]⟩
  | none =>
      simp only [bind_eq_ok] at h
      obtain ⟨s, -, h⟩ := h
      cases s with
      | none => cases h
      | some s =>
          cases h
          exact ⟨rfl, by simp [Object.expressible_iff]⟩

theorem choice_expressible (h : Record.choice fields = .ok (some o)) :
    o.container? = none ∧ o.Expressible := by
  rw [Record.choice] at h
  split at h
  next => cases h
  next => cases h
  next =>
    simp only [bind_eq_ok] at h
    obtain ⟨path, -, text, -, index, -, thread, -, h⟩ := h
    cases h
    exact ⟨rfl, by simp [Object.expressible_iff]⟩

theorem exists_of_firstOf {shapes : List Shape} (h : firstOf shapes fields = .ok (some o)) :
    ∃ shape ∈ shapes, shape fields = .ok (some o) := by
  induction shapes with
  | nil => cases h
  | cons shape shapes ih =>
      simp only [firstOf, bind_eq_ok] at h
      obtain ⟨first, hfirst, h⟩ := h
      cases first with
      | some o =>
          cases h
          exact ⟨shape, List.mem_cons_self, hfirst⟩
      | none =>
          obtain ⟨shape, hmem, hshape⟩ := ih h
          exact ⟨shape, List.mem_cons_of_mem _ hmem, hshape⟩

theorem firstOf_expressible (h : firstOf marked fields = .ok (some o)) :
    o.container? = none ∧ o.Expressible := by
  obtain ⟨shape, hmem, hshape⟩ := exists_of_firstOf h
  simp only [marked, List.mem_cons, List.not_mem_nil, or_false] at hmem
  rcases hmem with rfl | rfl | rfl | rfl | rfl | rfl
  · exact targetValue_expressible hshape
  · exact pointerValue_expressible hshape
  · exact divert_expressible hshape
  · exact choicePoint_expressible hshape
  · exact reference_expressible hshape
  · exact assignment_expressible hshape

end Record

namespace BareText

theorem object?_expressible {s : String} {o : Object} (h : object? s = some o) :
    o.container? = none ∧ o.Expressible := by
  rcases number_or_verbal_of_object? h with ⟨v, hv, rfl⟩ | hverbal
  · rcases numeric_of_number? hv with ⟨n, rfl⟩ | ⟨x, rfl⟩
    · exact ⟨rfl, by simp [Object.expressible_iff]⟩
    · exact ⟨rfl, by simp [Object.expressible_iff, Binary64.finite?]⟩
  · cases hverbal <;> exact ⟨rfl, by simp [Object.expressible_iff]⟩

end BareText

end StoryCodec
