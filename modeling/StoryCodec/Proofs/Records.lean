import StoryCodec.Proofs.Decoded

namespace StoryCodec.Record

/-- An object that a record may stand for, with what its parts were read from where they are not
texts. -/
inductive Yields (fields : Fields Json) : Object → Prop
  | target (p : Path) : Yields fields (.value (.target p))
  | pointer (name : String) {context : Option Int32}
      (h : narrowed? int32? (.outOfRange "ci") fields "ci" = .ok context) :
      Yields fields (.value (.pointer ⟨name, context⟩))
  | jump {d : Divert} (h : d.external = false) : Yields fields (.divert d)
  | call (d : Divert) {args : Option UInt64}
      (h : narrowed? uint64? .negativeArguments fields "exArgs" = .ok args) :
      Yields fields (.divert (d.calling (args.getD 0)))
  | choicePoint (p : Path) {bits : Option UInt32}
      (h : narrowed? uint32? (.outOfRange "flg") fields "flg" = .ok bits) :
      Yields fields (.choicePoint ⟨p, ⟨bits.getD 0⟩⟩)
  | reference (r : VariableReference) : Yields fields (.reference r)
  | assignment (a : VariableAssignment) : Yields fields (.assignment a)
  | branch {onTrue onFalse : Option Object} (htrue : Decoding.side "t?" fields = .ok onTrue)
      (hfalse : Decoding.side "f?" fields = .ok onFalse)
      (hsome : (onTrue.bind Object.divert?).isSome ∨ (onFalse.bind Object.divert?).isSome) :
      Yields fields (.branch ⟨onTrue.bind Object.divert?, onFalse.bind Object.divert?⟩)
  | choice (text path : String) {index thread : Option Int64}
      (hindex : integer? fields "index" = .ok index)
      (hthread : integer? fields "originalThreadIndex" = .ok thread) :
      Yields fields (.choice ⟨text, index.getD 0, path, thread.getD 0⟩)

variable {fields : Fields Json} {o : Object}

theorem yields_of_targetValue (h : targetValue fields = .ok (some o)) : Yields fields o := by
  obtain ⟨s, -, h⟩ := bind_eq_ok.1 h
  cases s with
  | none => cases h
  | some s => cases h; exact .target _

theorem yields_of_pointerValue (h : pointerValue fields = .ok (some o)) : Yields fields o := by
  obtain ⟨s, -, h⟩ := bind_eq_ok.1 h
  cases s with
  | none => cases h
  | some s =>
      obtain ⟨context, hcontext, h⟩ := bind_eq_ok.1 h
      cases h
      exact .pointer s hcontext

theorem yields_of_divert (h : Record.divert fields = .ok (some o)) : Yields fields o := by
  rw [Record.divert] at h
  split at h
  next => cases h
  next departure _ =>
    obtain ⟨s, -, h⟩ := bind_eq_ok.1 h
    cases departure with
    | external =>
        obtain ⟨args, hargs, h⟩ := bind_eq_ok.1 h
        cases h
        exact .call _ hargs
    | jump | call | tunnel =>
        cases h
        refine .jump ?_
        split <;> rfl
  next => cases h

theorem yields_of_choicePoint (h : Record.choicePoint fields = .ok (some o)) : Yields fields o := by
  obtain ⟨s, -, h⟩ := bind_eq_ok.1 h
  cases s with
  | none => cases h
  | some s =>
      obtain ⟨bits, hbits, h⟩ := bind_eq_ok.1 h
      cases h
      exact .choicePoint _ hbits

theorem yields_of_reference (h : Record.reference fields = .ok (some o)) : Yields fields o := by
  obtain ⟨s, -, h⟩ := bind_eq_ok.1 h
  cases s with
  | some s => cases h; exact .reference _
  | none =>
      obtain ⟨s, -, h⟩ := bind_eq_ok.1 h
      cases s with
      | none => cases h
      | some s => cases h; exact .reference _

theorem yields_of_assignment (h : Record.assignment fields = .ok (some o)) : Yields fields o := by
  obtain ⟨s, -, h⟩ := bind_eq_ok.1 h
  cases s with
  | some s => cases h; exact .assignment _
  | none =>
      obtain ⟨s, -, h⟩ := bind_eq_ok.1 h
      cases s with
      | none => cases h
      | some s => cases h; exact .assignment _

theorem yields_of_choice (h : Record.choice fields = .ok (some o)) : Yields fields o := by
  rw [Record.choice] at h
  split at h
  next => cases h
  next => cases h
  next =>
    simp only [bind_eq_ok] at h
    obtain ⟨path, -, text, -, index, hindex, thread, hthread, h⟩ := h
    cases h
    exact .choice _ _ hindex hthread

theorem yields_of_decode (h : Object.decode (.obj fields) = .ok (some o)) : Yields fields o := by
  rcases Object.decode_obj_cases h with hmarked | ⟨_, _, htrue, hfalse, rfl, hsome⟩ | hchoice
  · obtain ⟨shape, hmem, hshape⟩ := exists_of_firstOf hmarked
    simp only [marked, List.mem_cons, List.not_mem_nil, or_false] at hmem
    rcases hmem with rfl | rfl | rfl | rfl | rfl | rfl
    · exact yields_of_targetValue hshape
    · exact yields_of_pointerValue hshape
    · exact yields_of_divert hshape
    · exact yields_of_choicePoint hshape
    · exact yields_of_reference hshape
    · exact yields_of_assignment hshape
  · exact .branch htrue hfalse hsome
  · exact yields_of_choice hchoice

end StoryCodec.Record
