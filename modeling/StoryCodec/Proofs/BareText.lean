import StoryCodec.Proofs.Mnemonics
import StoryCodec.Wire.Decoding
import Mathlib.Data.List.Nodup
import Mathlib.Data.List.Pairwise

namespace StoryCodec.BareText

section
variable {s : String} {o : Object} {f g : String → Option Object}
  {fs gs : List (String → Option Object)}

/-- Two kinds agree on a string unless it stands for two different objects in them. -/
def Agree (s : String) (f g : String → Option Object) : Prop :=
  ∀ o p, f s = some o → g s = some p → o = p

theorem Agree.refl (f : String → Option Object) : Agree s f f :=
  fun _ _ ho hp => Option.some.inj (ho.symm.trans hp)

theorem Agree.symm (h : Agree s f g) : Agree s g f :=
  fun o p ho hp => (h p o hp ho).symm

instance : Std.Symm (Agree s) := ⟨fun _ _ => Agree.symm⟩

theorem agree_of_exclusive (h : ¬((f s).isSome ∧ (g s).isSome)) : Agree s f g :=
  fun _ _ ho hp => absurd ⟨by simp [ho], by simp [hp]⟩ h

theorem findSome?_eq_some_iff (h : ∀ f ∈ fs, ∀ g ∈ fs, Agree s f g) :
    fs.findSome? (fun f => f s) = some o ↔ ∃ f ∈ fs, f s = some o := by
  refine ⟨List.exists_of_findSome?_eq_some, ?_⟩
  rintro ⟨f, hf, ho⟩
  cases hfind : fs.findSome? fun f => f s with
  | none =>
      rw [List.findSome?_eq_none_iff.1 hfind f hf] at ho
      cases ho
  | some p =>
      obtain ⟨g, hg, hp⟩ := List.exists_of_findSome?_eq_some hfind
      rw [h g hg f hf p o hp ho]

theorem findSome?_eq_of_perm (hperm : gs.Perm fs) (h : ∀ f ∈ fs, ∀ g ∈ fs, Agree s f g) :
    gs.findSome? (fun g => g s) = fs.findSome? (fun f => f s) := by
  have h' : ∀ f ∈ gs, ∀ g ∈ gs, Agree s f g :=
    fun f hf g hg => h f (hperm.mem_iff.1 hf) g (hperm.mem_iff.1 hg)
  apply Option.ext
  intro o
  simp only [findSome?_eq_some_iff h, findSome?_eq_some_iff h', hperm.mem_iff]

end

/-- The kinds that are lists of words. -/
def vocabularies : List ((String → Option Object) × List String) :=
  [(newline?, ["\n"]), (glue?, [Glue.bidirectional, .left, .right].map glueText),
    (command?, MnemonicTable.standard.entries.map (·.2)),
    (operator?, Operator.all.map Operator.symbol), (void?, ["void"])]

def words : List String := vocabularies.flatMap (·.2)

/-- The kinds but for the returns, which are commands. -/
def exclusive : List (String → Option Object) :=
  numeral? :: marked? :: vocabularies.map (·.1)

theorem nodup_words : words.Nodup := by decide

theorem number?_eq_none_of_mem_words : ∀ s ∈ words, number? s = none := by decide

theorem head?_ne_caret_of_mem_words : ∀ s ∈ words, s.toList.head? ≠ some '^' := by decide

section
variable {s : String} {kind : (String → Option Object) × List String}

theorem mem_of_isSome (hkind : kind ∈ vocabularies) (h : (kind.1 s).isSome) : s ∈ kind.2 := by
  simp only [vocabularies, List.mem_cons, List.not_mem_nil, or_false] at hkind
  rcases hkind with rfl | rfl | rfl | rfl | rfl
  · simpa [newline?] using h
  · exact find?_key_isSome_iff.1 (Option.isSome_map.symm.trans h)
  · exact find?_key_isSome_iff.1 (Option.isSome_map.symm.trans (Option.isSome_map.symm.trans h))
  · exact find?_key_isSome_iff.1 (Option.isSome_map.symm.trans h)
  · simpa [void?] using h

theorem mem_words (hkind : kind ∈ vocabularies) (h : (kind.1 s).isSome) : s ∈ words :=
  List.mem_flatMap.2 ⟨kind, hkind, mem_of_isSome hkind h⟩

theorem number?_eq_none_of_caret (h : s.toList.head? = some '^') : number? s = none := by
  obtain ⟨text, htext⟩ := List.head?_eq_some_iff.1 h
  have hread : Numeral.read? ('^' :: text) = none := by
    simp [Numeral.read?, Numeral.takeSign, Numeral.takeDigits, Numeral.takeFraction, Char.isDigit]
  simp [number?, htext, hread]

theorem head?_of_marked? (h : (marked? s).isSome) : s.toList.head? = some '^' := by
  rw [marked?] at h
  split at h
  next text htext => rw [htext, List.head?_cons]
  next => cases h

theorem numeral?_isSome_iff : (numeral? s).isSome ↔ number? s ≠ none := by
  rw [numeral?, Option.isSome_map, Option.isSome_iff_ne_none]

/-- Words differ from one list of them to the other, none is made of digits only or begins with a
caret, and what begins with one is no number. -/
theorem pairwise_exclusive (s : String) :
    exclusive.Pairwise fun f g => ¬((f s).isSome ∧ (g s).isSome) := by
  refine .cons ?_ (.cons ?_ ?_)
  · rintro g hg ⟨hnumeral, h⟩
    rw [numeral?_isSome_iff] at hnumeral
    rcases List.mem_cons.1 hg with rfl | hg
    · exact hnumeral (number?_eq_none_of_caret (head?_of_marked? h))
    · obtain ⟨kind, hkind, rfl⟩ := List.mem_map.1 hg
      exact hnumeral (number?_eq_none_of_mem_words s (mem_words hkind h))
  · rintro g hg ⟨hmarked, h⟩
    obtain ⟨kind, hkind, rfl⟩ := List.mem_map.1 hg
    exact head?_ne_caret_of_mem_words s (mem_words hkind h) (head?_of_marked? hmarked)
  · have hdisjoint := (List.nodup_flatMap.1 nodup_words).2
    refine List.pairwise_map.2 (hdisjoint.imp_of_mem fun hk hl hkl h => ?_)
    exact hkl (mem_of_isSome hk h.1) (mem_of_isSome hl h.2)

theorem command?_of_return? {o : Object} (h : return? s = some o) : command? s = some o := by
  rw [return?] at h
  split at h
  next hs =>
    subst hs
    exact h
  next =>
    obtain ⟨rfl, h⟩ := Option.ite_none_right_eq_some.1 h
    exact h

theorem exists_exclusive {f : String → Option Object} (hf : f ∈ kinds) :
    ∃ g ∈ exclusive, ∀ o, f s = some o → g s = some o := by
  have hcases : f = return? ∨ f ∈ exclusive := by
    simp only [kinds, exclusive, vocabularies, List.map_cons, List.map_nil, List.mem_cons] at hf ⊢
    tauto
  rcases hcases with rfl | hf
  · exact ⟨command?, by simp [exclusive, vocabularies], fun _ => command?_of_return?⟩
  · exact ⟨f, hf, fun _ => id⟩

theorem agree {f g : String → Option Object} (hf : f ∈ kinds) (hg : g ∈ kinds) : Agree s f g := by
  have hexclusive := ((pairwise_exclusive s).imp agree_of_exclusive).forall_of_forall
    fun f _ => Agree.refl f
  obtain ⟨f', hf', hff'⟩ := exists_exclusive (s := s) hf
  obtain ⟨g', hg', hgg'⟩ := exists_exclusive (s := s) hg
  intro o p ho hp
  exact hexclusive hf' hg' o p (hff' o ho) (hgg' p hp)

end

theorem numeric_of_number? {s : String} {v : Value} (h : number? s = some v) :
    (∃ n, v = .int n) ∨ ∃ x, v = .float (.finite x) := by
  obtain ⟨numeral, -, h⟩ := Option.bind_eq_some_iff.1 h
  obtain ⟨-, h⟩ := Option.ite_none_right_eq_some.1 h
  split at h
  next => cases h; exact .inl ⟨_, rfl⟩
  next =>
    cases h
    rw [Value.ofNumber]
    split
    next n _ => exact .inl ⟨n, rfl⟩
    next => exact .inr ⟨_, rfl⟩
  next => cases h

/-- What strings stand for that are no numbers. -/
inductive Verbal : Object → Prop
  | text (s : String) : Verbal (.value (.text s))
  | glue (g : Glue) : Verbal (.glue g)
  | command (c : Command) : Verbal (.command c)
  | operator (op : Operator) : Verbal (.operator op)
  | void : Verbal .void

theorem number_or_verbal_of_object? {s : String} {o : Object} (h : object? s = some o) :
    (∃ v, number? s = some v ∧ o = .value v) ∨ Verbal o := by
  obtain ⟨kind, hmem, hkind⟩ := List.exists_of_findSome?_eq_some h
  simp only [kinds, List.mem_cons, List.not_mem_nil, or_false] at hmem
  rcases hmem with rfl | rfl | rfl | rfl | rfl | rfl | rfl | rfl
  · obtain ⟨v, hv, rfl⟩ := Option.map_eq_some_iff.1 hkind
    exact .inl ⟨v, hv, rfl⟩
  · rw [marked?] at hkind
    split at hkind <;> cases hkind
    exact .inr (.text _)
  · obtain ⟨-, ⟨⟩⟩ := Option.ite_none_right_eq_some.1 hkind
    exact .inr (.text _)
  · obtain ⟨g, -, rfl⟩ := Option.map_eq_some_iff.1 hkind
    exact .inr (.glue g)
  · obtain ⟨c, -, rfl⟩ := Option.map_eq_some_iff.1 hkind
    exact .inr (.command c)
  · obtain ⟨op, -, rfl⟩ := Option.map_eq_some_iff.1 hkind
    exact .inr (.operator op)
  · obtain ⟨c, -, rfl⟩ := Option.map_eq_some_iff.1 (command?_of_return? hkind)
    exact .inr (.command c)
  · obtain ⟨-, ⟨⟩⟩ := Option.ite_none_right_eq_some.1 hkind
    exact .inr .void

theorem decode_eq_elim (s : String) : Object.decode (.str s) =
    (object? s).elim (.error ⟨.str s, .unrecognisedString⟩) fun o => .ok (some o) := by
  rw [Object.decode, Decoding.string]
  cases object? s <;> rfl

/-- A string stands for at most one thing, so that the order in which the kinds are tried is not
part of the format. -/
theorem decode_any_order (s : String) :
    ([numeral?, marked?, newline?, glue?, command?, operator?, void?].Pairwise
      fun f g => ¬((f s).isSome ∧ (g s).isSome)) ∧
    (∀ o, return? s = some o → command? s = some o) ∧
    ∀ order : List (String → Option Object), order.Perm kinds → Object.decode (.str s) =
      (order.findSome? fun kind => kind s).elim (.error ⟨.str s, .unrecognisedString⟩)
        fun o => .ok (some o) := by
  refine ⟨pairwise_exclusive s, fun _ => command?_of_return?, fun order horder => ?_⟩
  rw [findSome?_eq_of_perm horder fun f hf g hg => agree hf hg, decode_eq_elim, object?]

theorem decode_any_order_reverse :
    return? "~ret" = some (.command .popFunction) ∧ kinds.reverse.Perm kinds ∧
      command? "~ret" = some (.command .popFunction) ∧
      Object.decode (.str "~ret") =
        (kinds.reverse.findSome? fun kind => kind "~ret").elim
          (.error ⟨.str "~ret", .unrecognisedString⟩) fun o => .ok (some o) := by
  have hreturn : return? "~ret" = some (.command .popFunction) := rfl
  have horder := List.reverse_perm kinds
  obtain ⟨-, hcommand, hdecode⟩ := decode_any_order "~ret"
  exact ⟨hreturn, horder, hcommand _ hreturn, hdecode _ horder⟩

end StoryCodec.BareText
