import StoryCodec.Json.Standard
import StoryCodec.Proofs.FormatLaws
import StoryCodec.Proofs.JsonText

namespace StoryCodec

namespace Json

/-- What a reader takes off a text has a property. -/
def Yields {α : Type} (reader : Reader α) (P : α → Prop) : Prop :=
  ∀ cs a rest, reader cs = some (a, rest) → P a

theorem yields_readItems {α : Type} {item : Reader α} {P : α → Prop} (h : Yields item P)
    (close : Char) (bound : Nat) :
    Yields (readItems item close bound) fun as => ∀ a ∈ as, P a := by
  intro cs as rest hread
  induction bound generalizing cs as rest with
  | zero => cases hread
  | succ bound ih =>
      simp only [readItems, Option.bind_eq_bind, Option.bind_eq_some_iff] at hread
      obtain ⟨⟨a, more⟩, ha, hread⟩ := hread
      split at hread
      next =>
        obtain ⟨⟨as, rest'⟩, has, ⟨⟩⟩ := Option.bind_eq_some_iff.1 hread
        exact List.forall_mem_cons.2 ⟨h _ _ _ ha, ih _ _ _ has⟩
      next =>
        obtain ⟨-, ⟨⟩⟩ := Option.ite_none_right_eq_some.1 hread
        exact List.forall_mem_cons.2 ⟨h _ _ _ ha, by simp⟩
      next => cases hread

theorem yields_readSequence {α : Type} {item : Reader α} {P : α → Prop} (h : Yields item P)
    (close : Char) (bound : Nat) :
    Yields (readSequence item close bound) fun as => ∀ a ∈ as, P a := by
  intro cs as rest hread
  rw [readSequence] at hread
  split at hread
  next =>
    split at hread
    · cases hread
      simp
    · exact yields_readItems h close bound _ _ _ hread
  next => cases hread

theorem yields_readField {value : Reader Json} {P : Json → Prop} (h : Yields value P) :
    Yields (readField value) fun e => P e.2 := by
  intro cs e rest hread
  simp only [readField, Option.bind_eq_bind, Option.bind_eq_some_iff] at hread
  obtain ⟨⟨key, more⟩, -, hread⟩ := hread
  split at hread
  next =>
    obtain ⟨⟨token, rest'⟩, htoken, ⟨⟩⟩ := Option.bind_eq_some_iff.1 hread
    exact h _ _ _ htoken
  next => cases hread

theorem yields_readScalar (levels : Nat) : Yields readScalar (Readable levels) := by
  intro cs t rest hread
  rw [readScalar.eq_def] at hread
  split at hread
  case h_4 | h_5 =>
    obtain ⟨_, -, ⟨⟩⟩ := Option.map_eq_some_iff.1 hread
    exact readable_of_isScalar rfl levels
  all_goals
    cases hread
    exact readable_of_isScalar rfl levels

theorem yields_readValue (bound levels : Nat) :
    Yields (readValue bound levels) (Readable levels) := by
  induction levels with
  | zero => exact fun cs => yields_readScalar 0 (skipBlanks cs)
  | succ levels ih =>
      intro cs t rest hread
      rw [readValue] at hread
      split at hread
      next =>
        obtain ⟨⟨items, _⟩, hitems, ⟨⟩⟩ := Option.map_eq_some_iff.1 hread
        exact readable_arr (yields_readSequence ih _ _ _ _ _ hitems)
      next =>
        obtain ⟨⟨fields, _⟩, hfields, ⟨⟩⟩ := Option.map_eq_some_iff.1 hread
        have hall := yields_readSequence (yields_readField ih) _ _ _ _ _ hfields
        exact readable_obj (Fields.nodup_keys_ofEntries fields)
          fun e he => hall e (Fields.mem_of_mem_ofEntries he)
      next => exact yields_readScalar (levels + 1) _ _ _ hread

theorem readable_of_read? {text : String} {t : Json} (h : read? text = some t) :
    t.Readable maxLevels := by
  obtain ⟨⟨token, rest⟩, hread, h⟩ := Option.bind_eq_some_iff.1 h
  obtain ⟨-, ⟨⟩⟩ := Option.ite_none_right_eq_some.1 h
  exact yields_readValue _ _ _ _ _ hread

end Json

namespace JsonFormat

theorem exists_layout (onOneLine : Bool) :
    ∃ layout : Json.Layout, layout.Blank ∧ standard.write onOneLine = Json.write layout := by
  cases onOneLine
  · exact ⟨.indented, Json.blank_indented, rfl⟩
  · exact ⟨.compact, Json.blank_compact, rfl⟩

/-- The text of a value, with blanks behind it or none. -/
theorem standard_read?_write (onOneLine : Bool) {t : Json} (distinct : t.Distinct)
    {spaces : List Char} (hspaces : Json.Spaces spaces) :
    standard.read? (standard.write onOneLine t ++ String.ofList spaces) =
      if t.nesting ≤ Json.maxLevels then some t else none := by
  obtain ⟨layout, hlayout, hwrite⟩ := exists_layout onOneLine
  rw [hwrite, Json.write, ← String.ofList_append]
  exact Json.read?_writeValue hlayout distinct hspaces

theorem standard_read?_text (onOneLine : Bool) {t : Json} (distinct : t.Distinct) :
    standard.read? (standard.write onOneLine t) =
      if t.nesting ≤ Json.maxLevels then some t else none := by
  have hnone : Json.Spaces [] := nofun
  have hread := standard_read?_write onOneLine distinct hnone
  rwa [String.ofList_nil, String.append_empty] at hread

theorem standard_faithful : standard.Faithful where
  read_write onOneLine t ht := by
    rw [standard_read?_text onOneLine ht.distinct, if_pos ht.nesting]
  read_line onOneLine t distinct := by
    have hline : Json.Spaces ['\n'] := by
      intro c hc
      rw [List.mem_singleton.1 hc]
      rfl
    rw [standard_read?_text onOneLine distinct]
    exact standard_read?_write onOneLine distinct hline
  refuses onOneLine t distinct deep := by
    rw [standard_read?_text onOneLine distinct, if_neg (Nat.not_le_of_lt deep)]
  readable := Json.readable_of_read?

end JsonFormat

end StoryCodec
