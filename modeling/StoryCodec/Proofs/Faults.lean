import StoryCodec.Proofs.Decoded
import StoryCodec.Proofs.Tokens
import StoryCodec.Wire.Mnemonics

namespace StoryCodec

namespace Malformed

/-- The fault lies in the flags or in the name that the record at the end of an array in the token
gives. -/
def InMark (fault : Malformed) (t : Json) : Prop :=
  ∃ items fields, (Json.arr (items ++ [.obj fields])).Within t ∧
    (("#f", fault.token) ∈ fields ∧ fault.reason = .notCountFlags ∨
      ("#n", fault.token) ∈ fields ∧ fault.reason = .notString "#n")

/-- The fault names a part of the token, which is at fault by itself. -/
def LocatedIn (fault : Malformed) (t : Json) : Prop :=
  fault.token.Within t ∧ (fault.InMark t ∨ Object.decodeRequired fault.token = .error fault)

variable {fault : Malformed}

theorem LocatedIn.mono {t u : Json} (hu : ∀ v : Json, v.Within t → v.Within u)
    (h : fault.LocatedIn t) : fault.LocatedIn u := by
  obtain ⟨hwithin, ⟨items, fields, harr, hmark⟩ | hself⟩ := h
  · exact ⟨hu _ hwithin, .inl ⟨items, fields, hu _ harr, hmark⟩⟩
  · exact ⟨hu _ hwithin, .inr hself⟩

theorem LocatedIn.item {items : List Json} {t : Json} (ht : t ∈ items) (h : fault.LocatedIn t) :
    fault.LocatedIn (.arr items) :=
  h.mono fun _ hv => .item ht hv

theorem LocatedIn.field {fields : Fields Json} {e : String × Json} (he : e ∈ fields)
    (h : fault.LocatedIn e.2) : fault.LocatedIn (.obj fields) :=
  h.mono fun _ hv => .field he hv

theorem decodeRequired_of_error {t : Json} (h : Object.decode t = .error fault) :
    Object.decodeRequired t = .error fault := by
  rw [Object.decodeRequired, h]
  rfl

theorem locatedIn_self {t : Json} (h : Object.decodeRequired t = .error fault)
    (ht : fault.token = t) : fault.LocatedIn t := by
  subst ht
  exact ⟨.here, .inr h⟩

/-- Where an object is required there is one more fault, and it names the token itself. -/
theorem locatedIn_required {t : Json} (ih : Object.decode t = .error fault → fault.LocatedIn t)
    (h : Object.decodeRequired t = .error fault) : fault.LocatedIn t := by
  cases hdecode : Object.decode t with
  | error other =>
      rw [decodeRequired_of_error hdecode] at h
      cases h
      exact ih hdecode
  | ok o =>
      cases o with
      | some o =>
          rw [Object.decodeRequired_eq_ok.2 hdecode] at h
          cases h
      | none =>
          apply locatedIn_self h
          rw [Object.decodeRequired, hdecode] at h
          cases h
          rfl

end Malformed

namespace Decoding

open Malformed

variable {fault : Malformed}

theorem token_of_atToken {α : Type} {t : Json} {x : Except Reason α}
    (h : atToken t x = .error fault) : fault.token = t := by
  cases x <;> cases h
  rfl

theorem exists_of_side_error {key : String} {fields : Fields Json}
    (h : side key fields = .error fault) : ∃ e ∈ fields, Object.decode e.2 = .error fault := by
  induction fields with
  | nil => cases h
  | cons field fields ih =>
      obtain ⟨k, token⟩ := field
      rw [side] at h
      split at h
      · exact ⟨(k, token), List.mem_cons_self, h⟩
      · obtain ⟨e, he, hdecode⟩ := ih h
        exact ⟨e, List.mem_cons_of_mem _ he, hdecode⟩

/-- A record is at fault as a whole, or a side of it is. -/
theorem fault_of_record {fields : Fields Json} (h : Object.decode (.obj fields) = .error fault) :
    fault.token = .obj fields ∨ ∃ e ∈ fields, Object.decode e.2 = .error fault := by
  simp only [Object.decode, record, bind_eq_error] at h
  rcases h with h | ⟨first, -, h⟩
  · exact .inl (token_of_atToken h)
  cases first with
  | some o => cases h
  | none =>
      simp only [bind_eq_error] at h
      rcases h with h | ⟨_, -, h | ⟨_, -, h⟩⟩
      · exact .inr (exists_of_side_error h)
      · exact .inr (exists_of_side_error h)
      · split at h
        · cases h
        · simp only [bind_eq_error] at h
          rcases h with h | ⟨choice, -, h⟩
          · exact .inl (token_of_atToken h)
          · cases choice with
            | some o => cases h
            | none => cases h; exact .inl rfl

theorem fault_of_mark {key : String} {t : Json}
    (h : mark key t (Object.decodeRequired t) = .error fault) :
    (fault.token = t ∧ (key = "#f" ∧ fault.reason = .notCountFlags ∨
      key = "#n" ∧ fault.reason = .notString "#n")) ∨ Object.decodeRequired t = .error fault := by
  rw [mark] at h
  split at h
  next hf =>
    split at h <;> cases h
    exact .inl ⟨rfl, .inl ⟨hf, rfl⟩⟩
  next =>
    split at h
    next hn =>
      split at h <;> cases h
      exact .inl ⟨rfl, .inr ⟨hn, rfl⟩⟩
    next => exact .inr (map_eq_error.1 h)

theorem exists_of_marks_error {fields : Fields Json} (h : marks fields = .error fault) :
    ∃ e ∈ fields, mark e.1 e.2 (Object.decodeRequired e.2) = .error fault := by
  induction fields with
  | nil => cases h
  | cons field fields ih =>
      obtain ⟨key, token⟩ := field
      simp only [marks, bind_eq_error] at h
      rcases h with h | ⟨m, -, h | ⟨ms, -, h⟩⟩
      · exact ⟨(key, token), List.mem_cons_self, h⟩
      · obtain ⟨e, he, hmark⟩ := ih h
        exact ⟨e, List.mem_cons_of_mem _ he, hmark⟩
      · cases h

/-- An array is at fault in an item, or in an entry of the record at its end. -/
theorem fault_of_parts {items : List Json} (h : parts items = .error fault) :
    (∃ t ∈ items, Object.decodeRequired t = .error fault) ∨
      ∃ front fields, items = front ++ [.obj fields] ∧
        ∃ e ∈ fields, mark e.1 e.2 (Object.decodeRequired e.2) = .error fault := by
  rcases List.eq_nil_or_concat items with rfl | ⟨front, last, rfl⟩
  · cases h
  rw [List.concat_eq_append] at *
  rw [parts_append] at h
  simp only [bind_eq_error] at h
  rcases h with h | ⟨content, -, h | ⟨_, -, h⟩⟩
  · obtain ⟨t, ht, hrequired⟩ := exists_of_mapM_eq_error h
    exact .inl ⟨t, by simp [ht], hrequired⟩
  · by_cases hnull : last = .null
    · subst hnull
      cases h
    by_cases hobj : ∃ fields, last = .obj fields
    · obtain ⟨fields, rfl⟩ := hobj
      exact .inr ⟨front, fields, rfl, exists_of_marks_error (map_eq_error.1 h)⟩
    · rw [parts_singleton hnull fun fields hf => hobj ⟨fields, hf⟩] at h
      exact .inl ⟨last, by simp, map_eq_error.1 h⟩
  · cases h

end Decoding

namespace Object

open Malformed

theorem locatedIn_of_decode {t : Json} {fault : Malformed} (h : Object.decode t = .error fault) :
    fault.LocatedIn t := by
  induction t using Json.token_induction generalizing fault with
  | null => cases h
  | bool b => exact locatedIn_self (decodeRequired_of_error h) (by cases h; rfl)
  | num n =>
      refine locatedIn_self (decodeRequired_of_error h) ?_
      rw [Object.decode, Decoding.number.eq_def] at h
      split at h
      next => split at h <;> cases h; rfl
      next => cases h
  | str s =>
      refine locatedIn_self (decodeRequired_of_error h) ?_
      rw [Object.decode, Decoding.string] at h
      split at h <;> cases h
      rfl
  | obj fields ih =>
      rcases Decoding.fault_of_record h with hself | ⟨e, he, hside⟩
      · exact locatedIn_self (decodeRequired_of_error h) hself
      · exact (ih e he hside).field he
  | arr items ihItems ihFields =>
      rw [Object.decode, map_eq_error] at h
      rcases Decoding.fault_of_parts h with ⟨t, ht, hitem⟩ | ⟨front, fields, rfl, e, he, hentry⟩
      · exact (locatedIn_required (ihItems t ht) hitem).item ht
      have hlast : Json.obj fields ∈ front ++ [.obj fields] := by simp
      rcases Decoding.fault_of_mark hentry with ⟨htoken, hmark⟩ | hchild
      · have hwithin : fault.token.Within (.obj fields) := htoken ▸ .field he .here
        refine ⟨.item hlast hwithin, .inl ⟨front, fields, .here, ?_⟩⟩
        obtain ⟨key, token⟩ := e
        subst htoken
        rcases hmark with ⟨rfl, hreason⟩ | ⟨rfl, hreason⟩
        · exact .inl ⟨he, hreason⟩
        · exact .inr ⟨he, hreason⟩
      · exact ((locatedIn_required (ihFields fields hlast e he) hchild).field he).item hlast

/-- The table of mnemonics is complete, so a token fails only by itself or by a part of it, and that
part fails alike wherever it stands, flags and names of containers apart. -/
theorem decode_error_located :
    MnemonicTable.ofEntries MnemonicTable.standard.entries = .ok MnemonicTable.standard ∧
      ∀ (t : Json) (fault : Malformed), Object.decode t = .error fault → fault.LocatedIn t :=
  ⟨MnemonicTable.ofEntries_standard, fun _ _ h => locatedIn_of_decode h⟩

theorem decode_error_located_side :
    let side := Json.obj [("->", .num (.ofInt64 3))]
    let t := Json.arr [.obj [("knot", .arr [.obj [("t?", side)], .null]), ("#f", .null)]]
    let fault : Malformed := ⟨side, .notString "->"⟩
    Object.decode t = .error fault ∧ fault.LocatedIn t := by
  intro side t fault
  have h : Object.decode t = .error fault := rfl
  exact ⟨h, decode_error_located.2 t fault h⟩

end Object

end StoryCodec
