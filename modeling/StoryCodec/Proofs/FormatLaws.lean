import StoryCodec.Json.Format
import StoryCodec.Proofs.Tokens

namespace StoryCodec

namespace Json

/-- What a reader may give back where so many levels are left: values that are not nested deeper,
and give no key twice. -/
structure Readable (levels : Nat) (t : Json) : Prop where
  nesting : t.nesting ≤ levels
  distinct : t.Distinct

theorem Readable.mono {n m : Nat} {t : Json} (h : t.Readable n) (hnm : n ≤ m) : t.Readable m :=
  ⟨Nat.le_trans h.nesting hnm, h.distinct⟩

def isScalar : Json → Bool
  | .arr _ | .obj _ => false
  | _ => true

theorem readable_of_isScalar {t : Json} (h : t.isScalar) (n : Nat) : t.Readable n := by
  have harr : ∀ items, t ≠ .arr items := by rintro _ rfl; cases h
  have hobj : ∀ fields, t ≠ .obj fields := by rintro _ rfl; cases h
  exact ⟨nesting_of_scalar harr hobj ▸ Nat.zero_le n, distinct_of_scalar harr hobj⟩

theorem readable_arr {items : List Json} {n : Nat} (h : ∀ t ∈ items, t.Readable n) :
    (Json.arr items).Readable (n + 1) :=
  ⟨nesting_arr_le.2 fun t ht => (h t ht).nesting, distinct_arr fun t ht => (h t ht).distinct⟩

theorem readable_obj {fields : Fields Json} {n : Nat} (nodup : fields.keys.Nodup)
    (h : ∀ e ∈ fields, e.2.Readable n) : (Json.obj fields).Readable (n + 1) :=
  ⟨nesting_obj_le.2 fun e he => (h e he).nesting, distinct_obj nodup fun e he => (h e he).distinct⟩

theorem readable_record {fields : Fields Json} (nodup : fields.keys.Nodup)
    (h : ∀ e ∈ fields, e.2.isScalar) : (Json.obj fields).Readable 1 :=
  readable_obj nodup fun e he => readable_of_isScalar (h e he) 0

end Json

namespace JsonFormat

/-- A value is read back from the text it is written as, unless it is nested too deep to be read. A
line break behind that text makes no difference. -/
structure RoundTrips (format : JsonFormat) : Prop where
  read_write : ∀ (onOneLine : Bool) {t : Json}, t.Readable Json.maxLevels →
    format.read? (format.write onOneLine t) = some t
  read_line : ∀ (onOneLine : Bool) {t : Json}, t.Distinct →
    format.read? (format.write onOneLine t ++ "\n") = format.read? (format.write onOneLine t)

/-- Moreover no text is read that is nested too deep, be it one that was written or any other, and
what is read gives no key twice. -/
structure Faithful (format : JsonFormat) : Prop extends RoundTrips format where
  refuses : ∀ (onOneLine : Bool) {t : Json}, t.Distinct → Json.maxLevels < t.nesting →
    format.read? (format.write onOneLine t) = none
  readable : ∀ {text : String} {t : Json}, format.read? text = some t → t.Readable Json.maxLevels

variable {format : JsonFormat} {t : Json}

theorem RoundTrips.read_printed (h : format.RoundTrips) (onOneLine : Bool)
    (ht : t.Readable Json.maxLevels) :
    format.read? (format.write onOneLine t ++ "\n") = some t := by
  rw [h.read_line onOneLine ht.distinct, h.read_write onOneLine ht]

theorem Faithful.refuses_printed (h : format.Faithful) (onOneLine : Bool) (distinct : t.Distinct)
    (deep : Json.maxLevels < t.nesting) :
    format.read? (format.write onOneLine t ++ "\n") = none := by
  rw [h.read_line onOneLine distinct, h.refuses onOneLine distinct deep]

end JsonFormat

end StoryCodec
