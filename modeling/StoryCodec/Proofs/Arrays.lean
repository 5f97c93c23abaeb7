import StoryCodec.Proofs.Depth
import StoryCodec.Proofs.Traversal
import StoryCodec.Wire.Decoding
import StoryCodec.Wire.Encoding

namespace StoryCodec

def Json.ending (fields : Fields Json) : Json :=
  if fields.isEmpty then .null else .obj fields

namespace Encoding

theorem list_eq_mapM (os : List Object) : list os = os.mapM Object.encode := by
  induction os with
  | nil => rfl
  | cons o os ih =>
      rw [List.mapM_cons, ← ih]
      rfl

theorem container_false (c : Container) :
    container false c = (Object.container { c with name := none }).encode := by
  cases c
  simp [Object.encode, container]

def entry (e : String × Object) : Except NonFinite (String × Json) :=
  e.2.unnamed.encode.map fun token => (e.1, token)

theorem named_eq_mapM (named : Fields Object) : Encoding.named named = named.mapM entry := by
  induction named with
  | nil => rfl
  | cons e named ih =>
      rw [List.mapM_cons, ← ih]
      obtain ⟨key, o⟩ := e
      cases o
      case container c =>
        rw [Encoding.named, container_false]
        simp only [entry, Object.unnamed]
        cases Object.encode (.container { c with name := none }) <;> rfl
      all_goals
        simp only [Encoding.named, entry, Object.unnamed]
        cases Object.encode _ <;> rfl

theorem entry_eq_ok {e : String × Object} {field : String × Json} :
    entry e = .ok field ↔ e.2.unnamed.encode = .ok field.2 ∧ field.1 = e.1 := by
  obtain ⟨key, token⟩ := field
  simp only [entry, map_eq_ok, Prod.mk.injEq]
  constructor
  · rintro ⟨_, h, rfl, rfl⟩
    exact ⟨h, rfl⟩
  · rintro ⟨h, rfl⟩
    exact ⟨token, h, rfl, rfl⟩

theorem keys_of_mapM_entry {named : Fields Object} {fields : Fields Json}
    (h : named.mapM entry = .ok fields) : fields.keys = named.keys :=
  map_eq_map_of_mapM h fun _ _ hfield => (entry_eq_ok.1 hfield).2

/-- What a terminator holds behind the named children. -/
def trailer (flags : CountFlags) (name : Option String) : Fields Json :=
  (if flags.isEmpty then [] else [("#f", .num (.ofUInt32 flags.bits))]) ++
    match name with
    | some name => [("#n", .str name)]
    | none => []

theorem terminator_eq {fields : Fields Json} (hf : "#f" ∉ fields.keys) (hn : "#n" ∉ fields.keys)
    (flags : CountFlags) (name : Option String) :
    terminator fields flags name = Json.ending (fields ++ trailer flags name) := by
  have hn' (t : Json) : "#n" ∉ Fields.keys (fields ++ [("#f", t)]) := by
    simpa [Fields.keys] using hn
  cases name <;> by_cases h : flags.isEmpty <;>
    simp [terminator, trailer, Json.ending, h, Fields.insert_of_notMem, hf, hn, hn']

end Encoding

theorem Container.encode_eq (c : Container) : (Object.container c).encode = (do
    let items ← c.content.mapM Object.encode
    let fields ← c.named.mapM Encoding.entry
    .ok (.arr (items ++ [Encoding.terminator fields c.countFlags c.name]))) := by
  cases c
  simp only [Object.encode, Encoding.container, Encoding.list_eq_mapM, Encoding.named_eq_mapM,
    if_true]

theorem Container.encode_eq_ok {c : Container} {t : Json} :
    (Object.container c).encode = .ok t ↔ ∃ items fields, c.content.mapM Object.encode = .ok items ∧
      c.named.mapM Encoding.entry = .ok fields ∧
      t = .arr (items ++ [Encoding.terminator fields c.countFlags c.name]) := by
  simp only [Container.encode_eq, bind_eq_ok, Except.ok.injEq]
  constructor
  · rintro ⟨items, hi, fields, hf, rfl⟩
    exact ⟨items, fields, hi, hf, rfl⟩
  · rintro ⟨items, fields, hi, hf, rfl⟩
    exact ⟨items, hi, fields, hf, rfl⟩

/-- Where the named children leave the two reserved keys free, the record holds them first and then
the trailer. -/
theorem Container.encode_eq_ok_of_unreserved {c : Container} (hf : "#f" ∉ Fields.keys c.named)
    (hn : "#n" ∉ Fields.keys c.named) {t : Json} :
    (Object.container c).encode = .ok t ↔ ∃ items fields, c.content.mapM Object.encode = .ok items ∧
      c.named.mapM Encoding.entry = .ok fields ∧ Fields.keys fields = Fields.keys c.named ∧
      t = .arr (items ++ [Json.ending (fields ++ Encoding.trailer c.countFlags c.name)]) := by
  have hterminator {fields : Fields Json} (h : Fields.keys fields = Fields.keys c.named) :=
    Encoding.terminator_eq (h ▸ hf) (h ▸ hn) c.countFlags c.name
  rw [Container.encode_eq_ok]
  constructor
  · rintro ⟨items, fields, hitems, hfields, rfl⟩
    have hkeys := Encoding.keys_of_mapM_entry hfields
    exact ⟨items, fields, hitems, hfields, hkeys, by rw [hterminator hkeys]⟩
  · rintro ⟨items, fields, hitems, hfields, hkeys, rfl⟩
    exact ⟨items, fields, hitems, hfields, by rw [hterminator hkeys]⟩

theorem Object.decode_arr (items : List Json) :
    Object.decode (.arr items) = (Container.decode items).map fun c => some (.container c) := by
  rw [Object.decode, Container.decode]
  cases Decoding.parts items <;> rfl

theorem Object.decodeRequired_eq_ok {t : Json} {o : Object} :
    Object.decodeRequired t = .ok o ↔ Object.decode t = .ok (some o) := by
  rw [Object.decodeRequired]
  rcases Object.decode t with fault | _ | found <;> simp [Decoding.required]

namespace Decoding

theorem parts_cons_cons (item next : Json) (items : List Json) :
    parts (item :: next :: items) = (do
      let o ← Object.decodeRequired item
      let (content, marks) ← parts (next :: items)
      .ok (o :: content, marks)) := by
  cases item <;> rfl

/-- Only the last element of an array can be other than content. -/
theorem parts_append (items : List Json) (last : Json) :
    parts (items ++ [last]) = (do
      let content ← decodeList items
      let (more, marks) ← parts [last]
      .ok (content ++ more, marks)) := by
  induction items with
  | nil =>
      cases h : parts [last] <;> simp [decodeList, h, bind, Except.bind, pure, Except.pure]
  | cons item items ih =>
      obtain ⟨next, rest, h⟩ : ∃ next rest, items ++ [last] = next :: rest := by
        cases items <;> simp
      rw [List.cons_append, h, parts_cons_cons, ← h, ih]
      simp only [decodeList, List.mapM_cons, bind_assoc, pure_bind]
      rfl

theorem marks_append (fields more : Fields Json) : marks (fields ++ more) = (do
    let front ← marks fields
    let back ← marks more
    .ok (front ++ back)) := by
  induction fields with
  | nil => cases h : marks more <;> simp [marks, h, bind, Except.bind]
  | cons field fields ih =>
      obtain ⟨key, token⟩ := field
      simp only [List.cons_append, marks, ih, bind_assoc]
      rfl

theorem mark_of_ne {key : String} (hf : key ≠ "#f") (hn : key ≠ "#n") (token : Json)
    (child : Except Malformed Object) : mark key token child = child.map (.child key) := by
  rw [mark, if_neg hf, if_neg hn]

theorem decodeMap_cons (key : String) (token : Json) (fields : Fields Json) :
    decodeMap ((key, token) :: fields) = (do
      let o ← Object.decodeRequired token
      let children ← decodeMap fields
      .ok ((key, o) :: children)) := by
  rw [decodeMap, List.mapM_cons]
  cases Object.decodeRequired token <;> rfl

/-- The entries that are neither flags nor a name are children, each under its key. -/
theorem marks_eq_decodeMap {fields : Fields Json} (hf : "#f" ∉ fields.keys)
    (hn : "#n" ∉ fields.keys) :
    marks fields = (decodeMap fields).map (List.map fun e => .child e.1 e.2) := by
  induction fields with
  | nil => rfl
  | cons field fields ih =>
      obtain ⟨key, token⟩ := field
      simp only [Fields.keys, List.map_cons, List.mem_cons, not_or] at hf hn
      have hmark := mark_of_ne (Ne.symm hf.1) (Ne.symm hn.1) token (Object.decodeRequired token)
      rw [decodeMap_cons, marks, ih hf.2 hn.2]
      change (mark key token (Object.decodeRequired token) >>= _) = _
      rw [hmark]
      cases Object.decodeRequired token with
      | error fault => rfl
      | ok o => cases decodeMap fields <;> rfl

end Decoding

end StoryCodec
