import StoryCodec.Proofs.Building
import StoryCodec.Proofs.Terminators

namespace StoryCodec

namespace Json

/-- The fields without a name, or with another one in its place. -/
def setName (name : Option Json) (fields : Fields Json) : Fields Json :=
  match name with
  | some token => fields.insert "#n" token
  | none => fields.erase "#n"

def setNameAtEnd (name : Option Json) : List Json → List Json
  | [] => []
  | [.obj fields] => [ending (setName name fields)]
  | item :: items => item :: setNameAtEnd name items

/-- An array that holds no name in the record at its end, or another one. -/
def withName (name : Option Json) : Json → Json
  | .arr items => .arr (setNameAtEnd name items)
  | token => token

theorem setNameAtEnd_append (name : Option Json) (items : List Json) (last : Json) :
    setNameAtEnd name (items ++ [last]) = items ++ setNameAtEnd name [last] := by
  induction items with
  | nil => rfl
  | cons item items ih =>
      obtain ⟨next, rest, h⟩ : ∃ next rest, items ++ [last] = next :: rest := by
        cases items <;> simp
      rw [List.cons_append, h, setNameAtEnd, ← h, ih, List.cons_append]
      simp

theorem setNameAtEnd_ending {name : Option Json} {fields : Fields Json}
    (h : fields = [] → name = none) :
    setNameAtEnd name [ending fields] = [ending (setName name fields)] := by
  cases fields with
  | nil =>
      rw [h rfl]
      rfl
  | cons field fields => rfl

end Json

namespace Encoding

/-- What is left of the name of a container when the record at its end is written without one. A child
under the key of the name comes to light there. -/
theorem setNameAtEnd_terminator (fields : Fields Json) (flags : CountFlags) (name : Option String) :
    Json.setNameAtEnd (fields.get? "#n") [terminator fields flags name] =
      [terminator fields flags none] := by
  -- The flags stand under another key, so the field that the name hid is still the given one.
  let flagged := if flags.isEmpty then fields else fields.insert "#f" (.num (.ofUInt32 flags.bits))
  have hget : fields.get? "#n" = flagged.get? "#n" := by
    by_cases h : flags.isEmpty
    · simp [flagged, h]
    · simp [flagged, h, Fields.get?_insert]
  have hplain : terminator fields flags none = Json.ending flagged := rfl
  rw [hget, hplain]
  cases name with
  | none =>
      rw [hplain, Json.setNameAtEnd_ending (fun h => by rw [h]; rfl)]
      cases h : flagged.get? "#n" with
      | none => rw [Json.setName, Fields.erase_of_notMem (Fields.get?_eq_none_iff.1 h)]
      | some token => rw [Json.setName, Fields.insert_of_get? h]
  | some name =>
      have hnamed : terminator fields flags (some name) =
          Json.ending (flagged.insert "#n" (.str name)) := rfl
      have hne : flagged.insert "#n" (.str name) ≠ [] := by
        cases hflagged : flagged with
        | nil => simp [Fields.insert]
        | cons field rest =>
            rw [Fields.insert]
            split <;> simp
      rw [hnamed, Json.setNameAtEnd_ending (fun h => absurd h hne)]
      cases h : flagged.get? "#n" with
      | none => rw [Json.setName, Fields.erase_insert _ (Fields.get?_eq_none_iff.1 h)]
      | some token => rw [Json.setName, Fields.insert_insert, Fields.insert_of_get? h]

theorem get?_of_mapM_entry {named : Fields Object} {fields : Fields Json}
    (h : named.mapM entry = .ok fields) (key : String) :
    fields.get? key = (named.get? key).bind fun o => o.unnamed.encode.toOption := by
  induction named generalizing fields with
  | nil =>
      rw [mapM_nil_eq_ok.1 h]
      rfl
  | cons e named ih =>
      obtain ⟨field, rest, hfield, hrest, rfl⟩ := mapM_cons_eq_ok.1 h
      obtain ⟨k, o⟩ := e
      obtain ⟨k', token⟩ := field
      obtain ⟨htoken, rfl⟩ := entry_eq_ok.1 hfield
      rw [Fields.get?, Fields.get?, ih hrest]
      split
      · rw [Option.bind_some, htoken]
        rfl
      · rfl

/-- The token of a named child as its parent holds it. The name of a container is not in it, and what
the container has itself under that key is. -/
def nested (o : Object) (token : Json) : Json :=
  match o with
  | .container c =>
    token.withName ((c.getNamed? "#n").bind fun child => child.unnamed.encode.toOption)
  | _ => token

theorem encode_unnamed {o : Object} {token : Json} (h : o.encode = .ok token) :
    o.unnamed.encode = .ok (nested o token) := by
  cases o with
  | container c =>
      obtain ⟨items, fields, hitems, hfields, rfl⟩ := Container.encode_eq_ok.1 h
      have hend := setNameAtEnd_terminator fields c.countFlags c.name
      rw [get?_of_mapM_entry hfields] at hend
      refine Container.encode_eq_ok.2 ⟨items, fields, hitems, hfields, ?_⟩
      rw [nested, Json.withName, Container.getNamed?, Json.setNameAtEnd_append, hend]
  | _ => exact h

theorem encode_of_unnamed {o : Object} {token : Json} (h : o.unnamed.encode = .ok token) :
    ∃ t, o.encode = .ok t := by
  cases o with
  | container c =>
      obtain ⟨items, fields, hitems, hfields, -⟩ := Container.encode_eq_ok.1 h
      exact ⟨_, Container.encode_eq_ok.2 ⟨items, fields, hitems, hfields, rfl⟩⟩
  | _ => exact ⟨token, h⟩

end Encoding

namespace Container

/-- Named children are written as a map of them is, but for the names of containers. -/
theorem encodeMap_of_named {named : Fields Object} {entries : Fields Json}
    (h : named.mapM Encoding.entry = .ok entries) : ∃ fields, encodeMap named = .ok (.obj fields) ∧
      entries = List.zipWith (fun e field => (field.1, Encoding.nested e.2 field.2)) named fields := by
  obtain ⟨fields, hfields⟩ : ∃ fields : Fields Json,
      named.mapM (fun e : String × Object => e.2.encode.map fun token => (e.1, token)) =
        .ok fields := by
    apply mapM_ok_of_forall
    intro e he
    obtain ⟨entry, -, hentry⟩ := exists_mem_of_mapM h he
    obtain ⟨token, htoken⟩ := Encoding.encode_of_unnamed (Encoding.entry_eq_ok.1 hentry).1
    exact ⟨(e.1, token), map_eq_ok.2 ⟨token, htoken, rfl⟩⟩
  refine ⟨fields, map_eq_ok.2 ⟨fields, hfields, rfl⟩, ?_⟩
  have hnested : named.mapM Encoding.entry = .ok
      (List.zipWith (fun e field => (field.1, Encoding.nested e.2 field.2)) named fields) := by
    apply mapM_zipWith hfields
    intro e field hfield
    obtain ⟨token, htoken, rfl⟩ := map_eq_ok.1 hfield
    exact Encoding.entry_eq_ok.2 ⟨Encoding.encode_unnamed htoken, rfl⟩
  exact Except.ok.inj (h.symm.trans hnested)

theorem encode_eq_collections {c : Container} (hf : "#f" ∉ Fields.keys c.named)
    (hn : "#n" ∉ Fields.keys c.named) {t : Json} (h : c.encode = .ok t) :
    ∃ items fields, encodeList c.content = .ok (.arr items) ∧ encodeMap c.named = .ok (.obj fields) ∧
      t = .arr (items ++ [Json.ending (List.zipWith (fun e field =>
        (field.1, Encoding.nested e.2 field.2)) c.named fields ++
          Encoding.trailer c.countFlags c.name)]) := by
  rw [Container.encode, ← Object.encode] at h
  obtain ⟨items, entries, hitems, hentries, -, rfl⟩ := (encode_eq_ok_of_unreserved hf hn).1 h
  obtain ⟨fields, hfields, rfl⟩ := encodeMap_of_named hentries
  exact ⟨items, fields, map_eq_ok.2 ⟨items, hitems, rfl⟩, hfields, rfl⟩

theorem decode_record {fields : Fields Json} (nodup : fields.keys.Nodup) (hf : "#f" ∉ fields.keys)
    (hn : "#n" ∉ fields.keys) : Container.decode [.obj fields] =
      (decodeMap fields).map fun children => ⟨none, ⟨0⟩, [], children.map slot⟩ := by
  cases fields with
  | nil => rfl
  | cons field fields =>
      have h := decode_append_ending [] nodup hf hn ⟨0⟩ none
      simp only [Encoding.trailer, CountFlags.isEmpty, decide_true, if_true, List.append_nil,
        List.nil_append] at h
      change Container.decode [Json.ending (field :: fields)] = _
      rw [h]
      cases decodeMap (field :: fields) <;> rfl

/-- Whatever the record at the end of an array says, the content is what stands before it. -/
theorem content_of_decode {items : List Json} {last : Json}
    (hlast : last = .null ∨ ∃ record, last = .obj record) {c : Container}
    (h : Container.decode (items ++ [last]) = .ok c) : decodeList items = .ok c.content := by
  obtain ⟨⟨content, ms⟩, hparts, rfl⟩ := map_eq_ok.1 h
  rw [Decoding.parts_append] at hparts
  obtain ⟨os, hos, hparts⟩ := bind_eq_ok.1 hparts
  obtain ⟨⟨more, marks⟩, hmore, heq⟩ := bind_eq_ok.1 hparts
  cases heq
  have hnone : more = [] := by
    rcases hlast with rfl | ⟨record, rfl⟩
    · cases hmore
      rfl
    · obtain ⟨_, -, heq⟩ := map_eq_ok.1 hmore
      cases heq
      rfl
  rw [content_ofParts, hos, hnone, List.append_nil]

theorem decode_of_content_error {items : List Json} {fault : Malformed}
    (h : decodeList items = .error fault) (last : Json) :
    Container.decode (items ++ [last]) = .error fault := by
  rw [Container.decode, Decoding.parts_append, h]
  rfl

/-- A container is read and written as its content is as a list and its named children are as a map,
but that containers under keys take their names from the keys. -/
theorem agrees_with_collections :
    (∀ fields : Fields Json, fields.keys.Nodup → "#f" ∉ fields.keys → "#n" ∉ fields.keys →
      Container.decode [.obj fields] =
        (decodeMap fields).map fun children => ⟨none, ⟨0⟩, [], children.map slot⟩) ∧
    (∀ items last, (last = .null ∨ ∃ record, last = .obj record) →
      (∀ c, Container.decode (items ++ [last]) = .ok c → decodeList items = .ok c.content) ∧
      ∀ fault, decodeList items = .error fault →
        Container.decode (items ++ [last]) = .error fault) ∧
    ∀ (c : Container) t, "#f" ∉ Fields.keys c.named → "#n" ∉ Fields.keys c.named →
      c.encode = .ok t → ∃ items fields, encodeList c.content = .ok (.arr items) ∧
        encodeMap c.named = .ok (.obj fields) ∧
        t = .arr (items ++ [Json.ending (List.zipWith (fun e field =>
          (field.1, Encoding.nested e.2 field.2)) c.named fields ++
            Encoding.trailer c.countFlags c.name)]) := by
  refine ⟨fun fields nodup hf hn => decode_record nodup hf hn, fun items last hlast => ⟨?_, ?_⟩, ?_⟩
  · exact fun c h => content_of_decode hlast h
  · exact fun fault h => decode_of_content_error h last
  · exact fun c t hf hn h => encode_eq_collections hf hn h

theorem agrees_with_collections_knot :
    let record : Fields Json := [("knot", .arr [.obj [("#n", .str "stale")]]), ("x", .str "5")]
    let knot : Container := ⟨some "knot", ⟨1⟩, [], []⟩
    let c := (Container.empty.push .void).insertNamed "knot" (.container knot)
    (record.keys.Nodup ∧ "#f" ∉ record.keys ∧ "#n" ∉ record.keys ∧ Container.decode [.obj record] =
      (decodeMap record).map fun children => ⟨none, ⟨0⟩, [], children.map slot⟩) ∧
    (∃ d, Container.decode ([.str "void"] ++ [.obj record]) = .ok d ∧
      decodeList [.str "void"] = .ok d.content) ∧
    (∃ fault, decodeList [.null] = .error fault ∧
      Container.decode ([.null] ++ [.obj record]) = .error fault) ∧
    "#f" ∉ Fields.keys c.named ∧ "#n" ∉ Fields.keys c.named ∧ ∃ t, c.encode = .ok t ∧
      ∃ items fields, encodeList c.content = .ok (.arr items) ∧
        encodeMap c.named = .ok (.obj fields) ∧
        t = .arr (items ++ [Json.ending (List.zipWith (fun e field =>
          (field.1, Encoding.nested e.2 field.2)) c.named fields ++
            Encoding.trailer c.countFlags c.name)]) := by
  intro record knot c
  obtain ⟨records, lists, containers⟩ := agrees_with_collections
  have nodup : record.keys.Nodup := by decide
  have hf : "#f" ∉ record.keys := by decide
  have hn : "#n" ∉ record.keys := by decide
  have hlast : Json.obj record = .null ∨ ∃ fields, Json.obj record = .obj fields :=
    .inr ⟨record, rfl⟩
  refine ⟨⟨nodup, hf, hn, records record nodup hf hn⟩, ?_, ?_, ?_⟩
  · exact ⟨_, rfl, (lists [.str "void"] (.obj record) hlast).1 _ rfl⟩
  · exact ⟨_, rfl, (lists [.null] (.obj record) hlast).2 _ rfl⟩
  · have hf : "#f" ∉ Fields.keys c.named := by decide
    have hn : "#n" ∉ Fields.keys c.named := by decide
    exact ⟨hf, hn, _, rfl, containers c _ hf hn rfl⟩

/-- In the record of its parent a child is not always its own token without the name: what it has
itself under the key of the name, which the name hid, stands there. -/
theorem encode_child_under_name_key :
    let child := Container.empty.insertNamed "#n" (.value (.int 1))
    let c := Container.empty.insertNamed "knot" (.container child)
    (Object.container c).Built ∧ "#f" ∉ Fields.keys c.named ∧ "#n" ∉ Fields.keys c.named ∧
      ∃ t u, encodeMap c.named = .ok (.obj [("knot", t)]) ∧
        c.encode = .ok (.arr [.obj [("knot", u)]]) ∧ t.withName none = .arr [.null] ∧
        u = .arr [.obj [("#n", Encoding.int64 1)]] ∧ u ≠ t.withName none := by
  intro child c
  have hbuilt : (Object.container c).Built :=
    .insertNamed "knot" .empty (.insertNamed "#n" .empty (.leaf rfl))
  exact ⟨hbuilt, by decide, by decide, .arr [.obj [("#n", .str "knot")]],
    .arr [.obj [("#n", Encoding.int64 1)]], rfl, rfl, rfl, rfl, nofun⟩

end Container

end StoryCodec
