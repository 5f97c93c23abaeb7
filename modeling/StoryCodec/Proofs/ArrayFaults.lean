import StoryCodec.Proofs.Reordering

namespace StoryCodec

/-- Whether a token at the end of an array is something else than content. -/
def Json.isTerminator : Json → Bool
  | .null => true
  | .obj _ => true
  | _ => false

namespace Decoding

/-- The items of an array that are content. -/
def contentItems (items : List Json) : List Json :=
  if items.getLast?.any Json.isTerminator then items.dropLast else items

/-- The entries of the record at the end of an array, if it ends with one. -/
def entries (items : List Json) : Fields Json :=
  match items.getLast? with
  | some (.obj fields) => fields
  | _ => []

/-- An entry that the record at the end of an array may have. -/
structure Acceptable (e : String × Json) : Prop where
  flags : e.1 = "#f" → ∃ n, e.2.integer? = some n ∧ 0 ≤ n.toInt ∧ n.toInt < 0x100000000
  name : e.1 = "#n" → ∃ s, e.2 = .str s
  child : e.1 ≠ "#f" → e.1 ≠ "#n" → ∃ o, Object.decode e.2 = .ok (some o)

/-- An entry that it may not have, and what is reported of it. -/
structure Refused (e : String × Json) (fault : Malformed) : Prop where
  unacceptable : ¬Acceptable e
  flags : e.1 = "#f" → fault = ⟨e.2, .notCountFlags⟩
  name : e.1 = "#n" → fault = ⟨e.2, .notString "#n"⟩
  child : e.1 ≠ "#f" → e.1 ≠ "#n" → Object.decodeRequired e.2 = .error fault

theorem Refused.unique {e : String × Json} {fault other : Malformed} (h : Refused e fault)
    (h' : Refused e other) : fault = other := by
  by_cases hf : e.1 = "#f"
  · rw [h.flags hf, h'.flags hf]
  by_cases hn : e.1 = "#n"
  · rw [h.name hn, h'.name hn]
  · have hchild := (h.child hf hn).symm.trans (h'.child hf hn)
    exact Except.error.inj hchild

theorem entry_flags (token : Json) : entry ("#f", token) =
    match token.integer?.bind fun n => uint32? n.toInt with
    | some bits => .ok (.flags ⟨bits⟩)
    | none => .error ⟨token, .notCountFlags⟩ :=
  rfl

theorem entry_name (token : Json) : entry ("#n", token) =
    match token.string? with
    | some name => .ok (.name name)
    | none => .error ⟨token, .notString "#n"⟩ :=
  rfl

theorem entry_child {key : String} (hf : key ≠ "#f") (hn : key ≠ "#n") (token : Json) :
    entry (key, token) = (Object.decodeRequired token).map (.child key) := by
  rw [entry, mark, if_neg hf, if_neg hn]

theorem acceptable_flags_iff {token : Json} : Acceptable ("#f", token) ↔
    ∃ bits, (token.integer?.bind fun n => uint32? n.toInt) = some bits := by
  constructor
  · intro h
    obtain ⟨n, hn, hbound⟩ := h.flags rfl
    exact ⟨_, Option.bind_eq_some_iff.2 ⟨n, hn, if_pos hbound⟩⟩
  · rintro ⟨bits, h⟩
    obtain ⟨n, hn, hbits⟩ := Option.bind_eq_some_iff.1 h
    obtain ⟨hbound, -⟩ := Option.ite_none_right_eq_some.1 hbits
    exact ⟨fun _ => ⟨n, hn, hbound⟩, by simp, fun hne => absurd rfl hne⟩

theorem acceptable_name_iff {token : Json} :
    Acceptable ("#n", token) ↔ ∃ s, token.string? = some s := by
  constructor
  · intro h
    obtain ⟨s, rfl⟩ := h.name rfl
    exact ⟨s, rfl⟩
  · rintro ⟨s, h⟩
    cases token <;> cases h
    exact ⟨by simp, fun _ => ⟨s, rfl⟩, fun _ hne => absurd rfl hne⟩

theorem acceptable_child_iff {key : String} (hf : key ≠ "#f") (hn : key ≠ "#n") {token : Json} :
    Acceptable (key, token) ↔ ∃ o, Object.decodeRequired token = .ok o := by
  simp only [Object.decodeRequired_eq_ok]
  exact ⟨fun h => h.child hf hn,
    fun h => ⟨fun heq => absurd heq hf, fun heq => absurd heq hn, fun _ _ => h⟩⟩

theorem exists_entry_eq_ok_iff {e : String × Json} : (∃ m, entry e = .ok m) ↔ Acceptable e := by
  obtain ⟨key, token⟩ := e
  by_cases hf : key = "#f"
  · subst hf
    rw [acceptable_flags_iff, entry_flags]
    cases token.integer?.bind fun n => uint32? n.toInt <;> simp
  by_cases hn : key = "#n"
  · subst hn
    rw [acceptable_name_iff, entry_name]
    cases token.string? <;> simp
  · rw [acceptable_child_iff hf hn, entry_child hf hn]
    cases Object.decodeRequired token <;> simp [Except.map]

theorem refused_of_entry {e : String × Json} {fault : Malformed} (h : entry e = .error fault) :
    Refused e fault := by
  have unacceptable : ¬Acceptable e := by
    rw [← exists_entry_eq_ok_iff, exists_eq_ok_iff, not_not]
    exact ⟨fault, h⟩
  obtain ⟨key, token⟩ := e
  refine ⟨unacceptable, ?_, ?_, fun hf hn => ?_⟩
  · rintro ⟨⟩
    rw [entry_flags] at h
    split at h <;> cases h
    rfl
  · rintro ⟨⟩
    rw [entry_name] at h
    split at h <;> cases h
    rfl
  · rw [entry_child hf hn] at h
    exact map_eq_error.1 h

theorem entry_eq_error_iff {e : String × Json} {fault : Malformed} :
    entry e = .error fault ↔ Refused e fault := by
  refine ⟨refused_of_entry, fun h => ?_⟩
  cases hentry : entry e with
  | ok m => exact absurd (exists_entry_eq_ok_iff.1 ⟨m, hentry⟩) h.unacceptable
  | error other => rw [h.unique (refused_of_entry hentry)]

theorem contentItems_append (front : List Json) (last : Json) :
    contentItems (front ++ [last]) = front ++ contentItems [last] := by
  by_cases h : last.isTerminator <;> simp [contentItems, h]

theorem entries_append (front : List Json) (last : Json) :
    entries (front ++ [last]) = entries [last] := by
  simp [entries]

theorem parts_last (last : Json) : parts [last] = (do
    let content ← decodeList (contentItems [last])
    let marks ← marks (entries [last])
    .ok (content, marks)) := by
  by_cases hnull : last = .null
  · subst hnull
    rfl
  by_cases hobj : ∃ fields, last = .obj fields
  · obtain ⟨fields, rfl⟩ := hobj
    change (marks fields).map _ = marks fields >>= _
    cases marks fields <;> rfl
  · have hcontent : contentItems [last] = [last] := by
      cases last <;> simp_all [contentItems, Json.isTerminator]
    have hentries : entries [last] = [] := by
      cases last <;> simp_all [entries]
    rw [parts_singleton hnull fun fields hf => hobj ⟨fields, hf⟩, hcontent, hentries, decodeList,
      List.mapM_cons]
    cases Object.decodeRequired last <;> rfl

/-- The content of an array is read before the record at its end. -/
theorem parts_eq (items : List Json) : parts items = (do
    let content ← decodeList (contentItems items)
    let marks ← marks (entries items)
    .ok (content, marks)) := by
  rcases List.eq_nil_or_concat items with rfl | ⟨front, last, rfl⟩
  · rfl
  rw [List.concat_eq_append, parts_append, parts_last, contentItems_append, entries_append,
    decodeList, decodeList, decodeList, List.mapM_append]
  simp only [bind_assoc]
  rfl

theorem exists_decodeList_eq_ok_iff {items : List Json} :
    (∃ os, decodeList items = .ok os) ↔ ∀ t ∈ items, ∃ o, Object.decode t = .ok (some o) := by
  simp only [decodeList, exists_mapM_eq_ok_iff, Object.decodeRequired_eq_ok]

theorem decodeList_eq_error_iff {items : List Json} {fault : Malformed} :
    decodeList items = .error fault ↔ ∃ before t after, items = before ++ t :: after ∧
      (∀ u ∈ before, ∃ o, Object.decode u = .ok (some o)) ∧
      Object.decodeRequired t = .error fault := by
  simp only [decodeList, mapM_eq_error_iff, Object.decodeRequired_eq_ok]

theorem exists_marks_eq_ok_iff {fields : Fields Json} :
    (∃ ms, marks fields = .ok ms) ↔ ∀ e ∈ fields, Acceptable e := by
  simp only [marks_eq_mapM, exists_mapM_eq_ok_iff, exists_entry_eq_ok_iff]

theorem marks_eq_error_iff {fields : Fields Json} {fault : Malformed} :
    marks fields = .error fault ↔ ∃ before e after, fields = before ++ e :: after ∧
      (∀ d ∈ before, Acceptable d) ∧ Refused e fault := by
  simp only [marks_eq_mapM, mapM_eq_error_iff, exists_entry_eq_ok_iff, entry_eq_error_iff]

end Decoding

namespace Container

open Decoding

theorem exists_decode_eq_ok_iff {items : List Json} : (∃ c, Container.decode items = .ok c) ↔
    (∀ t ∈ contentItems items, ∃ o, Object.decode t = .ok (some o)) ∧
      ∀ e ∈ entries items, Acceptable e := by
  rw [← exists_decodeList_eq_ok_iff, ← exists_marks_eq_ok_iff, Container.decode, parts_eq]
  cases decodeList (contentItems items) with
  | error fault => simp [bind, Except.bind, Except.map]
  | ok os => cases marks (entries items) <;> simp [bind, Except.bind, Except.map]

theorem decode_eq_error_iff {items : List Json} {fault : Malformed} :
    Container.decode items = .error fault ↔
      (∃ before t after, contentItems items = before ++ t :: after ∧
        (∀ u ∈ before, ∃ o, Object.decode u = .ok (some o)) ∧
        Object.decodeRequired t = .error fault) ∨
      (∀ t ∈ contentItems items, ∃ o, Object.decode t = .ok (some o)) ∧
        ∃ before e after, entries items = before ++ e :: after ∧
          (∀ d ∈ before, Acceptable d) ∧ Refused e fault := by
  rw [← decodeList_eq_error_iff, ← exists_decodeList_eq_ok_iff, ← marks_eq_error_iff,
    Container.decode, parts_eq]
  cases decodeList (contentItems items) with
  | error other => simp [bind, Except.bind, Except.map]
  | ok os => cases marks (entries items) <;> simp [bind, Except.bind, Except.map]

/-- A token in front of which all is read decides what becomes of the array, whatever follows. -/
theorem decode_of_content_fails {before after : List Json} {t : Json} {fault : Malformed}
    (hbefore : ∀ u ∈ before, ∃ o, Object.decode u = .ok (some o))
    (ht : Object.decodeRequired t = .error fault) (hlast : after = [] → ¬t.isTerminator) :
    Container.decode (before ++ t :: after) = .error fault := by
  refine decode_eq_error_iff.2 (.inl ?_)
  rcases List.eq_nil_or_concat after with rfl | ⟨middle, last, rfl⟩
  · refine ⟨before, t, [], ?_, hbefore, ht⟩
    rw [contentItems_append]
    simp [contentItems, hlast rfl]
  · refine ⟨before, t, middle ++ contentItems [last], ?_, hbefore, ht⟩
    have hitems : before ++ t :: middle.concat last = (before ++ t :: middle) ++ [last] := by simp
    rw [hitems, contentItems_append]
    simp

theorem length_contentItems (items : List Json) : (contentItems items).length =
    if items.getLast?.any Json.isTerminator then items.length - 1 else items.length := by
  rw [contentItems]
  split
  · exact List.length_dropLast
  · rfl

theorem length_content_of_decode {items : List Json} {c : Container}
    (h : Container.decode items = .ok c) : c.content.length =
      if items.getLast?.any Json.isTerminator then items.length - 1 else items.length := by
  obtain ⟨⟨content, ms⟩, hparts, rfl⟩ := map_eq_ok.1 h
  rw [parts_eq] at hparts
  obtain ⟨os, hos, hparts⟩ := bind_eq_ok.1 hparts
  obtain ⟨_, -, heq⟩ := bind_eq_ok.1 hparts
  cases heq
  rw [content_ofParts, ← length_contentItems]
  exact (List.Forall₂.length_eq (mapM_eq_ok_iff_forall₂.1 hos)).symm

/-- An array is read if all of its content and of the record at its end can be, and else the first
fault in it is reported, content first. So nothing behind a fault in the content has any effect. -/
theorem decode_leftmost :
    (∀ items, (∃ c, Container.decode items = .ok c) ↔
      (∀ t ∈ contentItems items, ∃ o, Object.decode t = .ok (some o)) ∧
        ∀ e ∈ entries items, Acceptable e) ∧
    (∀ items fault, Container.decode items = .error fault ↔
      (∃ before t after, contentItems items = before ++ t :: after ∧
        (∀ u ∈ before, ∃ o, Object.decode u = .ok (some o)) ∧
        Object.decodeRequired t = .error fault) ∨
      (∀ t ∈ contentItems items, ∃ o, Object.decode t = .ok (some o)) ∧
        ∃ before e after, entries items = before ++ e :: after ∧
          (∀ d ∈ before, Acceptable d) ∧ Refused e fault) ∧
    (∀ before t after other, (∀ u ∈ before, ∃ o, Object.decode u = .ok (some o)) →
      (∀ o, Object.decode t ≠ .ok (some o)) → (after = [] ∨ other = [] → ¬t.isTerminator) →
        ∃ fault, Container.decode (before ++ t :: after) = .error fault ∧
          Container.decode (before ++ t :: other) = .error fault) ∧
    ∀ items c, Container.decode items = .ok c → c.content.length =
      if items.getLast?.any Json.isTerminator then items.length - 1 else items.length := by
  refine ⟨fun items => exists_decode_eq_ok_iff, fun items fault => decode_eq_error_iff, ?_,
    fun items c h => length_content_of_decode h⟩
  intro before t after other hbefore ht hlast
  cases hfault : Object.decodeRequired t with
  | ok o => exact absurd (Object.decodeRequired_eq_ok.1 hfault) (ht o)
  | error fault =>
      exact ⟨fault, decode_of_content_fails hbefore hfault fun h => hlast (.inl h),
        decode_of_content_fails hbefore hfault fun h => hlast (.inr h)⟩

/-- One token is refused as content, whatever comes next, and good as the record at the end. -/
theorem decode_leftmost_roles :
    let t := Json.obj [("->", Encoding.int64 3)]
    (∃ c, Container.decode [.str "ev", t] = .ok c ∧ c.content.length = 1) ∧
      (∀ u ∈ [Json.str "ev"], ∃ o, Object.decode u = .ok (some o)) ∧
      (∀ o, Object.decode t ≠ .ok (some o)) ∧
      (([.null] : List Json) = [] ∨ [Json.bool true, t] = [] → ¬t.isTerminator) ∧
      ∃ fault, Container.decode ([.str "ev"] ++ t :: [.null]) = .error fault ∧
        Container.decode ([.str "ev"] ++ t :: [.bool true, t]) = .error fault := by
  intro t
  obtain ⟨-, -, first, length⟩ := decode_leftmost
  have hbefore : ∀ u ∈ [Json.str "ev"], ∃ o, Object.decode u = .ok (some o) := by
    intro u hu
    rw [List.mem_singleton.1 hu]
    exact ⟨_, rfl⟩
  have ht : ∀ o, Object.decode t ≠ .ok (some o) := nofun
  have hlast : ([.null] : List Json) = [] ∨ [Json.bool true, t] = [] → ¬t.isTerminator := by simp
  exact ⟨⟨_, rfl, length [.str "ev", t] _ rfl⟩, hbefore, ht, hlast,
    first [.str "ev"] t [.null] [.bool true, t] hbefore ht hlast⟩

end Container

end StoryCodec
