import StoryCodec.Proofs.Records
import StoryCodec.Proofs.RoundTrip
import StoryCodec.Proofs.StandardFormat
import StoryCodec.Proofs.Tokens

namespace StoryCodec

namespace Encoding

theorem readable_divert (d : Divert) : (divert d).Readable 1 := by
  rw [divert]
  apply Json.readable_record
  · cases d.target <;> cases departure d <;> split <;>
      simp [target, Record.Departure.key, Fields.keys]
  · cases d.target <;> split <;> simp [target, Json.isScalar]

theorem readable_terminator {fields : Fields Json} {n : Nat} (nodup : fields.keys.Nodup)
    (h : ∀ e ∈ fields, e.2.Readable n) (flags : CountFlags) (name : Option String) :
    (terminator fields flags name).Readable (n + 1) := by
  have hinsert {fields : Fields Json} (key : String) {t : Json} (ht : t.isScalar)
      (h : fields.keys.Nodup ∧ ∀ e ∈ fields, e.2.Readable n) :
      (fields.insert key t).keys.Nodup ∧ ∀ e ∈ fields.insert key t, e.2.Readable n := by
    refine ⟨Fields.nodup_keys_insert h.1 key t, fun e he => ?_⟩
    rcases Fields.mem_insert he with rfl | he
    · exact Json.readable_of_isScalar ht n
    · exact h.2 e he
  have hending {fields : Fields Json} (h : fields.keys.Nodup ∧ ∀ e ∈ fields, e.2.Readable n) :
      (if fields.isEmpty then Json.null else .obj fields).Readable (n + 1) := by
    split
    · exact Json.readable_of_isScalar rfl _
    · exact Json.readable_obj h.1 h.2
  have hflags : (if flags.isEmpty then fields
      else fields.insert "#f" (.num (.ofUInt32 flags.bits))).keys.Nodup ∧
      ∀ e ∈ (if flags.isEmpty then fields else fields.insert "#f" (.num (.ofUInt32 flags.bits))),
        e.2.Readable n := by
    split
    · exact ⟨nodup, h⟩
    · exact hinsert "#f" rfl ⟨nodup, h⟩
  cases name with
  | none => exact hending hflags
  | some name => exact hending (hinsert "#n" rfl hflags)

end Encoding

namespace Object

/-- How deep the token of an object that has no children is nested. -/
def leafNesting : Object → Nat
  | value (.target _) | value (.pointer _) => 1
  | divert _ | choicePoint _ | reference _ | assignment _ | choice _ => 1
  | branch _ => 2
  | _ => 0

theorem readable_of_encode_leaf {o : Object} (leaf : o.container? = none) {t : Json}
    (h : o.encode = .ok t) : t.Readable o.leafNesting := by
  cases o with
  | container c => simp [container?] at leaf
  | value v =>
      cases v with
      | int n => cases h; exact Json.readable_of_isScalar rfl _
      | float x =>
          cases x with
          | finite x => cases h; exact Json.readable_of_isScalar rfl _
          | infinite | nan => cases h
      | text s =>
          cases h
          apply Json.readable_of_isScalar
          rw [Encoding.text]
          split <;> rfl
      | target p =>
          cases h
          exact Json.readable_record (by simp [Fields.keys]) (by simp [Json.isScalar])
      | pointer p =>
          cases h
          rw [Encoding.pointer]
          cases p.context <;>
            exact Json.readable_record (by simp [Fields.keys]) (by simp [Json.isScalar])
  | glue | command | operator | void => cases h; exact Json.readable_of_isScalar rfl _
  | divert d => cases h; exact Encoding.readable_divert d
  | choicePoint p =>
      cases h
      exact Json.readable_record (by simp [Fields.keys]) (by simp [Json.isScalar])
  | reference r =>
      cases h
      cases r <;> exact Json.readable_record (by simp [Fields.keys]) (by simp [Json.isScalar])
  | assignment a =>
      cases h
      rw [Encoding.assignment]
      cases a.isNew <;> cases a.isGlobal <;>
        exact Json.readable_record (by simp [Fields.keys]) (by simp [Json.isScalar])
  | branch b =>
      cases h
      obtain ⟨onTrue, onFalse⟩ := b
      refine Json.readable_obj ?_ ?_
      · cases onTrue <;> cases onFalse <;> simp [Encoding.side, Fields.keys]
      · cases onTrue <;> cases onFalse <;> simp [Encoding.side, Encoding.readable_divert]
  | choice c =>
      cases h
      exact Json.readable_record (by simp [Fields.keys]) (by simp [Json.isScalar, Encoding.int64])

theorem leafNesting_of_number {n : Number} {o : Object}
    (h : Object.decode (.num n) = .ok (some o)) : o.leafNesting = 0 := by
  cases n with
  | float x => cases h; rfl
  | int i lower upper =>
      rw [Object.decode, Decoding.number] at h
      split at h <;> cases h
      rfl

theorem leafNesting_of_object? {s : String} {o : Object} (h : BareText.object? s = some o) :
    o.leafNesting = 0 := by
  rcases BareText.number_or_verbal_of_object? h with ⟨v, hv, rfl⟩ | hverbal
  · rcases BareText.numeric_of_number? hv with ⟨n, rfl⟩ | ⟨x, rfl⟩ <;> rfl
  · cases hverbal <;> rfl

theorem leafNesting_of_string {s : String} {o : Object}
    (h : Object.decode (.str s) = .ok (some o)) : o.leafNesting = 0 := by
  rw [Object.decode, Decoding.string] at h
  split at h
  next hobject => cases h; exact leafNesting_of_object? hobject
  next => cases h

/-- Only a record stands for a divert. -/
theorem nesting_pos_of_divert {t : Json} {d : Divert}
    (h : Object.decode t = .ok (some (divert d))) : 0 < t.nesting := by
  cases t with
  | null => cases h
  | bool b => cases h
  | num n => cases leafNesting_of_number h
  | str s => cases leafNesting_of_string h
  | arr items => exact Nat.succ_pos _
  | obj fields => exact Nat.succ_pos _

theorem leafNesting_of_record {fields : Fields Json} {o : Object}
    (h : Object.decode (.obj fields) = .ok (some o)) :
    o.leafNesting ≤ (Json.obj fields).nesting := by
  have hside {key : String} {side : Option Object} (hs : Decoding.side key fields = .ok side)
      (hsome : (side.bind divert?).isSome) : 2 ≤ (Json.obj fields).nesting := by
    obtain ⟨d, hd⟩ := Option.isSome_iff_exists.1 hsome
    obtain ⟨o, rfl, hdivert⟩ := Option.bind_eq_some_iff.1 hd
    obtain ⟨e, he, hdecode⟩ := mem_of_side hs
    cases o <;> cases hdivert
    have hpos := nesting_pos_of_divert hdecode
    have hle := (Json.nesting_obj_le (n := Json.fieldsNesting fields)).1 (Nat.le_refl _) e he
    exact Nat.succ_le_succ (Nat.lt_of_lt_of_le hpos hle)
  cases Record.yields_of_decode h with
  | branch htrue hfalse hsome => exact hsome.elim (hside htrue) (hside hfalse)
  | _ => exact Nat.succ_pos _

theorem readable_of_encode_content {os : List Object} {n : Nat}
    (hos : ∀ o ∈ os, ∀ t, o.encode = .ok t → t.Readable n) {t : Json}
    (h : (container (.ofContent os)).encode = .ok t) : t.Readable (n + 1) := by
  obtain ⟨items, fields, hitems, hfields, rfl⟩ := Container.encode_eq_ok.1 h
  obtain rfl := mapM_nil_eq_ok.1 hfields
  apply Json.readable_arr
  intro t ht
  rcases List.mem_append.1 ht with ht | ht
  · obtain ⟨o, ho, hencode⟩ := exists_of_mem_mapM hitems ht
    exact hos o ho t hencode
  · rw [List.mem_singleton.1 ht]
    exact Json.readable_of_isScalar rfl n

theorem readable_of_encode_container {c : Container} {n : Nat} (nodup : (Fields.keys c.named).Nodup)
    (hcontent : ∀ o ∈ c.content, ∀ t, o.encode = .ok t → t.Readable (n + 1))
    (hnamed : ∀ e ∈ c.named, ∀ t, e.2.unnamed.encode = .ok t → t.Readable n) {t : Json}
    (h : (container c).encode = .ok t) : t.Readable (n + 2) := by
  obtain ⟨items, fields, hitems, hfields, rfl⟩ := Container.encode_eq_ok.1 h
  apply Json.readable_arr
  intro t ht
  rcases List.mem_append.1 ht with ht | ht
  · obtain ⟨o, ho, hencode⟩ := exists_of_mem_mapM hitems ht
    exact hcontent o ho t hencode
  · rw [List.mem_singleton.1 ht]
    apply Encoding.readable_terminator
    · rwa [Encoding.keys_of_mapM_entry hfields]
    · intro field hfield
      obtain ⟨e, he, hentry⟩ := exists_of_mem_mapM hfields hfield
      exact hnamed e he field.2 (Encoding.entry_eq_ok.1 hentry).1

/-- The object is written as a token that can be read where so many levels are left, with its name
and without. -/
def WritesWithin (n : Nat) (o : Object) : Prop :=
  ∀ t, o.encode = .ok t ∨ o.unnamed.encode = .ok t → t.Readable n

theorem writesWithin_leaf {o : Object} (leaf : o.container? = none) {n : Nat}
    (h : o.leafNesting ≤ n) : o.WritesWithin n := by
  intro t ht
  rw [unnamed_leaf leaf, or_self] at ht
  exact (readable_of_encode_leaf leaf ht).mono h

theorem writesWithin_ofParts {content : List Object} {ms : List Mark} {n : Nat}
    (hcontent : ∀ o ∈ content, o.WritesWithin (n + 1)) (hms : ∀ m ∈ ms, m.Holds (WritesWithin n)) :
    (container (.ofParts (content, ms))).WritesWithin (n + 2) := by
  obtain ⟨nodup, hchildren⟩ := Container.named_ofParts content ms
  have hnamed : ∀ e ∈ (Container.ofParts (content, ms)).named, ∀ t,
      e.2.unnamed.encode = .ok t → t.Readable n := by
    intro e he t ht
    obtain ⟨o, hm, heq⟩ := hchildren e he
    rw [heq, unnamed_renamed] at ht
    exact (hms _ hm).2.2 t (.inr ht)
  rw [← Container.content_ofParts content ms] at hcontent
  generalize Container.ofParts (content, ms) = c at *
  have hitems : ∀ o ∈ c.content, ∀ t, o.encode = .ok t → t.Readable (n + 1) :=
    fun o ho t ht => hcontent o ho t (.inl ht)
  rintro t (ht | ht)
  · exact readable_of_encode_container nodup hitems hnamed ht
  · exact readable_of_encode_container (c := { c with name := none }) nodup hitems hnamed ht

end Object

theorem Decoding.exists_record_of_parts {items : List Json} {content : List Object} {ms : List Mark}
    (h : Decoding.parts items = .ok (content, ms)) (hms : ms ≠ []) :
    ∃ fields, .obj fields ∈ items := by
  rcases List.eq_nil_or_concat items with rfl | ⟨front, last, rfl⟩
  · cases h
    exact absurd rfl hms
  · rw [List.concat_eq_append] at *
    rw [parts_append] at h
    simp only [bind_eq_ok, Except.ok.injEq] at h
    obtain ⟨os, -, ⟨more, ms'⟩, hlast, heq⟩ := h
    cases heq
    by_contra hnone
    have hobj : ∀ fields, last ≠ .obj fields := by
      rintro fields rfl
      exact hnone ⟨fields, by simp⟩
    by_cases hnull : last = .null
    · subst hnull
      cases hlast
      exact hms rfl
    · rw [parts_singleton hnull hobj] at hlast
      obtain ⟨o, -, heq⟩ := map_eq_ok.1 hlast
      cases heq
      exact hms rfl

namespace Object

theorem writesWithin_of_decode {t : Json} {o : Object} (h : Object.decode t = .ok (some o))
    {n : Nat} (hn : t.nesting ≤ n) : o.WritesWithin n := by
  induction t using Json.token_induction generalizing o n with
  | null => cases h
  | bool b => cases h
  | num number =>
      refine writesWithin_leaf (decode_num_expressible h).1 ?_
      rw [leafNesting_of_number h]
      exact Nat.zero_le n
  | str s =>
      refine writesWithin_leaf (decode_str_expressible h).1 ?_
      rw [leafNesting_of_string h]
      exact Nat.zero_le n
  | obj fields _ =>
      exact writesWithin_leaf (decode_obj_expressible h).1
        (Nat.le_trans (leafNesting_of_record h) hn)
  | arr items ihItems ihFields =>
      obtain ⟨n, rfl, hitems⟩ := Json.exists_of_nesting_arr_le hn
      rw [Object.decode] at h
      obtain ⟨⟨content, ms⟩, hparts, heq⟩ := map_eq_ok.1 h
      cases heq
      have hholds (k : Nat) (hk : n ≤ k + 1) := Decoding.holds_of_parts hparts
        (fun t ht o ho => ihItems t ht ho (hitems t ht))
        (fun fields hf e he o ho => ihFields fields hf e he ho
          (Json.nesting_obj_le.1 (Nat.le_trans (hitems _ hf) hk) e he))
      by_cases hms : ms = []
      · subst hms
        have hcontent := (hholds n (Nat.le_succ n)).1
        rintro t (ht | ht) <;>
          exact readable_of_encode_content (fun o ho t ht => hcontent o ho t (.inl ht)) ht
      · obtain ⟨fields, hf⟩ := Decoding.exists_record_of_parts hparts hms
        obtain ⟨k, rfl, -⟩ := Json.exists_of_nesting_obj_le (hitems _ hf)
        obtain ⟨hcontent, hmarks⟩ := hholds k (Nat.le_refl _)
        exact writesWithin_ofParts hcontent hmarks

end Object

namespace Story

theorem readable_of_encode {story : Story} {items : List Json} {n : Nat}
    (hroot : Container.decode items = .ok story.root) (hn : (Json.arr items).nesting ≤ n) {u : Json}
    (hu : story.encode = .ok u) : u.Readable (n + 1) := by
  have hobject : Object.decode (.arr items) = .ok (some (.container story.root)) := by
    rw [Object.decode_arr, hroot]
    rfl
  obtain ⟨root, hencode, heq⟩ := bind_eq_ok.1 hu
  cases heq
  have hwritten : root.Readable n := Object.writesWithin_of_decode hobject hn root (.inl hencode)
  apply Json.readable_obj
  · cases story.version <;> simp [Fields.keys]
  · have hscalar (v : Int64) : (Encoding.int64 v).Readable n := Json.readable_of_isScalar rfl n
    cases story.version <;> simp [hwritten, hscalar]

/-- A story is written no deeper than it was given, but for an array alone, which is put under a
key. -/
theorem readable_of_decode {t : Json} {story : Story} (h : Story.decode t = .ok story) {u : Json}
    (hu : story.encode = .ok u) {n : Nat} (hn : t.nesting ≤ n) :
    u.Readable n ∨ u.Readable (n + 1) ∧ ∃ items, t = .arr items := by
  cases t with
  | arr items =>
      obtain ⟨root, hroot, heq⟩ := bind_eq_ok.1 h
      cases heq
      exact .inr ⟨readable_of_encode hroot hn hu, items, rfl⟩
  | obj fields =>
      obtain ⟨n, rfl, hfields⟩ := Json.exists_of_nesting_obj_le hn
      rw [Story.decode] at h
      split at h
      next items hget =>
        obtain ⟨version, -, h⟩ := bind_eq_ok.1 h
        obtain ⟨root, hroot, heq⟩ := bind_eq_ok.1 h
        cases heq
        exact .inl (readable_of_encode hroot (hfields _ (Fields.mem_of_get? hget)) hu)
      next => cases h
  | _ => cases h

theorem readable_of_decode_record {fields : Fields Json} {story : Story}
    (h : Story.decode (.obj fields) = .ok story) {u : Json} (hu : story.encode = .ok u) {n : Nat}
    (hn : (Json.obj fields).nesting ≤ n) : u.Readable n := by
  rcases readable_of_decode h hu hn with hwritten | ⟨-, items, ⟨⟩⟩
  exact hwritten

end Story

/-- What was read is written no deeper than it was given, if a story was given under a key as it is
written under one. So what could be read as text can be read again once it is rewritten. -/
theorem encode_nests_no_deeper :
    (∀ t x, Object.decode t = .ok (some x) → ∃ u, x.encode = .ok u ∧ u.nesting ≤ t.nesting) ∧
    (∀ fields story, Story.decode (.obj fields) = .ok story →
      ∃ u, story.encode = .ok u ∧ u.nesting ≤ (Json.obj fields).nesting) ∧
    ∀ format : JsonFormat, format.Faithful → ∀ text t u, format.read? text = some t →
      ((∃ x, Object.decode t = .ok (some x) ∧ x.encode = .ok u) ∨
        ∃ fields story, t = .obj fields ∧ Story.decode t = .ok story ∧ story.encode = .ok u) →
      ∀ onOneLine, format.read? (format.write onOneLine u) = some u := by
  refine ⟨fun t x h => ?_, fun fields story h => ?_, ?_⟩
  · obtain ⟨u, hu, -⟩ := Object.encode_of_decode h
    exact ⟨u, hu, (Object.writesWithin_of_decode h (Nat.le_refl _) u (.inl hu)).nesting⟩
  · obtain ⟨u, hu, -⟩ := Story.encode_of_decode h
    exact ⟨u, hu, (Story.readable_of_decode_record h hu (Nat.le_refl _)).nesting⟩
  · intro format faithful text t u htext h onOneLine
    have hlevels := (faithful.readable htext).nesting
    apply faithful.read_write onOneLine
    rcases h with ⟨x, hx, hu⟩ | ⟨fields, story, rfl, hstory, hu⟩
    · exact Object.writesWithin_of_decode hx hlevels u (.inl hu)
    · exact Story.readable_of_decode_record hstory hu hlevels

/-- The side of a branch that is no divert is left out, and the name that the key says. -/
theorem encode_nests_no_deeper_branch :
    let text := "[\x7b\"k\":[\x7b\"t?\":\x7b\"->\":\"x\"\x7d,\"f?\":[[[]]]\x7d,\x7b\"#n\":\"j\"\x7d]\x7d]"
    let given : List Json := [.obj [("k", .arr [.obj [("t?", .obj [("->", .str "x")]),
      ("f?", .arr [.arr [.arr []]])], .obj [("#n", .str "j")]])]]
    let u : Json := .arr [.obj [("k", .arr [.obj [("t?", .obj [("->", .str "x")])], .null])]]
    ∃ x, Object.decode (.arr given) = .ok (some x) ∧ x.encode = .ok u ∧
      u.nesting ≤ (Json.arr given).nesting ∧ JsonFormat.standard.Faithful ∧
      JsonFormat.standard.read? text = some (.arr given) ∧
      JsonFormat.standard.read? (JsonFormat.standard.write true u) = some u := by
  intro text given u
  obtain ⟨x, hdecode⟩ : ∃ x, Object.decode (.arr given) = .ok (some x) := ⟨_, rfl⟩
  have hencode : x.encode = .ok u := by
    cases hdecode
    rfl
  have htext : JsonFormat.standard.read? text = some (.arr given) := by
    subst text given
    rfl
  have faithful := JsonFormat.standard_faithful
  obtain ⟨hobject, -, hread⟩ := encode_nests_no_deeper
  obtain ⟨u', hu', hnesting⟩ := hobject _ x hdecode
  obtain rfl : u = u' := Except.ok.inj (hencode.symm.trans hu')
  refine ⟨x, hdecode, hencode, hnesting, faithful, htext, ?_⟩
  exact hread _ faithful _ _ _ htext (.inl ⟨x, hdecode, hencode⟩) true

end StoryCodec
