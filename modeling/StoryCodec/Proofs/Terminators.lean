import StoryCodec.Proofs.Arrays

namespace StoryCodec

theorem Json.integer?_int {n : Int} (lower : -0x8000000000000000 ≤ n)
    (upper : n < 0x10000000000000000) (h : n < 0x8000000000000000) :
    ∃ m, Json.integer? (.num (.int n lower upper)) = some m ∧ m.toInt = n := by
  refine ⟨clampInt64 n, rfl, ?_⟩
  rw [clampInt64_toInt]
  omega

theorem keys_of_decodeMap {fields : Fields Json} {children : Fields Object}
    (h : decodeMap fields = .ok children) : children.keys = fields.keys := by
  refine map_eq_map_of_mapM h fun field child hchild => ?_
  obtain ⟨o, -, rfl⟩ := map_eq_ok.1 hchild
  rfl

namespace Mark

def key : Mark → String
  | flags _ => "#f"
  | name _ => "#n"
  | child key _ => key

def flags? : Mark → Option CountFlags
  | flags bits => some bits
  | _ => none

def name? : Mark → Option String
  | name text => some text
  | _ => none

def child? : Mark → Option (String × Object)
  | child key o => some (key, o)
  | _ => none

end Mark

namespace Container

def slot (e : String × Object) : String × Object := (e.1, e.2.renamed e.1)

theorem keys_map_slot (children : Fields Object) :
    Fields.keys (children.map slot) = children.keys := by
  simp [Fields.keys, slot, Function.comp_def]

/-- Of several flags or names the last one counts; children under new keys are added behind the named
ones in their order. -/
theorem foldl_mark (c : Container) (ms : List Mark)
    (h : (Fields.keys c.named ++ Fields.keys (ms.filterMap Mark.child?)).Nodup) :
    ms.foldl mark c = ⟨(ms.filterMap Mark.name?).getLast?.or c.name,
      (ms.filterMap Mark.flags?).getLast?.getD c.countFlags, c.content,
      c.named ++ (ms.filterMap Mark.child?).map slot⟩ := by
  induction ms generalizing c with
  | nil =>
      cases c
      simp
  | cons m ms ih =>
      cases m with
      | flags flags =>
          rw [List.foldl_cons, ih (c.mark (.flags flags)) h]
          simp [mark, List.filterMap_cons, List.getLast?_cons, Mark.flags?, Mark.name?, Mark.child?]
      | name name =>
          rw [List.foldl_cons, ih (c.mark (.name name)) h]
          simp [mark, List.filterMap_cons, List.getLast?_cons, Mark.flags?, Mark.name?, Mark.child?]
      | child key o =>
          have hkey : key ∉ Fields.keys c.named := by
            intro hmem
            exact (List.nodup_append.1 h).2.2 key hmem key (by simp [Fields.keys, Mark.child?]) rfl
          have hstep : c.mark (.child key o) = { c with named := c.named ++ [slot (key, o)] } := by
            rw [mark, insertNamed, Fields.insert_of_notMem _ hkey]
            rfl
          rw [List.foldl_cons, hstep, ih]
          · simp [Mark.flags?, Mark.name?, Mark.child?]
          · simpa [Fields.keys, slot, Mark.child?] using h

theorem ofParts_eq {content : List Object} {ms : List Mark}
    (h : (Fields.keys (ms.filterMap Mark.child?)).Nodup) :
    ofParts (content, ms) = ⟨(ms.filterMap Mark.name?).getLast?,
      (ms.filterMap Mark.flags?).getLast?.getD ⟨0⟩, content, (ms.filterMap Mark.child?).map slot⟩ := by
  rw [ofParts, foldl_mark (.ofContent content) ms h]
  simp [ofContent, empty]

theorem content_ofParts (content : List Object) (ms : List Mark) :
    (ofParts (content, ms)).content = content := by
  refine List.foldlRecOn ms mark (motive := fun c => c.content = content)
    (b := ofContent content) rfl ?_
  intro c hc m _
  cases m <;> exact hc

/-- Named children only come in by marks. -/
theorem named_ofParts (content : List Object) (ms : List Mark) :
    (Fields.keys (ofParts (content, ms)).named).Nodup ∧
      ∀ e ∈ (ofParts (content, ms)).named, ∃ o, .child e.1 o ∈ ms ∧ e.2 = o.renamed e.1 := by
  refine List.foldlRecOn ms mark (motive := fun c : Container => (Fields.keys c.named).Nodup ∧
    ∀ e ∈ c.named, ∃ o, .child e.1 o ∈ ms ∧ e.2 = o.renamed e.1)
    (b := ofContent content) ⟨List.nodup_nil, nofun⟩ ?_
  rintro c ⟨nodup, hnamed⟩ m hm
  cases m with
  | flags flags => exact ⟨nodup, hnamed⟩
  | name name => exact ⟨nodup, hnamed⟩
  | child key o =>
      refine ⟨Fields.nodup_keys_insert nodup key _, fun e he => ?_⟩
      rcases Fields.mem_insert he with rfl | he
      · exact ⟨o, hm, rfl⟩
      · exact hnamed e he

theorem foldl_mark_child (c : Container) (children : Fields Object)
    (h : (Fields.keys c.named ++ children.keys).Nodup) :
    (children.map fun e => Mark.child e.1 e.2).foldl mark c =
      { c with named := c.named ++ children.map slot } := by
  have hchildren : (children.map fun e => Mark.child e.1 e.2).filterMap Mark.child? = children := by
    simp [List.filterMap_map, Function.comp_def, Mark.child?]
  rw [foldl_mark c _ (by rwa [hchildren]), hchildren]
  simp [List.filterMap_map, Function.comp_def, Mark.name?, Mark.flags?]

end Container

namespace Decoding

theorem mark_flags (flags : CountFlags) (child : Except Malformed Object) :
    mark "#f" (.num (.ofUInt32 flags.bits)) child = .ok (.flags flags) := by
  have bound := flags.bits.toNat_lt
  obtain ⟨m, hm, hn⟩ := Json.integer?_int (n := flags.bits.toNat) (by omega) (by omega) (by omega)
  have hbits : uint32? m.toInt = some flags.bits := by rw [hn, uint32?_toNat]
  rw [mark, if_pos rfl, Number.ofUInt32, hm, Option.bind_some, hbits]

theorem mark_name (name : String) (child : Except Malformed Object) :
    mark "#n" (.str name) child = .ok (.name name) := rfl

theorem marks_trailer (flags : CountFlags) (name : Option String) :
    ∃ ms, marks (Encoding.trailer flags name) = .ok ms ∧
      ∀ content named, ms.foldl Container.mark ⟨none, ⟨0⟩, content, named⟩ =
        ⟨name, flags, content, named⟩ := by
  have hflags : flags.isEmpty → flags = ⟨0⟩ := by
    intro h
    cases flags
    simpa [CountFlags.isEmpty] using h
  cases name with
  | none =>
      by_cases h : flags.isEmpty
      · refine ⟨[], by simp [Encoding.trailer, h, marks], fun content named => ?_⟩
        rw [hflags h]
        rfl
      · refine ⟨[.flags flags], ?_, fun content named => rfl⟩
        simp [Encoding.trailer, h, marks, mark_flags, bind, Except.bind]
  | some name =>
      by_cases h : flags.isEmpty
      · refine ⟨[.name name], by simp [Encoding.trailer, h, marks, mark_name, bind, Except.bind],
          fun content named => ?_⟩
        rw [hflags h]
        rfl
      · refine ⟨[.flags flags, .name name], ?_, fun content named => rfl⟩
        simp [Encoding.trailer, h, marks, mark_flags, mark_name, bind, Except.bind]

theorem parts_record (fields : Fields Json) :
    parts [Json.ending fields] = (marks fields).map fun ms => ([], ms) := by
  cases fields <;> rfl

end Decoding

/-- An array that ends as those of containers do is read element by element, entry by entry. -/
theorem Container.decode_append_ending (items : List Json) {fields : Fields Json}
    (hnodup : fields.keys.Nodup) (hf : "#f" ∉ fields.keys) (hn : "#n" ∉ fields.keys)
    (flags : CountFlags) (name : Option String) :
    Container.decode (items ++ [Json.ending (fields ++ Encoding.trailer flags name)]) = (do
      let content ← decodeList items
      let children ← decodeMap fields
      .ok ⟨name, flags, content, children.map slot⟩) := by
  obtain ⟨ms, hms, hfold⟩ := Decoding.marks_trailer flags name
  rw [Container.decode, Decoding.parts_append, Decoding.parts_record, Decoding.marks_append,
    Decoding.marks_eq_decodeMap hf hn, hms]
  cases decodeList items with
  | error fault => rfl
  | ok content =>
      cases hc : decodeMap fields with
      | error fault => rfl
      | ok children =>
          have hkeys : (Fields.keys (Container.ofContent content).named ++ children.keys).Nodup := by
            rw [keys_of_decodeMap hc]
            exact hnodup
          have hchildren := foldl_mark_child (Container.ofContent content) children hkeys
          simp only [Except.map, bind, Except.bind, Container.ofParts, List.foldl_append,
            List.append_nil, hchildren]
          exact congrArg Except.ok (hfold content (children.map slot))

end StoryCodec
