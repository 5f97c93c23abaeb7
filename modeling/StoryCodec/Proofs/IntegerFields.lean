import StoryCodec.Proofs.Integers
import StoryCodec.Proofs.Records
import StoryCodec.Proofs.Reordering
import StoryCodec.Wire.Document

namespace StoryCodec

variable {fields : Fields Json} {key : String}

theorem toInt_of_int32? {n : Int} {m : Int32} (h : int32? n = some m) : m.toInt = n := by
  obtain ⟨hbound, ⟨⟩⟩ := Option.ite_none_right_eq_some.1 h
  exact Int32.toInt_ofInt_of_le (by omega) (by omega)

theorem toNat_of_uint32? {n : Int} {m : UInt32} (h : uint32? n = some m) : (m.toNat : Int) = n := by
  obtain ⟨hbound, ⟨⟩⟩ := Option.ite_none_right_eq_some.1 h
  rw [UInt32.toNat_ofNat_of_lt' (by change _ < 2 ^ 32; omega)]
  omega

theorem toNat_of_uint64? {n : Int} {m : UInt64} (h : uint64? n = some m) : (m.toNat : Int) = n := by
  obtain ⟨hbound, ⟨⟩⟩ := Option.ite_none_right_eq_some.1 h
  rw [UInt64.toNat_ofNat_of_lt' (by change _ < 2 ^ 64; omega)]
  omega

namespace Record

theorem integer?_eq_ok {v : Json} {r : Option Int64} (h : integer? fields key = .ok r)
    (hv : fields.get? key = some v) : ∃ n, v.integer? = some n ∧ r = some n := by
  rw [integer?, hv] at h
  cases hn : v.integer? with
  | none => simp [hn] at h
  | some n => exact ⟨n, rfl, by simpa [hn, eq_comm] using h⟩

theorem narrowed?_eq_ok {α : Type} {narrow : Int → Option α} {fault : Reason} {v : Json}
    {r : Option α} (h : narrowed? narrow fault fields key = .ok r) (hv : fields.get? key = some v) :
    ∃ n a, v.integer? = some n ∧ narrow n.toInt = some a ∧ r = some a := by
  obtain ⟨i, hi, h⟩ := bind_eq_ok.1 h
  obtain ⟨n, hn, rfl⟩ := integer?_eq_ok hi hv
  cases ha : narrow n.toInt with
  | none => simp [ha] at h
  | some a => exact ⟨n, a, hn, ha, by simpa [ha, eq_comm] using h⟩

end Record

/-- The fields of a story that hold integers. -/
inductive IntegerField
  | arguments
  | index
  | thread
  | context
  | choiceFlags
  | countFlags
  | version
  | count
deriving DecidableEq

/-- Whether a field takes every non-negative integer of a signed 64-bit word. -/
def IntegerField.isWide : IntegerField → Bool
  | arguments | index | thread | version | count => true
  | context | choiceFlags | countFlags => false

/-- Decoding has succeeded where a token was given for an integer field, and this is what it left in
the field. -/
inductive Stores : IntegerField → Json → Option Int → Prop
  | arguments {fields : Fields Json} {d : Divert} {v : Json}
      (h : Object.decode (.obj fields) = .ok (some (.divert d))) (external : d.external)
      (hv : fields.get? "exArgs" = some v) : Stores .arguments v (some d.args.toNat)
  | index {fields : Fields Json} {c : Choice} {v : Json}
      (h : Object.decode (.obj fields) = .ok (some (.choice c)))
      (hv : fields.get? "index" = some v) : Stores .index v (some c.index.toInt)
  | thread {fields : Fields Json} {c : Choice} {v : Json}
      (h : Object.decode (.obj fields) = .ok (some (.choice c)))
      (hv : fields.get? "originalThreadIndex" = some v) : Stores .thread v (some c.thread.toInt)
  | context {fields : Fields Json} {p : VariablePointer} {v : Json}
      (h : Object.decode (.obj fields) = .ok (some (.value (.pointer p))))
      (hv : fields.get? "ci" = some v) : Stores .context v (p.context.map Int32.toInt)
  | choiceFlags {fields : Fields Json} {p : ChoicePoint} {v : Json}
      (h : Object.decode (.obj fields) = .ok (some (.choicePoint p)))
      (hv : fields.get? "flg" = some v) : Stores .choiceFlags v (some p.flags.bits.toNat)
  | countFlags {items : List Json} {fields : Fields Json} {c : Container} {v : Json}
      (h : Container.decode (items ++ [.obj fields]) = .ok c) (nodup : fields.keys.Nodup)
      (hv : fields.get? "#f" = some v) : Stores .countFlags v (some c.countFlags.bits.toNat)
  | version {fields : Fields Json} {story : Story} {v : Json}
      (h : Story.decode (.obj fields) = .ok story) (hv : fields.get? "inkVersion" = some v) :
      Stores .version v (story.version.map Int64.toInt)
  | count {fields : Fields Json} {counts : Fields Int64} {key : String} {v : Json}
      (h : decodeCounts fields = .ok counts) (hv : fields.get? key = some v) :
      Stores .count v ((counts.get? key).map Int64.toInt)

theorem flags_of_marks {ms : List Mark} {v : Json} (h : Decoding.marks fields = .ok ms)
    (nodup : fields.keys.Nodup) (hv : fields.get? "#f" = some v) : ∃ n bits, v.integer? = some n ∧
      uint32? n.toInt = some bits ∧ ms.filterMap Mark.flags? = [⟨bits⟩] := by
  rw [Decoding.marks_eq_mapM] at h
  obtain ⟨m, hmem, hm⟩ := exists_mem_of_mapM h (Fields.mem_of_get? hv)
  rw [Decoding.entry, Decoding.mark, if_pos rfl] at hm
  split at hm
  next bits hbits =>
    cases hm
    obtain ⟨n, hn, hbits⟩ := Option.bind_eq_some_iff.1 hbits
    have hlength : (ms.filterMap Mark.flags?).length ≤ 1 := by
      refine Mark.length_filterMap_le_one (k := "#f") ?_ (by rwa [Decoding.keys_of_marks h])
      intro m flags hflags
      cases m <;> cases hflags
      rfl
    have hflags : (⟨bits⟩ : CountFlags) ∈ ms.filterMap Mark.flags? :=
      List.mem_filterMap.2 ⟨_, hmem, rfl⟩
    obtain ⟨flags, hone⟩ := List.length_eq_one_iff.1
      (le_antisymm hlength (List.length_pos_of_mem hflags))
    rw [hone, List.mem_singleton] at hflags
    exact ⟨n, bits, hn, hbits, by rw [hone, hflags]⟩
  next => cases hm

theorem countFlags_of_decode {items : List Json} {c : Container} {v : Json}
    (h : Container.decode (items ++ [.obj fields]) = .ok c) (nodup : fields.keys.Nodup)
    (hv : fields.get? "#f" = some v) :
    ∃ n, v.integer? = some n ∧ uint32? n.toInt = some c.countFlags.bits := by
  rw [Container.decode, Decoding.parts_append] at h
  obtain ⟨⟨content, ms⟩, hparts, rfl⟩ := map_eq_ok.1 h
  obtain ⟨front, -, hparts⟩ := bind_eq_ok.1 hparts
  obtain ⟨⟨more, ms⟩, hmarks, hparts⟩ := bind_eq_ok.1 hparts
  cases hparts
  obtain ⟨ms, hmarks, ⟨⟩⟩ := map_eq_ok.1 hmarks
  obtain ⟨n, bits, hn, hbits, hflags⟩ := flags_of_marks hmarks nodup hv
  have hkeys : (Fields.keys (ms.filterMap Mark.child?)).Nodup := by
    rw [Decoding.marks_eq_mapM] at hmarks
    refine (Mark.keys_children_sublist ms).nodup ?_
    rwa [Decoding.keys_of_marks hmarks]
  refine ⟨n, hn, ?_⟩
  rw [Container.ofParts_eq hkeys, hflags]
  exact hbits

theorem count_of_decode {counts : Fields Int64} {v : Json} (h : decodeCounts fields = .ok counts)
    (hv : fields.get? key = some v) : ∃ n, v.integer? = some n ∧ counts.get? key = some n := by
  induction fields generalizing counts with
  | nil => cases hv
  | cons field fields ih =>
      obtain ⟨k, token⟩ := field
      obtain ⟨entry, rest, hentry, hrest, rfl⟩ := mapM_cons_eq_ok.1 h
      cases hn : token.integer? with
      | none => simp [hn] at hentry
      | some n =>
          simp only [hn, Except.ok.injEq] at hentry
          subst hentry
          rw [Fields.get?] at hv ⊢
          split at hv
          next hk =>
            cases hv
            exact ⟨n, hn, if_pos hk⟩
          next hk =>
            rw [if_neg hk]
            exact ih hrest hv

theorem version_of_decode {story : Story} {v : Json} (h : Story.decode (.obj fields) = .ok story)
    (hv : fields.get? "inkVersion" = some v) :
    ∃ n, v.integer? = some n ∧ story.version = some n := by
  rw [Story.decode] at h
  split at h
  next items _ =>
    simp only [bind_eq_ok] at h
    obtain ⟨version, hversion, root, -, h⟩ := h
    cases h
    cases hread : Story.version? fields with
    | error fault => rw [hread] at hversion; cases hversion
    | ok r =>
        rw [hread] at hversion
        cases hversion
        exact Record.integer?_eq_ok hread hv
  next => cases h

/-- A field holds what its token denotes, unless the token is a number beyond 64 bits. -/
structure Exact (field : IntegerField) (v : Json) (n : Int) : Prop where
  denotes_iff : v.Denotes n ↔ ¬v.Beyond
  clamped : v.Beyond → field.isWide ∧ ∃ m, v.Denotes m ∧ n = (clampInt64 m).toInt

theorem exact_of_wide {field : IntegerField} {v : Json} {n : Int64} (h : v.integer? = some n)
    (wide : field.isWide) : Exact field v n.toInt := by
  refine ⟨Json.denotes_iff_of_integer? h, fun _ => ⟨wide, ?_⟩⟩
  obtain ⟨m, hm, rfl, -⟩ := Json.integer?_eq_some_iff.1 h
  exact ⟨m, hm, rfl⟩

/-- The bounds of a signed 64-bit word do not fit into a narrower field. -/
theorem exact_of_narrow {field : IntegerField} {v : Json} {n : Int64} (h : v.integer? = some n)
    (lower : -0x80000000 ≤ n.toInt) (upper : n.toInt < 0x100000000) :
    Exact field v n.toInt := by
  have hb : ¬v.Beyond := by
    intro hb
    obtain ⟨m, hm, rfl, -⟩ := Json.integer?_eq_some_iff.1 h
    obtain ⟨k, hk, hbound⟩ := Json.denotes_of_beyond hb
    rw [hm.unique hk, clampInt64_toInt] at lower upper
    omega
  exact ⟨Json.denotes_iff_of_integer? h, fun h => absurd h hb⟩

theorem Stores.exact_or_clamped {field : IntegerField} {v : Json} {kept : Option Int}
    (h : Stores field v kept) : ∃ n, kept = some n ∧ Exact field v n := by
  cases h with
  | arguments h external hv =>
      cases Record.yields_of_decode h with
      | jump hjump => simp [hjump] at external
      | call d hargs =>
          obtain ⟨n, args, hn, hnarrow, rfl⟩ := Record.narrowed?_eq_ok hargs hv
          refine ⟨_, rfl, ?_⟩
          change Exact _ _ (args.toNat : Int)
          rw [toNat_of_uint64? hnarrow]
          exact exact_of_wide hn rfl
  | index h hv =>
      cases Record.yields_of_decode h with
      | choice text path hindex hthread =>
          obtain ⟨n, hn, rfl⟩ := Record.integer?_eq_ok hindex hv
          exact ⟨_, rfl, exact_of_wide hn rfl⟩
  | thread h hv =>
      cases Record.yields_of_decode h with
      | choice text path hindex hthread =>
          obtain ⟨n, hn, rfl⟩ := Record.integer?_eq_ok hthread hv
          exact ⟨_, rfl, exact_of_wide hn rfl⟩
  | context h hv =>
      cases Record.yields_of_decode h with
      | pointer name hcontext =>
          obtain ⟨n, context, hn, hnarrow, rfl⟩ := Record.narrowed?_eq_ok hcontext hv
          refine ⟨_, rfl, ?_⟩
          have lower := context.le_toInt
          have upper := context.toInt_lt
          rw [toInt_of_int32? hnarrow] at lower upper ⊢
          exact exact_of_narrow hn lower (by omega)
  | choiceFlags h hv =>
      cases Record.yields_of_decode h with
      | choicePoint p hbits =>
          obtain ⟨n, bits, hn, hnarrow, rfl⟩ := Record.narrowed?_eq_ok hbits hv
          refine ⟨_, rfl, ?_⟩
          have upper := bits.toNat_lt
          have hnat := toNat_of_uint32? hnarrow
          change Exact _ _ (bits.toNat : Int)
          rw [hnat]
          exact exact_of_narrow hn (by omega) (by omega)
  | @countFlags items fields c v h nodup hv =>
      obtain ⟨n, hn, hnarrow⟩ := countFlags_of_decode h nodup hv
      refine ⟨_, rfl, ?_⟩
      have hnat := toNat_of_uint32? hnarrow
      have upper := c.countFlags.bits.toNat_lt
      rw [hnat]
      exact exact_of_narrow hn (by omega) (by omega)
  | version h hv =>
      obtain ⟨n, hn, hversion⟩ := version_of_decode h hv
      exact ⟨n.toInt, by rw [hversion]; rfl, exact_of_wide hn rfl⟩
  | count h hv =>
      obtain ⟨n, hn, hcount⟩ := count_of_decode h hv
      exact ⟨n.toInt, by rw [hcount]; rfl, exact_of_wide hn rfl⟩

theorem Stores.exact_or_clamped_float :
    let three : Json := .num (.float ⟨false, 0x4008000000000000, by decide⟩)
    Stores .count three (some 3) ∧ ∃ n, some 3 = some n ∧ Exact .count three n := by
  intro three
  have h : Stores .count three (some 3) := @Stores.count [("knot", three)] _ "knot" three rfl rfl
  exact ⟨h, Stores.exact_or_clamped h⟩

/-- The first number beyond the signed words is stored as the last one within them. -/
theorem Stores.clamped_two_pow_63 :
    let beyond : Json := .num (.int 0x8000000000000000 (by decide) (by decide))
    Stores .count beyond (some 0x7fffffffffffffff) ∧ ¬beyond.Denotes 0x7fffffffffffffff := by
  intro beyond
  refine ⟨@Stores.count [("knot", beyond)] _ "knot" beyond rfl rfl, ?_⟩
  intro h
  exact absurd (h.unique (.int _ _ _)) (by decide)

end StoryCodec
