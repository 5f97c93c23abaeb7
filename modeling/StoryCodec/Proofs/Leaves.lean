import StoryCodec.Proofs.BareText
import StoryCodec.Proofs.Rereading
import StoryCodec.Proofs.Terminators

namespace StoryCodec

theorem Json.integer?_ofInt64 (n : Int64) : Json.integer? (.num (.ofInt64 n)) = some n := by
  obtain ⟨m, hm, hn⟩ := Json.integer?_int n.le_toInt
    (by have := n.toInt_lt; omega) (by have := n.toInt_lt; omega)
  rw [Number.ofInt64, hm, Int64.toInt_inj.1 hn]

namespace BareText

theorem object?_caret (s : String) : object? ("^" ++ s) = some (.value (.text s)) := by
  have hn : number? ("^" ++ s) = none := number?_eq_none_of_caret (by simp)
  simp [object?, kinds, numeral?, marked?, hn]

theorem object?_newline : object? "\n" = some (.value .newline) := rfl

theorem object?_void : object? "void" = some .void := rfl

theorem object?_glueText (g : Glue) : object? (glueText g) = some (.glue g) := by
  cases g <;> rfl

theorem object?_mnemonic (c : Command) : object? c.mnemonic = some (.command c) := by
  cases c <;> rfl

theorem object?_symbol (op : Operator) : object? op.symbol = some (.operator op) := by
  cases op <;> rfl

end BareText

namespace Record

variable {α : Type} {narrow : Int → Option α} {fault : Reason} {fields : Fields Json} {key : String}

theorem narrowed?_some {token : Json} {n : Int64} {a : α} (h : fields.get? key = some token)
    (hn : token.integer? = some n) (ha : narrow n.toInt = some a) :
    narrowed? narrow fault fields key = .ok (some a) := by
  simp [narrowed?, integer?, h, hn, ha, bind, Except.bind]

theorem narrowed?_int32 {n : Int32} (h : fields.get? key = some (.num (.ofInt32 n))) :
    narrowed? int32? fault fields key = .ok (some n) := by
  have lower := n.le_toInt
  have upper := n.toInt_lt
  obtain ⟨m, hm, hn⟩ := Json.integer?_int (n := n.toInt) (by omega) (by omega) (by omega)
  exact narrowed?_some h hm (by rw [hn, int32?_toInt])

theorem narrowed?_uint32 {n : UInt32} (h : fields.get? key = some (.num (.ofUInt32 n))) :
    narrowed? uint32? fault fields key = .ok (some n) := by
  have upper := n.toNat_lt
  obtain ⟨m, hm, hn⟩ := Json.integer?_int (n := n.toNat) (by omega) (by omega) (by omega)
  exact narrowed?_some h hm (by rw [hn, uint32?_toNat])

/-- A count above the signed words comes back as the greatest of them. -/
theorem narrowed?_uint64 {n : UInt64} (h : fields.get? key = some (.num (.ofUInt64 n))) :
    narrowed? uint64? fault fields key = .ok (some (min n 0x7fffffffffffffff)) := by
  apply narrowed?_some h rfl
  have hmin : (clampInt64 n.toNat).toInt = (min n 0x7fffffffffffffff : UInt64).toNat := by
    rw [clampInt64_toInt]
    change _ = ((if n ≤ 0x7fffffffffffffff then n else 0x7fffffffffffffff : UInt64).toNat : Int)
    split
    next hle =>
      have : n.toNat ≤ 0x7fffffffffffffff := hle
      omega
    next hle =>
      have : ¬n.toNat ≤ 0x7fffffffffffffff := hle
      change _ = (0x7fffffffffffffff : Int)
      omega
  rw [hmin, uint64?_toNat]

end Record

namespace Object

open Record (firstOf marked)

theorem decode_str {s : String} {o : Object} (h : BareText.object? s = some o) :
    Object.decode (.str s) = .ok (some o) := by
  rw [Object.decode, Decoding.string, h]

theorem decode_of_marked {fields : Fields Json} {o : Object}
    (h : firstOf marked fields = .ok (some o)) : Object.decode (.obj fields) = .ok (some o) := by
  rw [Object.decode, Decoding.record, h]
  rfl

theorem decode_int64 (n : Int64) : Object.decode (Encoding.int64 n) = .ok (some (.value (.int n))) := by
  simp [Encoding.int64, Number.ofInt64, Object.decode, Decoding.number, int64?_toInt]

theorem decode_text (s : String) : Object.decode (Encoding.text s) = .ok (some (.value (.text s))) := by
  rw [Encoding.text]
  split
  next h => rw [of_decide_eq_true h]; exact decode_str BareText.object?_newline
  next => exact decode_str (BareText.object?_caret s)

theorem decode_pointer (p : VariablePointer) :
    Object.decode (Encoding.pointer p) = .ok (some (.value (.pointer p))) := by
  obtain ⟨name, context⟩ := p
  cases context with
  | none => rfl
  | some n =>
      have hn : Record.narrowed? int32? (.outOfRange "ci")
          [("^var", .str name), ("ci", .num (.ofInt32 n))] "ci" = .ok (some n) :=
        Record.narrowed?_int32 rfl
      apply decode_of_marked
      change (Record.narrowed? int32? _ _ _ >>= _) >>= _ = _
      rw [hn]
      rfl

theorem decode_value {v : Value} {t : Json} (h : Encoding.value v = .ok t) :
    Object.decode t = .ok (some (.value v.reread)) := by
  cases v with
  | int n => cases h; exact decode_int64 n
  | float x =>
      cases x with
      | finite x => cases h; rfl
      | infinite | nan => cases h
  | text s => cases h; exact decode_text s
  | target p => cases h; rfl
  | pointer p => cases h; exact decode_pointer p

theorem decode_external (target : Target) (pushes : Bool) (frame : Frame) (args : UInt64) :
    Object.decode (Encoding.divert ⟨target, pushes, frame, true, args⟩) = .ok (some (.divert
      ((Divert.ofTarget target.reread).calling (min args 0x7fffffffffffffff)))) := by
  by_cases h : 0 < args
  · have hargs (fields : Fields Json) (hget : fields.get? "exArgs" = some (.num (.ofUInt64 args))) :
        Record.narrowed? uint64? .negativeArguments fields "exArgs" =
          .ok (some (min args 0x7fffffffffffffff)) :=
      Record.narrowed?_uint64 hget
    apply decode_of_marked
    rw [if_pos ⟨rfl, h⟩]
    cases target with
    | path p =>
        change (Record.narrowed? uint64? _ _ _ >>= _) >>= _ = _
        rw [hargs _ rfl]
        rfl
    | variableNamed name =>
        change (Record.narrowed? uint64? _ _ _ >>= _) >>= _ = _
        rw [hargs _ rfl]
        rfl
  · obtain rfl : args = 0 := by
      rw [UInt64.lt_iff_toNat_lt] at h
      exact UInt64.toNat_inj.1 (by simpa using h)
    cases target <;> rfl

theorem decode_divert (d : Divert) :
    Object.decode (Encoding.divert d) = .ok (some (.divert d.reread)) := by
  obtain ⟨target, pushes, frame, external, args⟩ := d
  cases external with
  | true => exact decode_external target pushes frame args
  | false => cases target <;> cases pushes <;> cases frame <;> rfl

theorem decode_choicePoint (p : ChoicePoint) : Object.decode (Encoding.choicePoint p) =
    .ok (some (.choicePoint { p with path := p.path.reread })) := by
  have hbits : Record.narrowed? uint32? (.outOfRange "flg")
      [("*", .str p.path.text), ("flg", .num (.ofUInt32 p.flags.bits))] "flg" =
        .ok (some p.flags.bits) :=
    Record.narrowed?_uint32 rfl
  apply decode_of_marked
  change (Record.narrowed? uint32? _ _ _ >>= _) >>= _ = _
  rw [hbits]
  rfl

theorem decode_reference (r : VariableReference) :
    Object.decode (Encoding.reference r) = .ok (some (.reference r.reread)) := by
  cases r <;> rfl

theorem decode_assignment (a : VariableAssignment) :
    Object.decode (Encoding.assignment a) = .ok (some (.assignment a)) := by
  obtain ⟨name, isGlobal, isNew⟩ := a
  cases isGlobal <;> cases isNew <;> rfl

theorem decode_choice (c : Choice) :
    Object.decode (Encoding.choice c) = .ok (some (.choice c)) := by
  change Decoding.record _ (.ok none) (.ok none) = _
  have hmarked : firstOf marked [("text", .str c.text), ("index", Encoding.int64 c.index),
      ("originalChoicePath", .str c.path), ("originalThreadIndex", Encoding.int64 c.thread)] =
        .ok none := rfl
  rw [Decoding.record, hmarked]
  simp [Decoding.atToken, Record.choice, Record.string?, Record.integer?, Fields.get?,
    Encoding.int64, Json.integer?_ofInt64, bind, Except.bind]

theorem decode_of_sides {fields : Fields Json} {onTrue onFalse : Option Object} {b : Branch}
    (hmarked : firstOf marked fields = .ok none) (ht : Decoding.side "t?" fields = .ok onTrue)
    (hf : Decoding.side "f?" fields = .ok onFalse)
    (hb : b = ⟨onTrue.bind divert?, onFalse.bind divert?⟩) (h : b.onTrue.isSome ∨ b.onFalse.isSome) :
    Object.decode (.obj fields) = .ok (some (.branch b)) := by
  subst hb
  rw [Object.decode, Decoding.record, hmarked, ht, hf]
  simp only [Decoding.atToken, bind, Except.bind]
  rw [if_pos (by simpa using h)]

theorem decode_branch {b : Branch} (h : b.onTrue.isSome ∨ b.onFalse.isSome) :
    Object.decode (Encoding.branch b) = .ok (some (.branch b.reread)) := by
  obtain ⟨onTrue, onFalse⟩ := b
  have side (key : String) (d : Divert) (rest : Fields Json) :
      Decoding.side key ((key, Encoding.divert d) :: rest) = .ok (some (divert d.reread)) := by
    rw [Decoding.side, if_pos rfl, decode_divert]
  cases onTrue with
  | none =>
      cases onFalse with
      | none => simp at h
      | some e => exact decode_of_sides rfl rfl (side "f?" e []) rfl (.inr rfl)
  | some d =>
      have ht := side "t?" d
      cases onFalse with
      | none => exact decode_of_sides rfl (ht []) rfl rfl (.inl rfl)
      | some e => exact decode_of_sides rfl (ht _) (side "f?" e []) rfl (.inl rfl)

/-- Nothing that the encoder writes for an object without children is taken for another shape. -/
theorem decode_leaf {o : Object} (leaf : o.container? = none) (readable : o.Readable) {t : Json}
    (h : o.encode = .ok t) : Object.decode t = .ok (some o.reread) := by
  cases o with
  | container c => simp [container?] at leaf
  | value v => exact decode_value h
  | glue g => cases h; exact decode_str (BareText.object?_glueText g)
  | command c => cases h; exact decode_str (BareText.object?_mnemonic c)
  | operator op => cases h; exact decode_str (BareText.object?_symbol op)
  | divert d => cases h; exact decode_divert d
  | choicePoint p => cases h; exact decode_choicePoint p
  | reference r => cases h; exact decode_reference r
  | assignment a => cases h; exact decode_assignment a
  | branch b => cases h; exact decode_branch readable
  | void => cases h; exact decode_str BareText.object?_void
  | choice c => cases h; exact decode_choice c

end Object

end StoryCodec
