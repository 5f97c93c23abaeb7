import StoryCodec.Proofs.Grammar
import StoryCodec.Proofs.RoundTrip

namespace StoryCodec

open Json (CanonicalDivert Optional Integral)

namespace Encoding

theorem target_fields (target : Target) : ∃ s byName, Optional "var" (· = .bool true) byName ∧
    ∀ key, Encoding.target key target = (key, .str s) :: byName := by
  cases target with
  | path p => exact ⟨p.text, [], .inl rfl, fun _ => rfl⟩
  | variableNamed name => exact ⟨name, _, .inr ⟨_, rfl, rfl⟩, fun _ => rfl⟩

theorem exists_target (s : String) {byName : Fields Json}
    (h : Optional "var" (· = .bool true) byName) :
    ∃ target : Target, (∀ p, target.path? = some p → p.Spelled) ∧
      ∀ key, Encoding.target key target = (key, .str s) :: byName := by
  rcases h with rfl | ⟨_, rfl, rfl⟩
  · refine ⟨.path (.parse s), ?_, fun key => by rw [Encoding.target, Path.text_parse]⟩
    rintro p ⟨⟩
    exact Path.spelled_parse s
  · exact ⟨.variableNamed s, by simp [Target.path?], fun _ => rfl⟩

theorem canonicalDivert {d : Divert} (h : d.Expressible) : CanonicalDivert (Encoding.divert d) := by
  obtain ⟨target, pushes, frame, external, args⟩ := d
  obtain ⟨s, byName, hname, hfields⟩ := target_fields target
  rw [Encoding.divert, hfields]
  rcases h with ⟨rfl, rfl, -⟩ | ⟨rfl, rfl, rfl, hargs⟩
  · have hkey : (departure ⟨target, pushes, frame, false, 0⟩).key ∈ ["->", "f()", "->t->"] := by
      cases pushes <;> cases frame <;> simp [departure, Record.Departure.key]
    simpa using CanonicalDivert.toStory hkey s hname
  · apply CanonicalDivert.toGame s hname
    split
    next hpos =>
      refine .inr ⟨_, rfl, Json.integral_uint64.2 ⟨args, hpos.2, ?_, rfl⟩⟩
      exact Nat.lt_succ_of_le hargs
    next => exact .inl rfl

theorem exists_departing {key : String} (hkey : key ∈ ["->", "f()", "->t->"]) (target : Target) :
    ∃ d : Divert, d.Expressible ∧ d.target = target ∧ d.external = false ∧ (departure d).key = key := by
  simp only [List.mem_cons, List.not_mem_nil, or_false] at hkey
  rcases hkey with rfl | rfl | rfl
  · exact ⟨.ofTarget target, Divert.expressible_ofTarget target, rfl, rfl, rfl⟩
  · exact ⟨(Divert.ofTarget target).pushing .function, Divert.expressible_pushing target _, rfl, rfl, rfl⟩
  · exact ⟨(Divert.ofTarget target).pushing .tunnel, Divert.expressible_pushing target _, rfl, rfl, rfl⟩

theorem exists_args {args : Fields Json}
    (h : Optional "exArgs" (Integral 1 0x8000000000000000) args) :
    ∃ n : UInt64, n ≤ 0x7fffffffffffffff ∧
      (if 0 < n then [("exArgs", Json.num (.ofUInt64 n))] else []) = args := by
  rcases h with rfl | ⟨_, rfl, h⟩
  · exact ⟨0, by decide, rfl⟩
  · obtain ⟨n, hpos, hlt, rfl⟩ := Json.integral_uint64.1 h
    exact ⟨n, Nat.le_of_lt_succ hlt, if_pos hpos⟩

theorem exists_divert {t : Json} (h : CanonicalDivert t) : ∃ d : Divert, d.Expressible ∧
    (∀ p, d.target.path? = some p → p.Spelled) ∧ Encoding.divert d = t := by
  cases h with
  | toStory hkey s hname =>
      obtain ⟨target, hspelled, hfields⟩ := exists_target s hname
      obtain ⟨d, hd, rfl, hexternal, rfl⟩ := exists_departing hkey target
      exact ⟨d, hd, hspelled, by simp [Encoding.divert, hfields, hexternal]⟩
  | toGame s hname hargs =>
      obtain ⟨target, hspelled, hfields⟩ := exists_target s hname
      obtain ⟨n, hn, rfl⟩ := exists_args hargs
      refine ⟨(Divert.ofTarget target).calling n, Divert.expressible_calling target hn, hspelled, ?_⟩
      simp [Encoding.divert, Divert.calling, Divert.ofTarget, departure, hfields,
        Record.Departure.key]

theorem trailer_fields (flags : CountFlags) (name : Option String) : ∃ marks names,
    Optional "#f" (Integral 1 0x100000000) marks ∧ Optional "#n" (∃ s, · = .str s) names ∧
      trailer flags name = marks ++ names := by
  refine ⟨_, _, ?_, ?_, rfl⟩
  · split
    next => exact .inl rfl
    next h =>
      have hpos : flags.bits.toNat ≠ 0 := by
        simpa [CountFlags.isEmpty, ← UInt32.toNat_inj] using h
      exact .inr ⟨_, rfl, Json.integral_uint32.2 ⟨flags.bits, Nat.one_le_iff_ne_zero.2 hpos, rfl⟩⟩
  · cases name with
    | none => exact .inl rfl
    | some name => exact .inr ⟨_, rfl, name, rfl⟩

theorem exists_trailer {marks names : Fields Json}
    (hmarks : Optional "#f" (Integral 1 0x100000000) marks)
    (hnames : Optional "#n" (∃ s, · = .str s) names) :
    ∃ flags name, trailer flags name = marks ++ names := by
  obtain ⟨name, hname⟩ : ∃ name : Option String, trailer ⟨0⟩ name = names := by
    rcases hnames with rfl | ⟨_, rfl, s, rfl⟩
    · exact ⟨none, rfl⟩
    · exact ⟨some s, rfl⟩
  rcases hmarks with rfl | ⟨_, rfl, hmarks⟩
  · exact ⟨⟨0⟩, name, hname⟩
  · obtain ⟨bits, hpos, rfl⟩ := Json.integral_uint32.1 hmarks
    have hbits : bits ≠ 0 := by
      rintro rfl
      exact absurd hpos (by decide)
    refine ⟨⟨bits⟩, name, ?_⟩
    rw [← hname]
    simp [trailer, CountFlags.isEmpty, hbits]

end Encoding

theorem Json.nameless_append_ending {items : List Json} {fields : Fields Json} :
    Nameless (.arr (items ++ [ending fields])) ↔ "#n" ∉ Fields.keys fields := by
  constructor
  · intro h hmem
    have hne : fields.isEmpty = false := by
      cases fields with
      | nil => simp [Fields.keys] at hmem
      | cons => rfl
    exact h items fields (by simp [ending, hne]) hmem
  · intro h items' fields' heq
    have hlast := (List.append_inj' (Json.arr.inj heq) rfl).2
    simp only [List.cons.injEq, and_true, ending] at hlast
    split at hlast
    next => cases hlast
    next => cases hlast; exact h

namespace Object

theorem canonical_value {v : Value} {t : Json} (h : Encoding.value v = .ok t) : t.Canonical := by
  cases v with
  | int n => cases h; exact .int n.toInt_lt
  | float x =>
      cases x with
      | finite x => cases h; exact .float x
      | infinite | nan => cases h
  | text s =>
      cases h
      rw [Encoding.text]
      split
      next hs => exact of_decide_eq_true hs ▸ .newline
      next hs => exact .text fun hnewline => hs (decide_eq_true hnewline)
  | target p => cases h; exact .target p.text
  | pointer p =>
      cases h
      obtain ⟨name, context⟩ := p
      apply Json.Canonical.pointer name
      cases context with
      | none => exact .inl rfl
      | some n => exact .inr ⟨_, rfl, Json.integral_int32.2 ⟨n, rfl⟩⟩

theorem canonical_assignment (a : VariableAssignment) : (Encoding.assignment a).Canonical := by
  obtain ⟨name, isGlobal, isNew⟩ := a
  have hkey : (if isGlobal then "VAR=" else "temp=") ∈ ["VAR=", "temp="] := by
    cases isGlobal <;> decide
  apply Json.Canonical.assignment hkey name
  cases isNew with
  | true => exact .inl rfl
  | false => exact .inr ⟨_, rfl, rfl⟩

theorem canonical_branch {b : Branch} (h : (branch b).Expressible) :
    (Encoding.branch b).Canonical := by
  obtain ⟨onTrue, onFalse⟩ := b
  have side (key : String) (s : Option Divert) (hs : ∀ d ∈ s, d.Expressible) :
      Optional key CanonicalDivert (Encoding.side key s) := by
    cases s with
    | none => exact .inl rfl
    | some d => exact .inr ⟨_, rfl, Encoding.canonicalDivert (hs d rfl)⟩
  have ht := side "t?" onTrue fun d hd => h.diverts d (by simp_all)
  have hf := side "f?" onFalse fun d hd => h.diverts d (by simp_all)
  apply Json.Canonical.branch ht hf
  have hreadable := h.readable
  cases onTrue <;> cases onFalse <;> simp_all [Encoding.side]

theorem canonical_of_leaf {o : Object} (leaf : o.container? = none) (h : o.Expressible) {t : Json}
    (ht : o.encode = .ok t) : t.Canonical := by
  cases o with
  | container c => simp [container?] at leaf
  | value v => exact canonical_value ht
  | glue g => cases ht; cases g <;> exact .word (by decide)
  | command c => cases ht; exact .command c
  | operator op => cases ht; exact .operator op
  | divert d => cases ht; exact .divert (Encoding.canonicalDivert (h.diverts d (by simp)))
  | choicePoint p =>
      cases ht
      exact .choicePoint p.path.text (Json.integral_uint32.2 ⟨p.flags.bits, Nat.zero_le _, rfl⟩)
  | reference r => cases ht; cases r <;> exact .reference (by decide) _
  | assignment a => cases ht; exact canonical_assignment a
  | branch b => cases ht; exact canonical_branch h
  | void => cases ht; exact .word (by decide)
  | choice c =>
      cases ht
      exact .choice c.text c.path (Json.integral_int64.2 ⟨c.index, rfl⟩)
        (Json.integral_int64.2 ⟨c.thread, rfl⟩)

theorem nameless_of_leaf {o : Object} (leaf : o.container? = none) {t : Json}
    (h : o.encode = .ok t) : t.Nameless := by
  have harr (items : List Json) : o.encode ≠ .ok (.arr items) := by
    intro harr
    cases o with
    | container c => simp [container?] at leaf
    | value v =>
        cases v with
        | float x => cases x <;> cases harr
        | text s =>
            simp only [encode, Encoding.value, Encoding.text, Except.ok.injEq] at harr
            split at harr <;> cases harr
        | _ => cases harr
    | reference r => cases r <;> cases harr
    | _ => cases harr
  rintro items fields rfl
  exact absurd h (harr _)

/-- The array of a container shows by its last element whether the container has a name. -/
theorem nameless_iff {o : Object} (readable : o.Readable) {t : Json} (h : o.encode = .ok t) :
    t.Nameless ↔ o.unnamed = o := by
  cases o with
  | container c =>
      obtain ⟨items, fields, -, -, hkeys, rfl⟩ :=
        (Container.encode_eq_ok_of_unreserved readable.1 readable.2).1 h
      have hn : "#n" ∉ Fields.keys fields := hkeys ▸ readable.2
      obtain ⟨name, flags, content, named⟩ := c
      have htrailer : "#n" ∉ Fields.keys (Encoding.trailer flags name) ↔ name = none := by
        cases name <;> simp [Encoding.trailer, Fields.keys]
      rw [Json.nameless_append_ending, Fields.keys, List.map_append, List.mem_append, not_or]
      rw [← Fields.keys, ← Fields.keys, htrailer]
      simp [hn, unnamed, eq_comm]
  | _ => exact iff_of_true (nameless_of_leaf rfl h) rfl

theorem canonical_of_encode {x : Object} (keyed : x.Everywhere Keyed) (wellFormed : x.WellFormed)
    {t : Json} (h : x.encode = .ok t) : t.Canonical := by
  induction x using children_induction generalizing t with
  | leaf o leaf => exact canonical_of_leaf leaf wellFormed.self h
  | container c content named =>
      obtain ⟨keyedSelf, keyedContent, keyedNamed⟩ := everywhere_container.1 keyed
      obtain ⟨⟨-, readable, -, -⟩, wellContent, wellNamed⟩ := everywhere_container.1 wellFormed
      obtain ⟨items, fields, hitems, hfields, hkeys, rfl⟩ :=
        (Container.encode_eq_ok_of_unreserved readable.1 readable.2).1 h
      obtain ⟨marks, names, hmarks, hnames, htrailer⟩ := Encoding.trailer_fields c.countFlags c.name
      have hitem : ∀ t ∈ items, t.Canonical := by
        intro t ht
        obtain ⟨o, ho, henc⟩ := exists_of_mem_mapM hitems ht
        exact content o ho (keyedContent o ho) (wellContent o ho) henc
      have hfield : ∀ field ∈ fields, field.2.Canonical ∧ field.2.Nameless := by
        intro field hmem
        obtain ⟨e, he, hentry⟩ := exists_of_mem_mapM hfields hmem
        have henc := (Encoding.entry_eq_ok.1 hentry).1
        have hwell := (wellNamed e he).unnamed Expressible.withName
        refine ⟨(named e he).2 ((keyedNamed e he).unnamed Keyed.withName) hwell henc, ?_⟩
        exact (nameless_iff hwell.self.readable henc).2 (unnamed_unnamed e.2)
      rw [htrailer, ← List.append_assoc]
      refine .array hitem (hkeys ▸ keyedSelf.1) ?_ (fun e he => (hfield e he).1)
        (fun e he => (hfield e he).2) hmarks hnames
      rintro key hkey hreserved
      rw [hkeys] at hkey
      simp only [List.mem_cons, List.not_mem_nil, or_false] at hreserved
      rcases hreserved with rfl | rfl
      · exact readable.1 hkey
      · exact readable.2 hkey

/-- An object that comes back as it is from the token that is written for it. -/
def Writes (x : Object) (t : Json) : Prop :=
  x.Everywhere Keyed ∧ x.WellFormed ∧ x.encode = .ok t

theorem writes_leaf {o : Object} (leaf : o.container? = none) (h : o.Expressible) {t : Json}
    (ht : o.encode = .ok t) : ∃ x : Object, x.Writes t :=
  ⟨o, (everywhere_leaf leaf).2 (keyed_leaf leaf), (everywhere_leaf leaf).2 h, ht⟩

theorem writes_branch {onTrue onFalse : Fields Json} (ht : Optional "t?" CanonicalDivert onTrue)
    (hf : Optional "f?" CanonicalDivert onFalse) (h : onTrue ++ onFalse ≠ []) :
    ∃ x : Object, x.Writes (.obj (onTrue ++ onFalse)) := by
  have side {key : String} {fields : Fields Json} (h : Optional key CanonicalDivert fields) :
      ∃ s : Option Divert, (∀ d ∈ s, d.Expressible ∧ ∀ p, d.target.path? = some p → p.Spelled) ∧
        Encoding.side key s = fields := by
    rcases h with rfl | ⟨t, rfl, ht⟩
    · exact ⟨none, by simp, rfl⟩
    · obtain ⟨d, hd, hspelled, rfl⟩ := Encoding.exists_divert ht
      exact ⟨some d, by simpa using ⟨hd, hspelled⟩, rfl⟩
  obtain ⟨t, htrue, rfl⟩ := side ht
  obtain ⟨f, hfalse, rfl⟩ := side hf
  have hsides : ∀ d ∈ (branch ⟨t, f⟩).diverts,
      d.Expressible ∧ ∀ p, d.target.path? = some p → p.Spelled := by
    intro d hd
    simp only [diverts, List.mem_append, Option.mem_toList] at hd
    exact hd.elim (htrue d) (hfalse d)
  refine writes_leaf (o := branch ⟨t, f⟩) rfl ⟨trivial, ?_, fun p hp => ?_, fun d hd => (hsides d hd).1⟩ rfl
  · cases t <;> cases f <;> simp_all [Encoding.side]
  · obtain ⟨d, hd, hpath⟩ := List.mem_filterMap.1 hp
    exact (hsides d hd).2 p hpath

theorem writes_array {items : List Json} {named flags name : Fields Json}
    (hitems : ∀ t ∈ items, ∃ x : Object, x.Writes t) (hkeys : (Fields.keys named).Nodup)
    (hreserved : ∀ key ∈ Fields.keys named, key ∉ ["#f", "#n"])
    (hnamed : ∀ e ∈ named, ∃ x : Object, x.Writes e.2) (hnameless : ∀ e ∈ named, e.2.Nameless)
    (hflags : Optional "#f" (Integral 1 0x100000000) flags)
    (hname : Optional "#n" (∃ s, · = .str s) name) :
    ∃ x : Object, x.Writes (.arr (items ++ [Json.ending (named ++ flags ++ name)])) := by
  obtain ⟨os, hos, hcontent⟩ := exists_mapM_eq_ok (P := fun o => o.Everywhere Keyed ∧ o.WellFormed)
    (f := encode) fun t ht => by
      obtain ⟨x, keyed, wellFormed, h⟩ := hitems t ht
      exact ⟨x, ⟨keyed, wellFormed⟩, h⟩
  -- Renaming a child changes nothing in its token, because the token has no name in it.
  obtain ⟨children, hchildren, hnamed⟩ := exists_mapM_eq_ok (f := Encoding.entry) (P := fun child =>
      child.2.Everywhere Keyed ∧ child.2.WellFormed ∧ child.2.renamed child.1 = child.2)
    fun e he => by
      obtain ⟨x, keyed, wellFormed, h⟩ := hnamed e he
      have hunnamed := (nameless_iff wellFormed.self.readable h).1 (hnameless e he)
      refine ⟨(e.1, x.renamed e.1), ⟨keyed.renamed Keyed.withName e.1,
        wellFormed.renamed Expressible.withName e.1, renamed_renamed x e.1⟩, ?_⟩
      exact Encoding.entry_eq_ok.2 ⟨by rw [unnamed_renamed, hunnamed, h], rfl⟩
  obtain ⟨countFlags, label, htrailer⟩ := Encoding.exists_trailer hflags hname
  have hsame := Encoding.keys_of_mapM_entry hchildren
  have hf : "#f" ∉ Fields.keys named := fun h => hreserved _ h (by simp)
  have hn : "#n" ∉ Fields.keys named := fun h => hreserved _ h (by simp)
  refine ⟨container ⟨label, countFlags, os, children⟩, ?_, ?_, ?_⟩
  · refine everywhere_container.2 ⟨⟨hsame ▸ hkeys, fun key child hmem => ?_⟩,
      fun o ho => (hcontent o ho).1, fun e he => (hnamed e he).1⟩
    have hrenamed := (hnamed _ hmem).2.2
    exact (congrArg Container.name (container.inj hrenamed)).symm
  · exact everywhere_container.2 ⟨expressible_container.2 ⟨hsame ▸ hf, hsame ▸ hn⟩,
      fun o ho => (hcontent o ho).2, fun e he => (hnamed e he).2.1⟩
  · apply (Container.encode_eq_ok_of_unreserved (hsame ▸ hf) (hsame ▸ hn)).2
    exact ⟨items, named, hos, hchildren, hsame, by rw [htrailer, List.append_assoc]⟩

theorem exists_writes {t : Json} (h : t.Canonical) : ∃ x : Object, x.Writes t := by
  induction h with
  | @int n lower upper h =>
      have hn := Int64.toInt_ofInt_of_le lower h
      apply writes_leaf (o := value (.int (Int64.ofInt n))) rfl (by simp [expressible_iff])
      simp only [encode, Encoding.value, Encoding.int64, Number.ofInt64, hn]
  | float x =>
      exact writes_leaf (o := value (.float (.finite x))) rfl
        (by simp [expressible_iff, Binary64.finite?]) rfl
  | newline => exact writes_leaf (o := value .newline) rfl (by simp [expressible_iff, Value.newline]) rfl
  | @text s h =>
      apply writes_leaf (o := value (.text s)) rfl (by simp [expressible_iff])
      simp [encode, Encoding.value, Encoding.text, isNewline, h]
  | word h =>
      simp only [List.mem_cons, List.not_mem_nil, or_false] at h
      rcases h with rfl | rfl | rfl | rfl
      · exact writes_leaf (o := glue .bidirectional) rfl (by simp [expressible_iff]) rfl
      · exact writes_leaf (o := glue .left) rfl (by simp [expressible_iff]) rfl
      · exact writes_leaf (o := glue .right) rfl (by simp [expressible_iff]) rfl
      · exact writes_leaf (o := void) rfl (by simp [expressible_iff]) rfl
  | command c => exact writes_leaf (o := command c) rfl (by simp [expressible_iff]) rfl
  | operator op => exact writes_leaf (o := operator op) rfl (by simp [expressible_iff]) rfl
  | target s =>
      apply writes_leaf (o := value (.target (.parse s))) rfl
      · simpa [expressible_iff] using Path.spelled_parse s
      · rw [encode, Encoding.value, Path.text_parse]
  | pointer s h =>
      have expressible (context : Option Int32) : (value (.pointer ⟨s, context⟩)).Expressible := by
        simp [expressible_iff]
      rcases h with rfl | ⟨_, rfl, h⟩
      · exact writes_leaf rfl (expressible none) rfl
      · obtain ⟨n, rfl⟩ := Json.integral_int32.1 h
        exact writes_leaf rfl (expressible (some n)) rfl
  | divert h =>
      obtain ⟨d, hd, hspelled, rfl⟩ := Encoding.exists_divert h
      exact writes_leaf (o := divert d) rfl (Record.expressible_divert hspelled hd) rfl
  | choicePoint s h =>
      obtain ⟨bits, -, rfl⟩ := Json.integral_uint32.1 h
      apply writes_leaf (o := choicePoint ⟨.parse s, ⟨bits⟩⟩) rfl
      · simpa [expressible_iff] using Path.spelled_parse s
      · rw [encode, Encoding.choicePoint, Path.text_parse]
  | reference hkey s =>
      simp only [List.mem_cons, List.not_mem_nil, or_false] at hkey
      rcases hkey with rfl | rfl
      · exact writes_leaf (o := reference (.named s)) rfl
          (by simp [expressible_iff, VariableReference.path?]) rfl
      · apply writes_leaf (o := reference (.readCount (.parse s))) rfl
        · simpa [expressible_iff, VariableReference.path?] using Path.spelled_parse s
        · rw [encode, Encoding.reference, Path.text_parse]
  | assignment hkey s h =>
      have expressible (a : VariableAssignment) : (assignment a).Expressible := by
        simp [expressible_iff]
      simp only [List.mem_cons, List.not_mem_nil, or_false] at hkey
      rcases hkey with rfl | rfl <;> rcases h with rfl | ⟨_, rfl, rfl⟩
      · exact writes_leaf rfl (expressible ⟨s, true, true⟩) rfl
      · exact writes_leaf rfl (expressible ⟨s, true, false⟩) rfl
      · exact writes_leaf rfl (expressible ⟨s, false, true⟩) rfl
      · exact writes_leaf rfl (expressible ⟨s, false, false⟩) rfl
  | branch ht hf h => exact writes_branch ht hf h
  | choice s path hi ht =>
      obtain ⟨index, rfl⟩ := Json.integral_int64.1 hi
      obtain ⟨thread, rfl⟩ := Json.integral_int64.1 ht
      exact writes_leaf (o := choice ⟨s, index, path, thread⟩) rfl (by simp [expressible_iff]) rfl
  | array _ hkeys hreserved _ hnameless hflags hname ihItems ihNamed =>
      exact writes_array ihItems hkeys hreserved ihNamed hnameless hflags hname

/-- The tokens that are given back when they are read and written again are those of the grammar. -/
theorem fixedPoint_iff_canonical (t : Json) :
    (∃ x, Object.decode t = .ok (some x) ∧ x.encode = .ok t) ↔ t.Canonical := by
  constructor
  · rintro ⟨x, hdecode, hencode⟩
    exact canonical_of_encode (decode_built hdecode).keyed (decode_wellFormed hdecode) hencode
  · intro h
    obtain ⟨x, keyed, wellFormed, hencode⟩ := exists_writes h
    have hdecode := decode_of_encode keyed (wellFormed.mono fun o ho => ho.readable) hencode
    rw [reread_eq_self wellFormed] at hdecode
    exact ⟨x, hdecode, hencode⟩

end Object

end StoryCodec
