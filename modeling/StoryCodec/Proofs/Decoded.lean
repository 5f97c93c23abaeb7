import StoryCodec.Proofs.Building
import StoryCodec.Proofs.DecodedLeaves

namespace StoryCodec

/-- Induction over the tree of a token. An array comes with the entries of the records in it too,
because its last element is not read as a token. -/
@[elab_as_elim]
theorem Json.token_induction {P : Json → Prop} (null : P .null) (bool : ∀ b, P (.bool b))
    (num : ∀ n, P (.num n)) (str : ∀ s, P (.str s))
    (arr : ∀ items, (∀ t ∈ items, P t) → (∀ fields, .obj fields ∈ items → ∀ e ∈ fields, P e.2) →
      P (.arr items))
    (obj : ∀ fields, (∀ e ∈ fields, P e.2) → P (.obj fields)) (t : Json) : P t := by
  suffices h : P t ∧ ∀ fields, t = .obj fields → ∀ e ∈ fields, P e.2 from h.1
  refine @Json.rec (fun t => P t ∧ ∀ fields, t = .obj fields → ∀ e ∈ fields, P e.2)
    (fun ts => ∀ t ∈ ts, P t ∧ ∀ fields, t = .obj fields → ∀ e ∈ fields, P e.2)
    (fun es => ∀ e ∈ es, P e.2) (fun e => P e.2)
    ⟨null, nofun⟩ (fun b => ⟨bool b, nofun⟩) (fun n => ⟨num n, nofun⟩) (fun s => ⟨str s, nofun⟩)
    ?_ ?_ (by simp) (fun _ _ ht hts => List.forall_mem_cons.2 ⟨ht, hts⟩)
    (by simp) (fun _ _ he hes => List.forall_mem_cons.2 ⟨he, hes⟩) (fun _ _ h => h.1) t
  · intro items h
    refine ⟨arr items (fun t ht => (h t ht).1) fun fields hf => ?_, nofun⟩
    exact (h _ hf).2 fields rfl
  · intro fields h
    refine ⟨obj fields h, ?_⟩
    rintro _ ⟨⟩
    exact h

namespace Object

theorem decode_obj_cases {fields : Fields Json} {o : Object}
    (h : Object.decode (.obj fields) = .ok (some o)) :
    Record.firstOf Record.marked fields = .ok (some o) ∨
      (∃ onTrue onFalse, Decoding.side "t?" fields = .ok onTrue ∧
        Decoding.side "f?" fields = .ok onFalse ∧
        o = .branch ⟨onTrue.bind divert?, onFalse.bind divert?⟩ ∧
        ((onTrue.bind divert?).isSome ∨ (onFalse.bind divert?).isSome)) ∨
      Record.choice fields = .ok (some o) := by
  have atToken {token : Json} {x : Except Reason (Option Object)} {a : Option Object}
      (h : Decoding.atToken token x = .ok a) : x = .ok a := by
    cases x <;> cases h
    rfl
  simp only [Object.decode, Decoding.record, bind_eq_ok] at h
  obtain ⟨first, hfirst, h⟩ := h
  have hmarked := atToken hfirst
  cases first with
  | some first => cases h; exact .inl hmarked
  | none =>
      simp only [bind_eq_ok] at h
      obtain ⟨onTrue, ht, onFalse, hf, h⟩ := h
      split at h
      next hsides =>
        cases h
        exact .inr (.inl ⟨onTrue, onFalse, ht, hf, rfl, by simpa using hsides⟩)
      next =>
        simp only [bind_eq_ok] at h
        obtain ⟨choice, hchoice, h⟩ := h
        cases choice with
        | none => cases h
        | some c => cases h; exact .inr (.inr (atToken hchoice))

theorem mem_of_side {key : String} {fields : Fields Json} {o : Object}
    (h : Decoding.side key fields = .ok (some o)) :
    ∃ e ∈ fields, Object.decode e.2 = .ok (some o) := by
  induction fields with
  | nil => cases h
  | cons field fields ih =>
      obtain ⟨k, token⟩ := field
      rw [Decoding.side] at h
      split at h
      · exact ⟨(k, token), List.mem_cons_self, h⟩
      · obtain ⟨e, he, hdecode⟩ := ih h
        exact ⟨e, List.mem_cons_of_mem _ he, hdecode⟩

theorem decode_num_expressible {n : Number} {o : Object}
    (h : Object.decode (.num n) = .ok (some o)) : o.container? = none ∧ o.Expressible := by
  rw [Object.decode, Decoding.number.eq_def] at h
  split at h
  · split at h <;> cases h
    exact ⟨rfl, by simp [expressible_iff]⟩
  · cases h
    exact ⟨rfl, by simp [expressible_iff, Binary64.finite?]⟩

theorem decode_str_expressible {s : String} {o : Object}
    (h : Object.decode (.str s) = .ok (some o)) : o.container? = none ∧ o.Expressible := by
  rw [Object.decode, Decoding.string] at h
  split at h
  next hobject =>
    cases h
    exact BareText.object?_expressible hobject
  next => cases h

/-- Only a marked record is read as a divert. -/
theorem decode_divert_expressible {t : Json} {d : Divert}
    (h : Object.decode t = .ok (some (divert d))) : (divert d).Expressible := by
  cases t with
  | null => cases h
  | bool b => cases h
  | num n => exact (decode_num_expressible h).2
  | str s => exact (decode_str_expressible h).2
  | arr items =>
      simp only [Object.decode, map_eq_ok, Option.some.injEq, reduceCtorEq, and_false, exists_false] at h
  | obj fields =>
      rcases decode_obj_cases h with h | ⟨_, _, _, _, h, _⟩ | h
      · exact (Record.firstOf_expressible h).2
      · cases h
      · exact (Record.choice_expressible h).2

theorem decode_obj_expressible {fields : Fields Json} {o : Object}
    (h : Object.decode (.obj fields) = .ok (some o)) : o.container? = none ∧ o.Expressible := by
  have hside (key : String) (side : Option Object) (hs : Decoding.side key fields = .ok side) :
      ∀ d ∈ side.bind divert?, (divert d).Expressible := by
    intro d hd
    obtain ⟨o, rfl, hdivert⟩ := Option.bind_eq_some_iff.1 hd
    obtain ⟨e, -, hdecode⟩ := mem_of_side hs
    cases o <;> cases hdivert
    exact decode_divert_expressible hdecode
  rcases decode_obj_cases h with h | ⟨onTrue, onFalse, ht, hf, rfl, hsome⟩ | h
  · exact Record.firstOf_expressible h
  · have hdiverts : ∀ d ∈ (onTrue.bind divert?).toList ++ (onFalse.bind divert?).toList,
        (divert d).Expressible := by
      intro d hd
      rcases List.mem_append.1 hd with hd | hd
      · exact hside "t?" onTrue ht d (Option.mem_toList.1 hd)
      · exact hside "f?" onFalse hf d (Option.mem_toList.1 hd)
    refine ⟨rfl, trivial, hsome, fun p hp => ?_, fun d hd => ?_⟩
    · obtain ⟨d, hd, hpath⟩ := List.mem_filterMap.1 hp
      exact (hdiverts d hd).paths p (by simp [hpath])
    · exact (hdiverts d hd).diverts d (by simp)
  · exact Record.choice_expressible h

end Object

def Mark.Holds (P : Object → Prop) : Mark → Prop
  | .child key o => key ≠ "#f" ∧ key ≠ "#n" ∧ P o
  | _ => True

namespace Decoding

variable {P Q : Object → Prop}

theorem holds_of_mark {key : String} {t : Json} {m : Mark}
    (h : mark key t (Object.decodeRequired t) = .ok m)
    (hP : ∀ o, Object.decode t = .ok (some o) → P o) : m.Holds P := by
  rw [mark] at h
  split at h
  next => split at h <;> cases h; trivial
  next hf =>
    split at h
    next => split at h <;> cases h; trivial
    next hn =>
      obtain ⟨o, ho, rfl⟩ := map_eq_ok.1 h
      exact ⟨hf, hn, hP o (Object.decodeRequired_eq_ok.1 ho)⟩

theorem holds_of_marks {fields : Fields Json} {ms : List Mark} (h : marks fields = .ok ms)
    (hP : ∀ e ∈ fields, ∀ o, Object.decode e.2 = .ok (some o) → P o) : ∀ m ∈ ms, m.Holds P := by
  induction fields generalizing ms with
  | nil => cases h; simp
  | cons field fields ih =>
      obtain ⟨key, t⟩ := field
      simp only [marks, bind_eq_ok, Except.ok.injEq] at h
      obtain ⟨m, hm, rest, hrest, rfl⟩ := h
      obtain ⟨hfirst, htail⟩ := List.forall_mem_cons.1 hP
      exact List.forall_mem_cons.2 ⟨holds_of_mark hm hfirst, ih hrest htail⟩

theorem parts_singleton {t : Json} (hnull : t ≠ .null) (hobj : ∀ fields, t ≠ .obj fields) :
    parts [t] = (Object.decodeRequired t).map fun o => ([o], []) := by
  cases t with
  | null => exact absurd rfl hnull
  | obj fields => exact absurd rfl (hobj fields)
  | _ =>
      change (Object.decodeRequired _ >>= _) = _
      cases Object.decodeRequired _ <;> rfl

theorem holds_of_parts_singleton {last : Json} {more : List Object} {ms : List Mark}
    (h : parts [last] = .ok (more, ms)) (hlast : ∀ o, Object.decode last = .ok (some o) → P o)
    (hfields : ∀ fields, last = .obj fields → ∀ e ∈ fields, ∀ o,
      Object.decode e.2 = .ok (some o) → Q o) : (∀ o ∈ more, P o) ∧ ∀ m ∈ ms, m.Holds Q := by
  by_cases hnull : last = .null
  · subst hnull
    cases h
    simp
  by_cases hobj : ∃ fields, last = .obj fields
  · obtain ⟨fields, rfl⟩ := hobj
    obtain ⟨ms', hms, heq⟩ := map_eq_ok.1 h
    cases heq
    exact ⟨by simp, holds_of_marks hms (hfields fields rfl)⟩
  · rw [parts_singleton hnull fun fields hf => hobj ⟨fields, hf⟩] at h
    obtain ⟨o, ho, heq⟩ := map_eq_ok.1 h
    cases heq
    exact ⟨by simpa using hlast o (Object.decodeRequired_eq_ok.1 ho), by simp⟩

theorem holds_of_parts {items : List Json} {content : List Object} {ms : List Mark}
    (h : parts items = .ok (content, ms))
    (hitems : ∀ t ∈ items, ∀ o, Object.decode t = .ok (some o) → P o)
    (hfields : ∀ fields, .obj fields ∈ items → ∀ e ∈ fields, ∀ o,
      Object.decode e.2 = .ok (some o) → Q o) : (∀ o ∈ content, P o) ∧ ∀ m ∈ ms, m.Holds Q := by
  rcases List.eq_nil_or_concat items with rfl | ⟨front, last, rfl⟩
  · cases h; simp
  · rw [List.concat_eq_append] at *
    rw [parts_append] at h
    simp only [bind_eq_ok, Except.ok.injEq] at h
    obtain ⟨os, hos, ⟨more, ms'⟩, hlast, heq⟩ := h
    cases heq
    have hmem : last ∈ front ++ [last] := by simp
    obtain ⟨hmore, hms⟩ := holds_of_parts_singleton hlast (hitems last hmem)
      (by rintro fields rfl; exact hfields fields hmem)
    refine ⟨fun o ho => ?_, hms⟩
    rcases List.mem_append.1 ho with ho | ho
    · obtain ⟨t, ht, hdecode⟩ := exists_of_mem_mapM hos ho
      exact hitems t (by simp [ht]) o (Object.decodeRequired_eq_ok.1 hdecode)
    · exact hmore o ho

end Decoding

namespace Object

/-- What holds of all leaves that are read, and is kept by every entry of a terminator, holds of every
object that is read. -/
theorem decode_induction {P : Object → Prop}
    (leaf : ∀ o, o.container? = none → o.Expressible → P o)
    (content : ∀ os, (∀ o ∈ os, P o) → P (.container (.ofContent os)))
    (mark : ∀ c (m : Mark), P (.container c) → m.Holds P → P (.container (c.mark m)))
    {t : Json} {o : Object} (h : Object.decode t = .ok (some o)) : P o := by
  induction t using Json.token_induction generalizing o with
  | null => cases h
  | bool b => cases h
  | num n => exact leaf o (decode_num_expressible h).1 (decode_num_expressible h).2
  | str s => exact leaf o (decode_str_expressible h).1 (decode_str_expressible h).2
  | obj fields _ => exact leaf o (decode_obj_expressible h).1 (decode_obj_expressible h).2
  | arr items ihItems ihFields =>
      rw [Object.decode] at h
      obtain ⟨⟨os, ms⟩, hparts, heq⟩ := map_eq_ok.1 h
      cases heq
      obtain ⟨hos, hms⟩ := Decoding.holds_of_parts hparts
        (fun t ht o ho => ihItems t ht ho) (fun fields hf e he o ho => ihFields fields hf e he ho)
      exact List.foldlRecOn ms Container.mark (motive := fun c => P (.container c)) (content os hos)
        fun c hc m hm => mark c m hc (hms m hm)

theorem decode_built {t : Json} {o : Object} (h : Object.decode t = .ok (some o)) : o.Built := by
  refine decode_induction (fun o leaf _ => .leaf leaf) (fun os hos => .setContent os .empty hos) ?_ h
  intro c m hc hm
  cases m with
  | flags flags => exact .setFlags flags hc
  | name name => exact .setName (some name) hc
  | child key o => exact .insertNamed key hc hm.2.2

theorem WellFormed.mark {c : Container} {m : Mark} (h : (container c).WellFormed)
    (hm : m.Holds WellFormed) : (container (c.mark m)).WellFormed := by
  obtain ⟨self, content, named⟩ := everywhere_container.1 h
  cases m with
  | flags flags =>
      exact everywhere_container.2 ⟨expressible_container.2 self.readable, content, named⟩
  | name name => exact h.withName Expressible.withName (some name)
  | child key o =>
      obtain ⟨hf, hn, ho⟩ := hm
      have hkeys : (container (c.insertNamed key o)).Readable := by
        obtain ⟨hf', hn'⟩ := self.readable
        simp only [Readable, Container.insertNamed, Fields.keys_insert]
        split
        · exact ⟨hf', hn'⟩
        · simp [hf', hn', hf.symm, hn.symm]
      refine everywhere_container.2 ⟨expressible_container.2 hkeys, content, fun e he => ?_⟩
      rcases Fields.mem_insert he with rfl | he
      · exact ho.renamed Expressible.withName key
      · exact named e he

/-- Nothing but well-formed objects can be read. -/
theorem decode_wellFormed {t : Json} {o : Object} (h : Object.decode t = .ok (some o)) :
    o.WellFormed := by
  refine decode_induction (fun o leaf ho => (everywhere_leaf leaf).2 ho) (fun os hos => ?_)
    (fun c m hc hm => WellFormed.mark hc hm) h
  have self : (container (.ofContent os)).Readable := by
    simp [Container.ofContent, Container.empty, Fields.keys]
  exact everywhere_container.2 ⟨expressible_container.2 self, hos,
    by simp [Container.ofContent, Container.empty]⟩

end Object

end StoryCodec
