import StoryCodec.Proofs.Building
import StoryCodec.Proofs.Decoded
import StoryCodec.Proofs.Equality
import StoryCodec.Proofs.Leaves
import StoryCodec.Proofs.Terminators
import StoryCodec.Wire.Document

namespace StoryCodec

namespace Object

theorem encode_leaf_ok {o : Object} (leaf : o.container? = none) (h : o.Finite) :
    ∃ t, o.encode = .ok t := by
  cases o with
  | container c => simp [container?] at leaf
  | value v =>
      cases v with
      | float x =>
          cases x with
          | finite x => exact ⟨_, rfl⟩
          | infinite | nan => simp [Binary64.finite?] at h
      | _ => exact ⟨_, rfl⟩
  | _ => exact ⟨_, rfl⟩

theorem encode_ok {x : Object} (h : x.Everywhere Finite) : ∃ t, x.encode = .ok t := by
  induction x using children_induction with
  | leaf o leaf => exact encode_leaf_ok leaf h.self
  | container c content named =>
      obtain ⟨-, hcontent, hnamed⟩ := everywhere_container.1 h
      obtain ⟨items, hitems⟩ := mapM_ok_of_forall fun o ho => content o ho (hcontent o ho)
      obtain ⟨fields, hfields⟩ : ∃ fields, c.named.mapM Encoding.entry = .ok fields := by
        apply mapM_ok_of_forall
        intro e he
        obtain ⟨t, ht⟩ := (named e he).2 ((hnamed e he).unnamed Finite.withName)
        exact ⟨(e.1, t), Encoding.entry_eq_ok.2 ⟨ht, rfl⟩⟩
      exact ⟨_, Container.encode_eq_ok.2 ⟨items, fields, hitems, hfields, rfl⟩⟩

/-- What was written is read again, up to what no token says. -/
theorem decode_of_encode {x : Object} (keyed : x.Everywhere Keyed) (readable : x.Everywhere Readable)
    {t : Json} (h : x.encode = .ok t) : Object.decode t = .ok (some x.reread) := by
  induction x using children_induction generalizing t with
  | leaf o leaf => exact decode_leaf leaf readable.self h
  | container c content named =>
      obtain ⟨keyedSelf, keyedContent, keyedNamed⟩ := everywhere_container.1 keyed
      obtain ⟨readableSelf, readableContent, readableNamed⟩ := everywhere_container.1 readable
      obtain ⟨items, fields, hitems, hfields, hkeys, rfl⟩ :=
        (Container.encode_eq_ok_of_unreserved readableSelf.1 readableSelf.2).1 h
      have hlist : decodeList items = .ok (c.content.map reread) := by
        apply mapM_mapM_of_forall hitems
        intro o ho t ht
        apply decodeRequired_eq_ok.2
        exact content o ho (keyedContent o ho) (readableContent o ho) ht
      -- A named container is written without its name, and the induction covers that form.
      have hmap : decodeMap fields = .ok (c.named.map fun e => (e.1, e.2.unnamed.reread)) := by
        apply mapM_mapM_of_forall hfields
        intro e he field hfield
        obtain ⟨ht, hkey⟩ := Encoding.entry_eq_ok.1 hfield
        have hchild := (named e he).2 ((keyedNamed e he).unnamed Keyed.withName)
          ((readableNamed e he).unnamed Readable.withName) ht
        rw [decodeRequired_eq_ok.2 hchild, hkey]
        rfl
      -- The key gives the name back, and it is the one that was left out.
      have hslots : (c.named.map fun e => (e.1, e.2.unnamed.reread)).map Container.slot =
          c.named.map fun e => (e.1, e.2.reread) := by
        rw [List.map_map]
        apply List.map_congr_left
        intro e he
        simp only [Function.comp_apply, Container.slot, renamed_reread_unnamed,
          keyedSelf.renamed_eq he]
      have hnodup : (Fields.keys fields).Nodup := hkeys ▸ keyedSelf.1
      have hf : "#f" ∉ Fields.keys fields := hkeys ▸ readableSelf.1
      have hn : "#n" ∉ Fields.keys fields := hkeys ▸ readableSelf.2
      rw [decode_arr, Container.decode_append_ending items hnodup hf hn, hlist, hmap,
        reread_container, ← hslots]
      rfl

theorem WellFormed.encode_decode {x : Object} (keyed : x.Everywhere Keyed) (h : x.WellFormed) :
    ∃ t, x.encode = .ok t ∧ Object.decode t = .ok (some x) := by
  obtain ⟨t, ht⟩ := encode_ok (h.mono fun o ho => ho.finite)
  have hdecode := decode_of_encode keyed (h.mono fun o ho => ho.readable) ht
  rw [reread_eq_self h] at hdecode
  exact ⟨t, ht, hdecode⟩

/-- The objects that come back as they were are the well-formed ones, and their named children come
back in the same order. -/
theorem roundTrip_iff_wellFormed {x : Object} (built : x.Built) :
    ((∃ t y, x.encode = .ok t ∧ Object.decode t = .ok (some y) ∧ y.eqv x) ↔ x.WellFormed) ∧
      (x.WellFormed → ∃ t, x.encode = .ok t ∧ Object.decode t = .ok (some x)) := by
  have keyed := built.keyed
  refine ⟨⟨?_, fun h => ?_⟩, fun h => h.encode_decode keyed⟩
  · rintro ⟨t, y, -, hdecode, heqv⟩
    exact wellFormed_of_eqv (decode_built hdecode).keyed keyed heqv (decode_wellFormed hdecode)
  · obtain ⟨t, ht, hdecode⟩ := h.encode_decode keyed
    exact ⟨t, x, ht, hdecode, eqv_self keyed (h.mono fun o ho => ho.finite)⟩

theorem roundTrip_namedChild :
    let knot := Container.empty.push (.branch ⟨none, some ((Divert.toVariable "x").pushing .tunnel)⟩)
    let x := Object.container (Container.empty.insertNamed "knot" (.container knot))
    x.Built ∧ x.WellFormed ∧ ∃ t, x.encode = .ok t ∧ Object.decode t = .ok (some x) := by
  intro knot x
  have built : x.Built := .insertNamed "knot" .empty (.push .empty (.leaf rfl))
  have wellFormed : x.WellFormed := by
    have hdivert : ((Divert.toVariable "x").pushing .tunnel).Expressible :=
      Divert.expressible_pushing (.variableNamed "x") .tunnel
    have hbranch : (branch ⟨none, some ((Divert.toVariable "x").pushing .tunnel)⟩).Expressible := by
      refine expressible_iff.2 ⟨trivial, .inr rfl, ?_, by simpa using hdivert⟩
      simp [Divert.toVariable, Divert.ofTarget, Divert.pushing, Target.path?]
    have hleaf := (everywhere_leaf (P := Expressible) rfl).2 hbranch
    simp [x, knot, WellFormed, everywhere_container, expressible_container, Container.insertNamed,
      Container.push, Container.empty, Fields.insert, Fields.keys, renamed, hleaf]
  exact ⟨built, wellFormed, (roundTrip_iff_wellFormed built).2 wellFormed⟩

theorem encode_of_decode {t : Json} {x : Object} (h : Object.decode t = .ok (some x)) :
    ∃ u, x.encode = .ok u ∧ Object.decode u = .ok (some x) :=
  (decode_wellFormed h).encode_decode (decode_built h).keyed

end Object

theorem Container.encode_of_decode {items : List Json} {c : Container}
    (h : Container.decode items = .ok c) :
    ∃ us, c.encode = .ok (.arr us) ∧ Container.decode us = .ok c := by
  have hobject : Object.decode (.arr items) = .ok (some (.container c)) := by
    rw [Object.decode_arr, h]
    rfl
  obtain ⟨u, hu, hdecode⟩ := Object.encode_of_decode hobject
  obtain ⟨us, fields, -, -, rfl⟩ := Container.encode_eq_ok.1 hu
  rw [Object.decode_arr] at hdecode
  obtain ⟨d, hd, heq⟩ := map_eq_ok.1 hdecode
  cases heq
  exact ⟨_, by rwa [Container.encode, ← Object.encode], hd⟩

namespace Story

theorem decode_record {items : List Json} {root : Container} (h : Container.decode items = .ok root)
    (version : Option Int64) :
    Story.decode (.obj ((match version with
      | some version => [("inkVersion", Encoding.int64 version)]
      | none => []) ++ [("root", .arr items)])) = .ok ⟨version, root⟩ := by
  have hversion (v : Int64) : (Encoding.int64 v).integer? = some v := Json.integer?_ofInt64 v
  cases version <;>
    simp [Story.decode, Fields.get?, version?, Record.integer?, Decoding.atToken, h, hversion, bind,
      Except.bind]

theorem root_of_decode {t : Json} {story : Story} (h : Story.decode t = .ok story) :
    ∃ items, Container.decode items = .ok story.root := by
  cases t with
  | arr items =>
      obtain ⟨root, hroot, heq⟩ := bind_eq_ok.1 h
      cases heq
      exact ⟨items, hroot⟩
  | obj fields =>
      rw [Story.decode] at h
      split at h
      next items _ =>
        obtain ⟨version, -, h⟩ := bind_eq_ok.1 h
        obtain ⟨root, hroot, heq⟩ := bind_eq_ok.1 h
        cases heq
        exact ⟨items, hroot⟩
      next => cases h
  | _ => cases h

theorem encode_of_decode {t : Json} {story : Story} (h : Story.decode t = .ok story) :
    ∃ u, story.encode = .ok u ∧ Story.decode u = .ok story := by
  obtain ⟨items, hroot⟩ := root_of_decode h
  obtain ⟨us, hus, hdecode⟩ := Container.encode_of_decode hroot
  refine ⟨_, ?_, decode_record hdecode story.version⟩
  rw [Story.encode, hus]
  rfl

end Story

/-- Many tokens stand for the same object, array or story; the one that is written is a normal form. -/
theorem encode_normalizes :
    (∀ t x, Object.decode t = .ok (some x) → ∃ u, x.encode = .ok u ∧
      Object.decode u = .ok (some x) ∧ ∀ y, Object.decode u = .ok (some y) → y.encode = .ok u) ∧
    (∀ items c, Container.decode items = .ok c → ∃ us, c.encode = .ok (.arr us) ∧
      Container.decode us = .ok c ∧ ∀ d, Container.decode us = .ok d → d.encode = .ok (.arr us)) ∧
    ∀ t story, Story.decode t = .ok story → ∃ u, story.encode = .ok u ∧
      Story.decode u = .ok story ∧ ∀ other, Story.decode u = .ok other → other.encode = .ok u := by
  refine ⟨fun t x h => ?_, fun items c h => ?_, fun t story h => ?_⟩
  · obtain ⟨u, hu, hdecode⟩ := Object.encode_of_decode h
    refine ⟨u, hu, hdecode, fun y hy => ?_⟩
    rw [hdecode] at hy
    cases hy
    exact hu
  · obtain ⟨us, hus, hdecode⟩ := Container.encode_of_decode h
    refine ⟨us, hus, hdecode, fun d hd => ?_⟩
    rw [hdecode] at hd
    cases hd
    exact hus
  · obtain ⟨u, hu, hdecode⟩ := Story.encode_of_decode h
    refine ⟨u, hu, hdecode, fun other hother => ?_⟩
    rw [hdecode] at hother
    cases hother
    exact hu

theorem encode_normalizes_array :
    let c := Container.ofContent [.value (.int 7), .value (.text "")]
    let items : List Json := [.str "007", .str "^", .obj [("#f", .str " 0 ")]]
    Container.decode items = .ok c ∧ ∃ us, c.encode = .ok (.arr us) ∧ Container.decode us = .ok c ∧
      ∀ d, Container.decode us = .ok d → d.encode = .ok (.arr us) := by
  intro c items
  have h : Container.decode items = .ok c := rfl
  exact ⟨h, encode_normalizes.2.1 items c h⟩

end StoryCodec
