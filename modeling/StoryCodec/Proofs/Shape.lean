import StoryCodec.Proofs.RoundTrip

namespace StoryCodec.Object

/-- Objects of one kind, and containers of one build at every depth. -/
inductive SameShape : Object → Object → Prop
  | leaf {o p : Object} (ho : o.container? = none) (hp : p.container? = none)
      (hkind : o.kind = p.kind) (htype : o.value?.map Value.typeName = p.value?.map Value.typeName) :
      SameShape o p
  | container {c d : Container} (hname : c.name = d.name) (hflags : c.countFlags = d.countFlags)
      (hlength : c.content.length = d.content.length)
      (hcontent : ∀ (i : Nat) o p, c.content[i]? = some o → d.content[i]? = some p → SameShape o p)
      (hkeys : Fields.keys c.named = Fields.keys d.named)
      (hnamed : ∀ key o p, c.getNamed? key = some o → d.getNamed? key = some p → SameShape o p) :
      SameShape (.container c) (.container d)

theorem typeName_reread (v : Value) : v.reread.typeName = v.typeName := by
  cases v <;> rfl

theorem sameShape_reread_leaf {o : Object} (leaf : o.container? = none) : o.SameShape o.reread := by
  cases o with
  | container c => simp [container?] at leaf
  | value v => exact .leaf rfl rfl rfl (congrArg some (typeName_reread v).symm)
  | _ => exact .leaf rfl rfl rfl rfl

theorem sameShape_reread (x : Object) : x.SameShape x.reread := by
  induction x using tree_induction with
  | leaf o leaf => exact sameShape_reread_leaf leaf
  | container c content named =>
      rw [reread_container]
      refine .container rfl rfl (by simp) (fun i o p ho hp => ?_) (by simp [Fields.keys])
        fun key o p ho hp => ?_
      · simp only [List.getElem?_map, ho, Option.map_some, Option.some.injEq] at hp
        exact hp ▸ content o (List.mem_of_getElem? ho)
      · have hget : Fields.get? key (c.named.map fun e => (e.1, e.2.reread)) = some o.reread := by
          rw [Container.getNamed?] at ho
          rw [Fields.get?_map, ho, Option.map_some]
        have hsame : some p = some o.reread := hp.symm.trans hget
        exact Option.some.inj hsame ▸ named _ (Fields.mem_of_get? ho)

/-- Whatever was built is read again in its shape if it was written, unless a branch in it has no side
or a child stands under a key that terminators use themselves. -/
theorem decode_keeps_shape {x : Object} (built : x.Built) {t : Json} (h : x.encode = .ok t) :
    (∀ fault, Object.decode t = .error fault → ∃ o : Object, o.Within x ∧ ¬o.Readable) ∧
      (x.Everywhere Readable → ∃ y, Object.decode t = .ok (some y) ∧ x.SameShape y) := by
  have hshape (readable : x.Everywhere Readable) :
      ∃ y, Object.decode t = .ok (some y) ∧ x.SameShape y :=
    ⟨x.reread, decode_of_encode built.keyed readable h, sameShape_reread x⟩
  refine ⟨fun fault hfault => ?_, hshape⟩
  by_contra hnone
  obtain ⟨y, hy, -⟩ := hshape fun o ho => by_contra fun hr => hnone ⟨o, ho, hr⟩
  rw [hfault] at hy
  cases hy

theorem decode_keeps_shape_staleFrame :
    let x := Object.container (Container.empty.push (.divert ⟨.path .root, false, .tunnel, false, 7⟩))
    x.Built ∧ x.Everywhere Readable ∧
      ∃ t y, x.encode = .ok t ∧ Object.decode t = .ok (some y) ∧ x.SameShape y := by
  intro x
  have built : x.Built := .push .empty (.leaf rfl)
  have hleaf {d : Divert} : (divert d).Everywhere Readable := (everywhere_leaf rfl).2 trivial
  have readable : x.Everywhere Readable := by
    simp [x, everywhere_container, hleaf, Container.push, Container.empty, Fields.keys]
  obtain ⟨y, hy, hshape⟩ := (decode_keeps_shape built rfl).2 readable
  exact ⟨built, readable, _, y, rfl, hy, hshape⟩

end StoryCodec.Object
