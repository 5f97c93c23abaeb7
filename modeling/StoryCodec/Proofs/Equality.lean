import StoryCodec.Proofs.Building
import StoryCodec.Proofs.WellFormed
import StoryCodec.Story.Equality
import Mathlib.Data.List.Forall2
import Mathlib.Data.List.Perm.Subperm

namespace StoryCodec

theorem Binary64.finite?_isSome_of_eqv {x y : Binary64} (h : x.eqv y) (hx : x.finite?.isSome) :
    y.finite?.isSome := by
  cases x <;> cases y <;> simp_all [Binary64.eqv, Binary64.finite?]

/-- A NaN is the one number that is not equal to itself. -/
theorem Binary64.eqv_self_iff {x : Binary64} : x.eqv x ↔ x ≠ .nan := by
  cases x <;> simp [Binary64.eqv, FiniteBinary64.eqv]

namespace Object

theorem eqvList_iff {os ps : List Object} :
    eqvList os ps ↔ List.Forall₂ (fun o p => o.eqv p) os ps := by
  induction os generalizing ps with
  | nil => cases ps <;> simp [eqvList]
  | cons o os ih => cases ps <;> simp [eqvList, ih]

theorem eqvNamed_iff {named others : Fields Object} : eqvNamed named others ↔
    ∀ e ∈ named, ∃ p, others.get? e.1 = some p ∧ e.2.eqv p := by
  induction named with
  | nil => simp [eqvNamed]
  | cons e named ih =>
      rw [eqvNamed, Bool.and_eq_true, ih, List.forall_mem_cons]
      cases others.get? e.1 <;> simp

theorem eqv_container {c d : Container} : (container c).eqv (container d) ↔
    c.name = d.name ∧ c.countFlags = d.countFlags ∧
      List.Forall₂ (fun o p => o.eqv p) c.content d.content ∧ c.named.length = d.named.length ∧
      ∀ e ∈ c.named, ∃ p, Fields.get? e.1 d.named = some p ∧ e.2.eqv p := by
  cases c
  simp [eqv, Container.eqv, eqvList_iff, eqvNamed_iff, and_assoc]

/-- Equal containers stay equal when they are given one name. -/
theorem eqv_withName {c d : Container} (h : (container c).eqv (container d)) (name : Option String) :
    (container { c with name }).eqv (container { d with name }) := by
  obtain ⟨-, hflags, hcontent, hlength, hnamed⟩ := eqv_container.1 h
  exact eqv_container.2 ⟨rfl, hflags, hcontent, hlength, hnamed⟩

/-- Leaves are equal only if they are the same, floats apart. -/
theorem eq_or_float_of_eqv {o p : Object} (leaf : o.container? = none) (h : o.eqv p) :
    p = o ∨ ∃ x y, o = value (.float x) ∧ p = value (.float y) ∧ x.eqv y := by
  cases o with
  | container c => simp [container?] at leaf
  | value v =>
      cases p <;> simp only [eqv, Bool.false_eq_true] at h
      cases v with
      | float x =>
          rename_i w
          cases w <;> simp_all [Value.eqv]
      | _ => simp_all [Value.eqv]
  | _ => cases p <;> simp_all [eqv]

theorem exists_of_mem_content {c d : Container} (h : (container c).eqv (container d)) {q : Object}
    (hq : q ∈ d.content) : ∃ o ∈ c.content, o.eqv q := by
  obtain ⟨-, -, hcontent, -⟩ := eqv_container.1 h
  obtain ⟨i, hi, rfl⟩ := List.mem_iff_getElem.1 hq
  have hi' : i < c.content.length := hcontent.length_eq ▸ hi
  exact ⟨c.content[i], List.getElem_mem hi', hcontent.get hi' hi⟩

theorem perm_keys_of_eqv {c d : Container} (hc : (container c).Keyed)
    (h : (container c).eqv (container d)) : (Fields.keys c.named).Perm (Fields.keys d.named) := by
  obtain ⟨-, -, -, hlength, hnamed⟩ := eqv_container.1 h
  have hsubset : Fields.keys c.named ⊆ Fields.keys d.named := by
    intro key hkey
    obtain ⟨e, he, rfl⟩ := List.mem_map.1 hkey
    obtain ⟨p, hp, -⟩ := hnamed e he
    exact List.mem_map.2 ⟨(e.1, p), Fields.mem_of_get? hp, rfl⟩
  exact (List.subperm_of_subset hc.1 hsubset).perm_of_length_le (by simp [Fields.keys, hlength])

theorem exists_of_mem_named {c d : Container} (hc : (container c).Keyed) (hd : (container d).Keyed)
    (h : (container c).eqv (container d)) {e : String × Object} (he : e ∈ d.named) :
    ∃ o, (e.1, o) ∈ c.named ∧ o.eqv e.2 := by
  have hkey := (perm_keys_of_eqv hc h).mem_iff.2 (Fields.mem_keys he)
  obtain ⟨⟨key, o⟩, ho, rfl⟩ := List.mem_map.1 hkey
  obtain ⟨p, hp, heqv⟩ := (eqv_container.1 h).2.2.2.2 _ ho
  have hsame : some p = some e.2 := hp.symm.trans (Fields.get?_of_mem hd.1 he)
  exact ⟨o, ho, Option.some.inj hsame ▸ heqv⟩

/-- Equality does not see more than the order of keys and the sign of zero, and neither matters to
whether an object can be written. -/
theorem wellFormed_of_eqv {o p : Object} (ho : o.Everywhere Keyed) (hp : p.Everywhere Keyed)
    (h : o.eqv p) (hwell : o.WellFormed) : p.WellFormed := by
  induction o using tree_induction generalizing p with
  | leaf o leaf =>
      rcases eq_or_float_of_eqv leaf h with rfl | ⟨x, y, rfl, rfl, hxy⟩
      · exact hwell
      · have hy := Binary64.finite?_isSome_of_eqv hxy hwell.self.finite
        exact (everywhere_leaf rfl).2 (by simpa [expressible_iff] using hy)
  | container c content named =>
      cases p with
      | container d =>
          obtain ⟨keyed, keyedContent, keyedNamed⟩ := everywhere_container.1 ho
          obtain ⟨keyed', keyedContent', keyedNamed'⟩ := everywhere_container.1 hp
          obtain ⟨self, wellContent, wellNamed⟩ := everywhere_container.1 hwell
          -- Equality orders the keys as it likes but drops none, so neither side holds a reserved one.
          have hperm := perm_keys_of_eqv keyed h
          have hself : (container d).Readable := by
            simpa [hperm.mem_iff] using self.readable
          refine everywhere_container.2 ⟨expressible_container.2 hself, fun q hq => ?_, fun e he => ?_⟩
          · obtain ⟨o, hmem, heqv⟩ := exists_of_mem_content h hq
            exact content o hmem (keyedContent o hmem) (keyedContent' q hq) heqv (wellContent o hmem)
          · obtain ⟨o, hmem, heqv⟩ := exists_of_mem_named keyed keyed' h he
            exact named _ hmem (keyedNamed _ hmem) (keyedNamed' e he) heqv (wellNamed _ hmem)
      | _ => simp [eqv] at h

theorem eqv_self_iff {o : Object} (keyed : o.Everywhere Keyed) :
    o.eqv o ↔ o.Everywhere (· ≠ value (.float .nan)) := by
  induction o using tree_induction with
  | leaf o leaf =>
      rw [everywhere_leaf leaf]
      cases o with
      | container c => simp [container?] at leaf
      | value v =>
          cases v with
          | float x => simpa [eqv, Value.eqv] using Binary64.eqv_self_iff
          | _ => simp [eqv, Value.eqv]
      | _ => simp [eqv]
  | container c content named =>
      obtain ⟨self, keyedContent, keyedNamed⟩ := everywhere_container.1 keyed
      rw [eqv_container, everywhere_container]
      constructor
      · rintro ⟨-, -, hcontent, -, hnamed⟩
        refine ⟨by simp, fun o ho => ?_, fun e he => ?_⟩
        · exact (content o ho (keyedContent o ho)).1 (List.forall₂_same.1 hcontent o ho)
        · obtain ⟨p, hp, heqv⟩ := hnamed e he
          have hsame : some p = some e.2 := hp.symm.trans (Fields.get?_of_mem self.1 he)
          exact (named e he (keyedNamed e he)).1 (Option.some.inj hsame ▸ heqv)
      · rintro ⟨-, hcontent, hnamed⟩
        refine ⟨rfl, rfl, List.forall₂_same.2 fun o ho => ?_, rfl, fun e he => ⟨e.2, ?_, ?_⟩⟩
        · exact (content o ho (keyedContent o ho)).2 (hcontent o ho)
        · exact Fields.get?_of_mem self.1 he
        · exact (named e he (keyedNamed e he)).2 (hnamed e he)

theorem eqv_self {o : Object} (keyed : o.Everywhere Keyed) (finite : o.Everywhere Finite) :
    o.eqv o := by
  refine (eqv_self_iff keyed).2 (finite.mono ?_)
  rintro o ho rfl
  simp [Binary64.finite?] at ho

end Object

end StoryCodec
