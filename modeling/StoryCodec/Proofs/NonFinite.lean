import StoryCodec.Proofs.Arrays
import StoryCodec.Proofs.Positions

namespace StoryCodec

namespace Object

/-- A float that no JSON number stands for, at its address. -/
def NonFiniteAt (o : Object) (address : List Nat) (x : Binary64) : Prop :=
  o.at? address = some (.value (.float x)) ∧ x.finite? = none

/-- Of all such floats, the one that comes first as the object is written: what stands in a child comes
after what stands in the children before it, and content comes before named children. -/
def FirstNonFinite (o : Object) (x : Binary64) : Prop :=
  ∃ address, o.NonFiniteAt address x ∧ ∀ earlier < address, ∀ y, ¬o.NonFiniteAt earlier y

/-- The fault of an object by itself. -/
def nonFinite? : Object → Option NonFinite
  | .value (.float x) => if x.finite?.isNone then some ⟨x⟩ else none
  | _ => none

def nonFinites (o : Object) : List NonFinite := o.visited.filterMap nonFinite?

theorem nonFiniteAt_iff {o : Object} {address : List Nat} {x : Binary64} :
    o.NonFiniteAt address x ↔ (o.at? address).bind nonFinite? = some ⟨x⟩ := by
  rw [NonFiniteAt, Option.bind_eq_some_iff]
  constructor
  · rintro ⟨hat, hx⟩
    exact ⟨_, hat, by simp [nonFinite?, hx]⟩
  · rintro ⟨child, hat, hchild⟩
    rw [nonFinite?.eq_def] at hchild
    split at hchild
    next y =>
      obtain ⟨hy, ⟨⟩⟩ := Option.ite_none_right_eq_some.1 hchild
      exact ⟨hat, Option.isNone_iff_eq_none.1 hy⟩
    next => cases hchild

theorem head?_nonFinites_eq_some_iff (o : Object) (x : Binary64) :
    o.nonFinites.head? = some ⟨x⟩ ↔ o.FirstNonFinite x := by
  have hvisits : o.nonFinites.head? = o.visits.findSome? fun visit => visit.2.nonFinite? := by
    rw [nonFinites, visited, List.filterMap_map, List.head?_filterMap]
    rfl
  rw [hvisits, (traversal_visits o).findSome?_eq_some_iff, FirstNonFinite]
  simp only [nonFiniteAt_iff]
  apply exists_congr
  intro address
  apply and_congr_right
  intro _
  apply forall₂_congr
  intro earlier _
  constructor
  · rintro h y
    simp [h]
  · intro h
    rw [Option.eq_none_iff_forall_ne_some]
    exact fun fault => h fault.number

theorem head?_nonFinites_leaf {o : Object} (h : o.container? = none) :
    o.nonFinites.head? = o.nonFinite? := by
  rw [nonFinites, visited, visits_leaf h]
  cases hfault : o.nonFinite? <;> simp [hfault]

theorem nonFinites_container (c : Container) :
    (container c).nonFinites = c.children.flatMap nonFinites := by
  rw [nonFinites, visited_container, List.filterMap_cons_none rfl, List.filterMap_flatMap]
  rfl

theorem fault?_encode_leaf {o : Object} (h : o.container? = none) :
    fault? o.encode = o.nonFinite? := by
  cases o with
  | container c => simp [container?] at h
  | value v =>
      cases v with
      | float x => cases x <;> rfl
      | _ => rfl
  | _ => rfl

/-- Nothing but the children of a container can be at fault, and its name has no part in it. -/
theorem fault?_encode_container (c : Container) : fault? (container c).encode =
    (fault? (c.content.mapM Object.encode)).or (fault? (c.named.mapM Encoding.entry)) := by
  rw [Container.encode_eq]
  cases c.content.mapM Object.encode with
  | error fault => rfl
  | ok items => cases c.named.mapM Encoding.entry <;> rfl

theorem fault?_encode_unnamed (o : Object) : fault? o.unnamed.encode = fault? o.encode := by
  cases o with
  | container c => rw [unnamed, fault?_encode_container, fault?_encode_container]
  | _ => rfl

theorem fault?_entry (e : String × Object) : fault? (Encoding.entry e) = fault? e.2.encode := by
  rw [Encoding.entry, fault?_map, fault?_encode_unnamed]

/-- What is reported of an object is the first fault in it. -/
theorem fault?_encode (o : Object) : fault? o.encode = o.nonFinites.head? := by
  induction o using tree_induction with
  | leaf o h =>
      rw [fault?_encode_leaf h, head?_nonFinites_leaf h]
  | container c content named =>
      have hcontent : fault? (c.content.mapM Object.encode) =
          c.content.findSome? fun o => o.nonFinites.head? := fault?_mapM content
      have hnamed : fault? (c.named.mapM Encoding.entry) =
          c.named.findSome? fun e => e.2.nonFinites.head? :=
        fault?_mapM fun e he => (fault?_entry e).trans (named e he)
      calc fault? (container c).encode
          = (c.content.findSome? fun o => o.nonFinites.head?).or
              (c.named.findSome? fun e => e.2.nonFinites.head?) := by
            rw [fault?_encode_container, hcontent, hnamed]
        _ = c.children.findSome? fun o => o.nonFinites.head? := by
            rw [Container.children, List.findSome?_append, List.findSome?_map]
            rfl
        _ = (container c).nonFinites.head? := by rw [nonFinites_container, List.head?_flatMap]

theorem encode_eq_error_iff {o : Object} {x : Binary64} :
    o.encode = .error ⟨x⟩ ↔ o.FirstNonFinite x := by
  rw [← fault?_eq_some_iff, fault?_encode, head?_nonFinites_eq_some_iff]

theorem exists_encode_eq_error_iff {o : Object} :
    (∃ fault, o.encode = .error fault) ↔ ∃ address x, o.NonFiniteAt address x := by
  constructor
  · rintro ⟨fault, hfault⟩
    obtain ⟨address, hfirst, -⟩ := encode_eq_error_iff.1 hfault
    exact ⟨address, fault.number, hfirst⟩
  · rintro ⟨address, x, hx⟩
    obtain ⟨child, hat, hchild⟩ := Option.bind_eq_some_iff.1 (nonFiniteAt_iff.1 hx)
    have hvisit := ((traversal_visits o).complete address child).2 hat
    have hmem : ⟨x⟩ ∈ o.nonFinites :=
      List.mem_filterMap.2 ⟨child, List.mem_map.2 ⟨_, hvisit, rfl⟩, hchild⟩
    have hfault := fault?_encode o
    rw [List.head?_eq_some_head (List.ne_nil_of_mem hmem)] at hfault
    exact ⟨_, fault?_eq_some_iff.1 hfault⟩

theorem exists_encode_eq_ok_iff {o : Object} :
    (∃ t, o.encode = .ok t) ↔ ∀ address x, ¬o.NonFiniteAt address x := by
  rw [exists_eq_ok_iff, exists_encode_eq_error_iff]
  simp only [not_exists]

end Object

open Object in
theorem encodeList_eq_error_iff {os : List Object} {x : Binary64} :
    encodeList os = .error ⟨x⟩ ↔ ∃ before o after, os = before ++ o :: after ∧
      (∀ p ∈ before, ∀ address y, ¬p.NonFiniteAt address y) ∧ o.FirstNonFinite x := by
  simp only [encodeList, map_eq_error, mapM_eq_error_iff, exists_encode_eq_ok_iff,
    encode_eq_error_iff]

open Object in
theorem encodeMap_eq_error_iff {objects : Fields Object} {x : Binary64} :
    encodeMap objects = .error ⟨x⟩ ↔ ∃ before e after, objects = before ++ e :: after ∧
      (∀ f ∈ before, ∀ address y, ¬f.2.NonFiniteAt address y) ∧ e.2.FirstNonFinite x := by
  have hok (e : String × Object) : (∃ field, e.2.encode.map (fun token => (e.1, token)) = .ok field) ↔
      ∀ address y, ¬e.2.NonFiniteAt address y := by
    rw [← exists_encode_eq_ok_iff]
    cases e.2.encode <;> simp [Except.map]
  simp only [encodeMap, map_eq_error, mapM_eq_error_iff, hok, encode_eq_error_iff]

/-- An object cannot be written exactly if a float in it is no number, and the first of these is what
is reported. A list or a map of objects reports what the first of them reports that has one. -/
theorem encode_reports_first :
    (∀ o : Object, ((∃ fault, o.encode = .error fault) ↔ ∃ address x, o.NonFiniteAt address x) ∧
      ∀ x, o.encode = .error ⟨x⟩ ↔ o.FirstNonFinite x) ∧
    (∀ os x, encodeList os = .error ⟨x⟩ ↔ ∃ before o after, os = before ++ o :: after ∧
      (∀ p ∈ before, ∀ address y, ¬p.NonFiniteAt address y) ∧ o.FirstNonFinite x) ∧
    ∀ (objects : Fields Object) x, encodeMap objects = .error ⟨x⟩ ↔
      ∃ before e after, objects = before ++ e :: after ∧
        (∀ f ∈ before, ∀ address y, ¬f.2.NonFiniteAt address y) ∧ e.2.FirstNonFinite x := by
  refine ⟨fun o => ⟨Object.exists_encode_eq_error_iff, ?_⟩, ?_, ?_⟩
  · exact fun x => Object.encode_eq_error_iff
  · exact fun os x => encodeList_eq_error_iff
  · exact fun objects x => encodeMap_eq_error_iff

/-- A child is reported though the name of its container takes its place in the record. -/
example :
    let knot := Container.empty.insertNamed "#n" (.value (.float .nan))
    (Object.container { knot with name := some "knot" }).encode = .error ⟨.nan⟩ :=
  rfl

end StoryCodec
