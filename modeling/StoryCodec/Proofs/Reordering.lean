import StoryCodec.Proofs.Decoded
import StoryCodec.Proofs.Equality
import StoryCodec.Proofs.RoundTrip
import StoryCodec.Proofs.Terminators
import StoryCodec.Proofs.Tokens

namespace StoryCodec

open Json (Reordered)

theorem Json.Reordered.integer?_eq {t u : Json} (h : t.Reordered u) : t.integer? = u.integer? := by
  cases h <;> rfl

theorem Json.Reordered.string?_eq {t u : Json} (h : t.Reordered u) : t.string? = u.string? := by
  cases h <;> rfl

/-- Fields in which every key is looked up alike, up to the order of keys further down. -/
def Fields.SameLookups (fields others : Fields Json) : Prop :=
  ∀ key, Option.Rel Reordered (fields.get? key) (others.get? key)

theorem Fields.sameLookups_of_reordered {fields middle others : Fields Json}
    (nodup : fields.keys.Nodup) (order : fields.Perm middle)
    (h : List.Forall₂ (Fields.UnderKey Reordered) middle others) : fields.SameLookups others := by
  intro key
  rw [Fields.get?_eq_of_perm nodup order]
  exact Fields.get?_of_underKey h key

theorem Fields.SameLookups.none_or_some {fields others : Fields Json}
    (h : fields.SameLookups others) (key : String) :
    fields.get? key = none ∧ others.get? key = none ∨
      ∃ t u, fields.get? key = some t ∧ others.get? key = some u ∧ t.Reordered u := by
  have hkey := h key
  generalize fields.get? key = found at hkey
  generalize others.get? key = found' at hkey
  cases hkey with
  | none => exact .inl ⟨rfl, rfl⟩
  | some htu => exact .inr ⟨_, _, rfl, rfl, htu⟩

namespace Record

variable {fields others : Fields Json}

theorem has_eq (h : fields.SameLookups others) (key : String) :
    fields.has key = others.has key := by
  rcases h.none_or_some key with ⟨hf, ho⟩ | ⟨t, u, hf, ho, -⟩ <;> simp [Fields.has, hf, ho]

theorem string?_eq (h : fields.SameLookups others) (key : String) :
    string? fields key = string? others key := by
  rcases h.none_or_some key with ⟨hf, ho⟩ | ⟨t, u, hf, ho, htu⟩
  · rw [string?, string?, hf, ho]
  · rw [string?, string?, hf, ho]
    cases htu <;> rfl

theorem integer?_eq (h : fields.SameLookups others) (key : String) :
    integer? fields key = integer? others key := by
  rcases h.none_or_some key with ⟨hf, ho⟩ | ⟨t, u, hf, ho, htu⟩
  · rw [integer?, integer?, hf, ho]
  · simp only [integer?, hf, ho, htu.integer?_eq]

theorem narrowed?_eq {α : Type} {narrow : Int → Option α} {fault : Reason}
    (h : fields.SameLookups others) (key : String) :
    narrowed? narrow fault fields key = narrowed? narrow fault others key := by
  rw [narrowed?, narrowed?, integer?_eq h]

theorem divert_eq (h : fields.SameLookups others) :
    Record.divert fields = Record.divert others := by
  simp only [Record.divert, has_eq h, string?_eq h, narrowed?_eq h]

/-- No shape looks at more of a record than what its keys look up. -/
theorem firstOf_marked_eq (h : fields.SameLookups others) :
    firstOf marked fields = firstOf marked others := by
  simp only [marked, firstOf, targetValue, pointerValue, divert_eq h, Record.choicePoint,
    Record.reference, Record.assignment, has_eq h, string?_eq h, narrowed?_eq h]

theorem choice_eq (h : fields.SameLookups others) :
    Record.choice fields = Record.choice others := by
  rcases h.none_or_some "originalChoicePath" with ⟨hf, ho⟩ | ⟨t, u, hf, ho, htu⟩
  · rw [Record.choice, Record.choice, hf, ho]
  · rw [Record.choice, Record.choice, hf, ho]
    cases htu <;> simp only [string?_eq h, integer?_eq h]

end Record

namespace Object

theorem divert?_eq_of_eqv {o p : Object} (h : o.eqv p) : o.divert? = p.divert? := by
  cases o <;> cases p <;> simp_all [eqv, divert?]

theorem eqv_renamed {o p : Object} (h : o.eqv p) (key : String) :
    (o.renamed key).eqv (p.renamed key) := by
  cases o with
  | container c =>
      cases p with
      | container d => exact eqv_withName h (some key)
      | _ => simp [eqv] at h
  | _ => cases p <;> simp_all [eqv, renamed]

theorem eqv_self_of_leaf {o : Object} (h : o.container? = none ∧ o.Expressible) : o.eqv o :=
  eqv_self ((everywhere_leaf h.1).2 (keyed_leaf h.1)) ((everywhere_leaf h.1).2 h.2.finite)

end Object

namespace Mark

inductive Alike : Mark → Mark → Prop
  | flags (bits : CountFlags) : Alike (.flags bits) (.flags bits)
  | name (text : String) : Alike (.name text) (.name text)
  | child (key : String) {o p : Object} (h : o.eqv p) : Alike (.child key o) (.child key p)

/-- Marks under different keys, and the same ones in another order, up to equality of children. -/
def Reordered (ms ns : List Mark) : Prop :=
  (ms.map key).Nodup ∧ ∃ middle, ms.Perm middle ∧ List.Forall₂ Alike middle ns

variable {ms ns : List Mark}

theorem reordered_nil : Reordered [] [] := ⟨.nil, [], .nil, .nil⟩

theorem length_filterMap_le_one {β : Type} {f : Mark → Option β} {k : String}
    (hf : ∀ m b, f m = some b → m.key = k) (h : (ms.map key).Nodup) :
    (ms.filterMap f).length ≤ 1 := by
  induction ms with
  | nil => simp
  | cons m ms ih =>
      obtain ⟨hm, hms⟩ := List.nodup_cons.1 h
      cases hfm : f m with
      | none =>
          rw [List.filterMap_cons_none hfm]
          exact ih hms
      | some b =>
          have hrest : ms.filterMap f = [] := by
            rw [List.filterMap_eq_nil_iff]
            intro n hn
            by_contra hsome
            obtain ⟨c, hc⟩ := Option.ne_none_iff_exists'.1 hsome
            exact hm (List.mem_map.2 ⟨n, hn, (hf n c hc).trans (hf m b hfm).symm⟩)
          rw [List.filterMap_cons_some hfm, hrest]
          simp

/-- What only one key can say does not depend on the order of marks. -/
theorem Reordered.filterMap_eq {β : Type} {f : Mark → Option β} {k : String}
    (hf : ∀ m b, f m = some b → m.key = k) (hAlike : ∀ m n, Alike m n → f m = f n)
    (h : Reordered ms ns) : ms.filterMap f = ns.filterMap f := by
  obtain ⟨nodup, middle, order, halike⟩ := h
  have hmiddle : ms.filterMap f = middle.filterMap f := by
    have hperm := order.filterMap f
    have hlength := length_filterMap_le_one hf nodup
    generalize ms.filterMap f = found at hperm hlength
    match found with
    | [] => exact hperm.nil_eq
    | [b] => exact List.singleton_perm.1 hperm
    | _ :: _ :: _ => simp at hlength
  rw [hmiddle]
  clear order hmiddle
  induction halike with
  | nil => rfl
  | cons hmn _ ih => rw [List.filterMap_cons, List.filterMap_cons, hAlike _ _ hmn, ih]

theorem keys_children_sublist (ms : List Mark) :
    (Fields.keys (ms.filterMap child?)).Sublist (ms.map key) := by
  induction ms with
  | nil => exact .slnil
  | cons m ms ih =>
      cases m with
      | child key o => exact ih.cons_cons key
      | _ => exact ih.cons _

theorem children_alike {middle : List Mark} (h : List.Forall₂ Alike middle ns) :
    List.Forall₂ (Fields.UnderKey fun o p : Object => o.eqv p) (middle.filterMap child?)
      (ns.filterMap child?) := by
  induction h with
  | nil => exact .nil
  | cons hmn _ ih =>
      cases hmn with
      | child key hop => exact .cons (.mk key hop) ih
      | _ => exact ih

end Mark

def Decoding.PartsAlike (p q : List Object × List Mark) : Prop :=
  List.Forall₂ (fun o p => o.eqv p) p.1 q.1 ∧ Mark.Reordered p.2 q.2

/-- The order of the entries of its record shows in a container only as that of its children. -/
theorem Container.eqv_ofParts {p q : List Object × List Mark} (h : Decoding.PartsAlike p q) :
    (Object.container (.ofParts p)).eqv (.container (.ofParts q)) := by
  obtain ⟨os, ms⟩ := p
  obtain ⟨ps, ns⟩ := q
  obtain ⟨hcontent, hmarks⟩ := h
  dsimp only at hcontent hmarks
  have hnames : ms.filterMap Mark.name? = ns.filterMap Mark.name? :=
    hmarks.filterMap_eq (k := "#n") (fun m b h => by cases m <;> simp_all [Mark.name?, Mark.key])
      fun m n h => by cases h <;> rfl
  have hflags : ms.filterMap Mark.flags? = ns.filterMap Mark.flags? :=
    hmarks.filterMap_eq (k := "#f") (fun m b h => by cases m <;> simp_all [Mark.flags?, Mark.key])
      fun m n h => by cases h <;> rfl
  obtain ⟨nodup, middle, order, halike⟩ := hmarks
  have hperm := order.filterMap Mark.child?
  have hchildren := Mark.children_alike halike
  have hkeys : (Fields.keys (ms.filterMap Mark.child?)).Nodup :=
    (Mark.keys_children_sublist ms).nodup nodup
  have hkeys' : (Fields.keys (ns.filterMap Mark.child?)).Nodup := by
    rw [← Fields.keys_of_underKey hchildren]
    exact (List.Perm.map Prod.fst hperm).nodup_iff.1 hkeys
  rw [Container.ofParts_eq hkeys, Container.ofParts_eq hkeys']
  refine Object.eqv_container.2 ⟨by rw [hnames], by rw [hflags], hcontent, ?_, ?_⟩
  · simp [hperm.length_eq, hchildren.length_eq]
  · intro e he
    obtain ⟨e, hmem, rfl⟩ := List.mem_map.1 he
    obtain ⟨f, hf, hef⟩ := Fields.exists_of_mem_underKey hchildren (hperm.mem_iff.1 hmem)
    obtain ⟨key, heqv⟩ := hef
    have hget := Fields.get?_of_mem (by rwa [keys_map_slot]) (List.mem_map_of_mem (f := slot) hf)
    exact ⟨_, hget, Object.eqv_renamed heqv key⟩

namespace Object

open Decoding

def DecodesAlike (t : Json) : Prop :=
  ∀ u, t.Reordered u → Agree (Option.Rel fun o p : Object => o.eqv p) (decode t) (decode u)

theorem agree_required {t u : Json} {x y : Except Malformed (Option Object)}
    (h : Agree (Option.Rel fun o p : Object => o.eqv p) x y) :
    Agree (fun o p : Object => o.eqv p) (required t x) (required u y) := by
  cases h with
  | ok h =>
      cases h with
      | some h => exact .ok h
      | none => exact .error _ _
  | error e f => exact .error e f

end Object

namespace Decoding

open Object (DecodesAlike agree_required)

def entry (e : String × Json) : Except Malformed Mark :=
  mark e.1 e.2 (Object.decodeRequired e.2)

theorem marks_eq_mapM (fields : Fields Json) : marks fields = fields.mapM entry := by
  induction fields with
  | nil => rfl
  | cons e fields ih =>
      rw [List.mapM_cons, ← ih]
      rfl

theorem key_of_entry {e : String × Json} {m : Mark} (h : entry e = .ok m) : m.key = e.1 := by
  rw [entry, mark] at h
  split at h
  next hf => split at h <;> cases h; exact hf.symm
  next =>
    split at h
    next hn => split at h <;> cases h; exact hn.symm
    next =>
      obtain ⟨o, -, rfl⟩ := map_eq_ok.1 h
      rfl

theorem keys_of_marks {fields : Fields Json} {ms : List Mark} (h : fields.mapM entry = .ok ms) :
    ms.map Mark.key = fields.keys := by
  induction fields generalizing ms with
  | nil =>
      rw [mapM_nil_eq_ok.1 h]
      rfl
  | cons e fields ih =>
      obtain ⟨m, rest, hm, hrest, rfl⟩ := mapM_cons_eq_ok.1 h
      rw [List.map_cons, key_of_entry hm, ih hrest]
      rfl

theorem agree_entry {e f : String × Json} (h : Fields.UnderKey Json.Reordered e f)
    (ih : DecodesAlike e.2) : Agree Mark.Alike (entry e) (entry f) := by
  obtain ⟨key, h⟩ := h
  simp only [entry, mark, h.integer?_eq, h.string?_eq]
  split
  · split
    · exact .ok (.flags _)
    · exact .error _ _
  · split
    · split
      · exact .ok (.name _)
      · exact .error _ _
    · exact (agree_required (ih _ h)).map fun o p hop => .child key hop

/-- The record at the end of an array is read entry by entry, and by then its order is only that of
the marks. -/
theorem agree_marks {fields middle others : Fields Json} (nodup : fields.keys.Nodup)
    (order : fields.Perm middle) (h : List.Forall₂ (Fields.UnderKey Json.Reordered) middle others)
    (ih : ∀ e ∈ fields, DecodesAlike e.2) :
    Agree Mark.Reordered (marks fields) (marks others) := by
  rw [marks_eq_mapM, marks_eq_mapM]
  have hmiddle : List.Forall₂ (fun e f => Agree Mark.Alike (entry e) (entry f)) middle others := by
    have hih : ∀ e ∈ middle, DecodesAlike e.2 := fun e he => ih e (order.mem_iff.2 he)
    exact ((List.forall₂_and_left _ _).2 ⟨hih, h⟩).imp fun e f h => agree_entry h.2 h.1
  refine ((agree_mapM_perm order).comp (agree_mapM hmiddle)).mono fun ms ns hms h => ⟨?_, h⟩
  rwa [keys_of_marks hms]

end Decoding

namespace Decoding

open Object (DecodesAlike agree_required)

theorem agree_last {t u : Json} (h : t.Reordered u) (distinct : t.Distinct) (ih : DecodesAlike t)
    (ihFields : ∀ fields, t = .obj fields → ∀ e ∈ fields, DecodesAlike e.2) :
    Agree PartsAlike (parts [t]) (parts [u]) := by
  have hcontent : (∀ fields, t ≠ .obj fields) → t ≠ .null → (∀ fields, u ≠ .obj fields) →
      u ≠ .null → Agree PartsAlike (parts [t]) (parts [u]) := by
    intro hobj hnull hobj' hnull'
    rw [parts_singleton hnull hobj, parts_singleton hnull' hobj']
    exact (agree_required (ih u h)).map fun o p hop => ⟨.cons hop .nil, Mark.reordered_nil⟩
  cases h with
  | null => exact .ok ⟨.nil, Mark.reordered_nil⟩
  | obj order h =>
      exact (agree_marks distinct.nodup order h (ihFields _ rfl)).map
        fun ms ns hmarks => ⟨.nil, hmarks⟩
  | _ => exact hcontent nofun nofun nofun nofun

theorem agree_parts {items others : List Json} (h : List.Forall₂ Json.Reordered items others)
    (distinct : ∀ t ∈ items, t.Distinct) (ih : ∀ t ∈ items, DecodesAlike t)
    (ihFields : ∀ fields, .obj fields ∈ items → ∀ e ∈ fields, DecodesAlike e.2) :
    Agree PartsAlike (parts items) (parts others) := by
  induction h with
  | nil => exact .ok ⟨.nil, Mark.reordered_nil⟩
  | @cons t u items others hfirst hrest ihRest =>
      have htail := ihRest (fun t ht => distinct t (.tail _ ht)) (fun t ht => ih t (.tail _ ht))
        fun fields hf => ihFields fields (.tail _ hf)
      have hhead : DecodesAlike t := ih t List.mem_cons_self
      cases hrest with
      | nil =>
          exact agree_last hfirst (distinct t List.mem_cons_self) hhead
            fun fields hf => ihFields fields (hf ▸ List.mem_cons_self)
      | cons hnext hrest =>
          rw [parts_cons_cons, parts_cons_cons]
          refine (agree_required (hhead u hfirst)).bind fun o p hop => htail.bind ?_
          rintro ⟨os, ms⟩ ⟨ps, ns⟩ ⟨hcontent, hmarks⟩
          exact .ok ⟨.cons hop hcontent, hmarks⟩

theorem side_eq (key : String) (fields : Fields Json) : side key fields =
    match fields.get? key with
    | none => .ok none
    | some t => Object.decode t := by
  induction fields with
  | nil => rfl
  | cons field fields ih =>
      obtain ⟨k, t⟩ := field
      rw [side, Fields.get?]
      split
      · rfl
      · exact ih

theorem agree_side {fields others : Fields Json} (h : fields.SameLookups others)
    (ih : ∀ e ∈ fields, DecodesAlike e.2) (key : String) :
    Agree (Option.Rel fun o p : Object => o.eqv p) (side key fields) (side key others) := by
  rw [side_eq, side_eq]
  rcases h.none_or_some key with ⟨hf, ho⟩ | ⟨t, u, hf, ho, htu⟩
  · rw [hf, ho]
    exact .ok .none
  · rw [hf, ho]
    exact ih _ (Fields.mem_of_get? hf) u htu

theorem bind_divert?_eq {x y : Option Object} (h : Option.Rel (fun o p : Object => o.eqv p) x y) :
    x.bind Object.divert? = y.bind Object.divert? := by
  cases h with
  | some h => exact Object.divert?_eq_of_eqv h
  | none => rfl

theorem agree_record {fields others : Fields Json} (h : fields.SameLookups others)
    (ih : ∀ e ∈ fields, DecodesAlike e.2) :
    Agree (Option.Rel fun o p : Object => o.eqv p) (Object.decode (.obj fields))
      (Object.decode (.obj others)) := by
  rw [Object.decode, Object.decode, record, record, Record.firstOf_marked_eq h]
  cases hmarked : Record.firstOf Record.marked others with
  | error reason => exact .error _ _
  | ok first =>
      cases first with
      | some o => exact .ok (.some (Object.eqv_self_of_leaf (Record.firstOf_expressible hmarked)))
      | none =>
          refine (agree_side h ih "t?").bind fun t t' ht =>
            (agree_side h ih "f?").bind fun f f' hf => ?_
          rw [bind_divert?_eq ht, bind_divert?_eq hf, Record.choice_eq h]
          dsimp only
          split
          · exact .ok (.some (by simp [Object.eqv]))
          · cases hchoice : Record.choice others with
            | error reason => exact .error _ _
            | ok choice =>
                cases choice with
                | some o =>
                    exact .ok (.some (Object.eqv_self_of_leaf (Record.choice_expressible hchoice)))
                | none => exact .error _ _

end Decoding

namespace Object

theorem agree_self {t : Json}
    (h : ∀ o, decode t = .ok (some o) → o.container? = none ∧ o.Expressible) :
    Agree (Option.Rel fun o p : Object => o.eqv p) (decode t) (decode t) := by
  cases hdecode : decode t with
  | error fault => exact .error fault fault
  | ok o =>
      cases o with
      | none => exact .ok .none
      | some o => exact .ok (.some (eqv_self_of_leaf (h o hdecode)))

theorem decodesAlike {t : Json} (distinct : t.Distinct) : DecodesAlike t := by
  intro u h
  induction t using Json.token_induction generalizing u with
  | null => cases h; exact .ok .none
  | bool b => cases h; exact .error _ _
  | num n => cases h; exact agree_self fun o => decode_num_expressible
  | str s => cases h; exact agree_self fun o => decode_str_expressible
  | obj fields ih =>
      cases h with
      | obj order h =>
          refine Decoding.agree_record (Fields.sameLookups_of_reordered distinct.nodup order h) ?_
          exact fun e he => ih e he (distinct.field he)
  | arr items ihItems ihFields =>
      cases h with
      | arr h =>
          rw [Object.decode, Object.decode]
          have hparts := Decoding.agree_parts h (fun t ht => distinct.item ht)
            (fun t ht => ihItems t ht (distinct.item ht))
            fun fields hf e he => ihFields fields hf e he ((distinct.item hf).field he)
          exact hparts.map fun p q hpq => .some (Container.eqv_ofParts hpq)

end Object

theorem Container.agree_decode {items others : List Json} (distinct : (Json.arr items).Distinct)
    (h : List.Forall₂ Json.Reordered items others) :
    Agree (fun c d : Container => c.eqv d) (Container.decode items) (Container.decode others) := by
  have hparts := Decoding.agree_parts h (fun t ht => distinct.item ht)
    (fun t ht => Object.decodesAlike (distinct.item ht))
    fun fields hf e he => Object.decodesAlike ((distinct.item hf).field he)
  exact hparts.map fun p q hpq => Container.eqv_ofParts hpq

theorem Story.agree_decode {t u : Json} (distinct : t.Distinct) (h : t.Reordered u) :
    Agree (fun s r : Story => s.version = r.version ∧ s.root.eqv r.root) (Story.decode t)
      (Story.decode u) := by
  cases h with
  | arr h => exact (Container.agree_decode distinct h).bind fun c d hcd => .ok ⟨rfl, hcd⟩
  | @obj fields middle others order h =>
      have hlookups := Fields.sameLookups_of_reordered distinct.nodup order h
      rw [Story.decode, Story.decode]
      rcases hlookups.none_or_some "root" with ⟨hf, ho⟩ | ⟨root, root', hf, ho, hroot⟩
      · rw [hf, ho]
        exact .error _ _
      · rw [hf, ho]
        cases hroot with
        | arr hroot =>
            have hcontainers :=
              Container.agree_decode (distinct.field (Fields.mem_of_get? hf)) hroot
            simp only [version?, Record.integer?_eq hlookups]
            cases Record.integer? others "inkVersion" with
            | error reason => exact .error _ _
            | ok version => exact hcontainers.bind fun c d hcd => .ok ⟨rfl, hcd⟩
        | _ => exact .error _ _
  | _ => exact .error _ _

/-- The order in which the keys of records are written makes no difference, at any depth. -/
theorem decode_reordered {t u : Json} (distinct : t.Distinct) (h : t.Reordered u) :
    Agree (Option.Rel fun o p : Object => o.eqv p) (Object.decode t) (Object.decode u) ∧
      (∀ items others, t = .arr items → u = .arr others →
        Agree (fun c d : Container => c.eqv d) (Container.decode items) (Container.decode others)) ∧
      Agree (fun s r : Story => s.version = r.version ∧ s.root.eqv r.root) (Story.decode t)
        (Story.decode u) := by
  refine ⟨Object.decodesAlike distinct u h, ?_, Story.agree_decode distinct h⟩
  rintro items others rfl rfl
  cases h with
  | arr h => exact Container.agree_decode distinct h

theorem decode_reordered_side :
    let side := Json.obj [("->", .str "a"), ("var", .bool true)]
    let side' := Json.obj [("var", .bool true), ("->", .str "a")]
    let t := Json.arr
      [.obj [("t?", side), ("f?", .null)], .obj [("knot", .arr []), ("#n", .str "b")]]
    let u := Json.arr
      [.obj [("f?", .null), ("t?", side')], .obj [("#n", .str "b"), ("knot", .arr [])]]
    t.Distinct ∧ t.Reordered u ∧ ∃ o p, Object.decode t = .ok (some o) ∧
      Object.decode u = .ok (some p) ∧ o.eqv p := by
  intro side side' t u
  have scalar {t : Json} (harr : ∀ items, t ≠ .arr items) (hobj : ∀ fields, t ≠ .obj fields) :
      t.Distinct := Json.distinct_of_scalar harr hobj
  have hside : side.Distinct := by
    refine Json.distinct_obj (by decide) ?_
    simp [scalar]
  have distinct : t.Distinct := by
    refine Json.distinct_arr ?_
    simp only [List.forall_mem_cons, List.not_mem_nil, false_imp_iff, implies_true, and_true]
    refine ⟨Json.distinct_obj (by decide) ?_, Json.distinct_obj (by decide) ?_⟩
    · simp [scalar, hside]
    · simp [scalar, Json.distinct_arr]
  have swapped : side.Reordered side' :=
    .obj (.swap _ _ _) (.cons (.mk _ (.bool true)) (.cons (.mk _ (.str "a")) .nil))
  have h : t.Reordered u := by
    refine .arr (.cons (.obj (.swap _ _ _) ?_) (.cons (.obj (.swap _ _ _) ?_) .nil))
    · exact .cons (.mk _ .null) (.cons (.mk _ swapped) .nil)
    · exact .cons (.mk _ (.str "b")) (.cons (.mk _ (.arr .nil)) .nil)
  obtain ⟨hdecode, -, -⟩ := decode_reordered distinct h
  refine ⟨distinct, h, _, _, rfl, rfl, ?_⟩
  cases hdecode with
  | ok h => cases h with | some h => exact h

end StoryCodec
