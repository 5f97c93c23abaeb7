import StoryCodec.Proofs.Arrays
import StoryCodec.Proofs.Decoded
import StoryCodec.Proofs.Equality
import StoryCodec.Proofs.Tokens
import Mathlib.Data.List.Nodup

namespace StoryCodec

theorem FiniteBinary64.eqv_iff {x y : FiniteBinary64} :
    x.eqv y ↔ x.magnitude = y.magnitude ∧ (x.negative = y.negative ∨ x.magnitude = 0) := by
  simp [eqv]

theorem Binary64.eqv_symm {x y : Binary64} (h : x.eqv y) : y.eqv x := by
  cases x <;> cases y <;> simp only [eqv, Bool.false_eq_true] at h
  · obtain ⟨hmagnitude, hsign⟩ := FiniteBinary64.eqv_iff.1 h
    exact FiniteBinary64.eqv_iff.2 ⟨hmagnitude.symm, hsign.imp Eq.symm (hmagnitude ▸ ·)⟩
  · exact beq_iff_eq.2 (beq_iff_eq.1 h).symm

theorem Binary64.eqv_trans {x y z : Binary64} (h : x.eqv y) (h' : y.eqv z) : x.eqv z := by
  cases x <;> cases y <;> simp only [eqv, Bool.false_eq_true] at h <;> cases z <;>
    simp only [eqv, Bool.false_eq_true] at h'
  · rw [FiniteBinary64.eqv_iff] at h h'
    exact FiniteBinary64.eqv_iff.2 (by grind)
  · exact beq_iff_eq.2 ((beq_iff_eq.1 h).trans (beq_iff_eq.1 h'))

/-- Equality of numbers of one kind, in which the two zeros are one. -/
def Number.eqv : Number → Number → Bool
  | .int n _ _, .int m _ _ => n = m
  | .float x, .float y => x.eqv y
  | _, _ => false

/-- Equality of tokens as values: neither the order of the keys of records matters, at any depth, nor
the sign of a zero. -/
inductive Json.Alike : Json → Json → Prop
  | null : Alike .null .null
  | bool (b : Bool) : Alike (.bool b) (.bool b)
  | num {m n : Number} (h : m.eqv n) : Alike (.num m) (.num n)
  | str (s : String) : Alike (.str s) (.str s)
  | arr {items others : List Json} (h : List.Forall₂ Alike items others) :
      Alike (.arr items) (.arr others)
  | obj {fields middle others : Fields Json}
      (h : List.Forall₂ (Fields.UnderKey Alike) fields middle) (order : middle.Perm others) :
      Alike (.obj fields) (.obj others)

theorem Json.Alike.refl (t : Json) : t.Alike t := by
  induction t using Json.token_induction with
  | null => exact .null
  | bool b => exact .bool b
  | num n => exact .num (by cases n <;> simp [Number.eqv, FiniteBinary64.eqv_iff])
  | str s => exact .str s
  | arr items ih _ => exact .arr (List.forall₂_same.2 ih)
  | obj fields ih => exact .obj (List.forall₂_same.2 fun e he => .mk e.1 (ih e he)) (.refl fields)

namespace Fields

variable {α β : Type}

theorem insert_perm (fields : Fields α) (key : String) (value : α) :
    (fields.insert key value).Perm ((key, value) :: fields.erase key) := by
  induction fields with
  | nil => exact .refl _
  | cons entry rest ih =>
      obtain ⟨k, old⟩ := entry
      rw [insert, erase]
      by_cases h : k = key
      · rw [if_pos h, if_pos h, h]
      · rw [if_neg h, if_neg h]
        exact (ih.cons _).trans (.swap _ _ _)

theorem erase_perm_of_perm {fields others : Fields α} (nodup : fields.keys.Nodup)
    (h : fields.Perm others) (key : String) : (fields.erase key).Perm (others.erase key) := by
  have hsame := get?_eq_of_perm nodup h key
  cases hget : fields.get? key with
  | none =>
      rw [hget] at hsame
      rwa [erase_of_notMem (get?_eq_none_iff.1 hget),
        erase_of_notMem (get?_eq_none_iff.1 hsame.symm)]
  | some value =>
      rw [hget] at hsame
      have hfields := insert_perm fields key value
      have hothers := insert_perm others key value
      rw [insert_of_get? hget] at hfields
      rw [insert_of_get? hsame.symm] at hothers
      exact (hfields.symm.trans (h.trans hothers)).cons_inv

theorem insert_perm_of_perm {fields others : Fields α} (nodup : fields.keys.Nodup)
    (h : fields.Perm others) (key : String) (value : α) :
    (fields.insert key value).Perm (others.insert key value) :=
  calc (fields.insert key value).Perm ((key, value) :: fields.erase key) := insert_perm _ _ _
    List.Perm _ ((key, value) :: others.erase key) := (erase_perm_of_perm nodup h key).cons _
    List.Perm _ (others.insert key value) := (insert_perm _ _ _).symm

theorem UnderKey.insert {R : α → β → Prop} {fields : Fields α} {others : Fields β}
    (h : List.Forall₂ (UnderKey R) fields others) (key : String) {a : α} {b : β} (hab : R a b) :
    List.Forall₂ (UnderKey R) (fields.insert key a) (others.insert key b) := by
  induction h with
  | nil => exact .cons (.mk key hab) .nil
  | cons hfirst hrest ih =>
      obtain ⟨k, hfirst⟩ := hfirst
      rw [Fields.insert, Fields.insert]
      split
      · exact .cons (.mk k hab) hrest
      · exact .cons (.mk k hfirst) ih

/-- The same keys once each, in any order, with tokens that are equal as values. -/
structure Alike (fields others : Fields Json) : Prop where
  nodup : fields.keys.Nodup
  pairing : ∃ middle, List.Forall₂ (UnderKey Json.Alike) fields middle ∧ middle.Perm others

theorem Alike.insert {fields others : Fields Json} (h : fields.Alike others) (key : String)
    (token : Json) : (fields.insert key token).Alike (others.insert key token) := by
  obtain ⟨nodup, middle, halike, order⟩ := h
  have nodup' : (keys middle).Nodup := keys_of_underKey halike ▸ nodup
  exact ⟨nodup_keys_insert nodup key token, Fields.insert key token middle,
    UnderKey.insert halike key (.refl token), insert_perm_of_perm nodup' order key token⟩

theorem Alike.ending {fields others : Fields Json} (h : fields.Alike others) :
    (Json.ending fields).Alike (Json.ending others) := by
  obtain ⟨-, middle, halike, order⟩ := h
  have hlength : fields.length = others.length := halike.length_eq.trans order.length_eq
  by_cases hempty : fields = []
  · subst hempty
    obtain rfl := List.length_eq_zero_iff.1 hlength.symm
    exact .null
  · have hothers : others ≠ [] := by
      rintro rfl
      exact hempty (List.length_eq_zero_iff.1 hlength)
    simp only [Json.ending, List.isEmpty_iff, hempty, hothers, if_false]
    exact .obj halike order

end Fields

theorem Encoding.alike_terminator {fields others : Fields Json} (h : fields.Alike others)
    (flags : CountFlags) (name : Option String) :
    (terminator fields flags name).Alike (terminator others flags name) := by
  have hflags : (if flags.isEmpty then fields
      else fields.insert "#f" (.num (.ofUInt32 flags.bits))).Alike
      (if flags.isEmpty then others else others.insert "#f" (.num (.ofUInt32 flags.bits))) := by
    split
    · exact h
    · exact h.insert "#f" _
  cases name with
  | none => exact hflags.ending
  | some name => exact (hflags.insert "#n" (.str name)).ending

namespace Object

theorem eqv_symm {o p : Object} (ho : o.Everywhere Keyed) (hp : p.Everywhere Keyed)
    (h : o.eqv p) : p.eqv o := by
  induction o using tree_induction generalizing p with
  | leaf o leaf =>
      rcases eq_or_float_of_eqv leaf h with rfl | ⟨x, y, rfl, rfl, hxy⟩
      · exact h
      · exact Binary64.eqv_symm hxy
  | container c content named =>
      cases p with
      | container d =>
          obtain ⟨keyed, keyedContent, keyedNamed⟩ := everywhere_container.1 ho
          obtain ⟨keyed', keyedContent', keyedNamed'⟩ := everywhere_container.1 hp
          obtain ⟨hname, hflags, hcontent, hlength, -⟩ := eqv_container.1 h
          refine eqv_container.2 ⟨hname.symm, hflags.symm, ?_, hlength.symm, fun e he => ?_⟩
          · apply List.Forall₂.flip
            exact forall₂_imp_of_mem hcontent fun o hmem q hq heqv =>
              content o hmem (keyedContent o hmem) (keyedContent' q hq) heqv
          · obtain ⟨o, hmem, heqv⟩ := exists_of_mem_named keyed keyed' h he
            refine ⟨o, Fields.get?_of_mem keyed.1 hmem, ?_⟩
            exact named _ hmem (keyedNamed _ hmem) (keyedNamed' e he) heqv
      | _ => simp [eqv] at h

theorem eqv_trans {o p q : Object} (h : o.eqv p) (h' : p.eqv q) : o.eqv q := by
  induction o using tree_induction generalizing p q with
  | leaf o leaf =>
      rcases eq_or_float_of_eqv leaf h with rfl | ⟨x, y, rfl, rfl, hxy⟩
      · exact h'
      · rcases eq_or_float_of_eqv rfl h' with rfl | ⟨_, z, ⟨⟩, rfl, hyz⟩
        · exact hxy
        · exact Binary64.eqv_trans hxy hyz
  | container c content named =>
      cases p with
      | container d =>
          cases q with
          | container e =>
              obtain ⟨hname, hflags, hcontent, hlength, hnamed⟩ := eqv_container.1 h
              obtain ⟨hname', hflags', hcontent', hlength', hnamed'⟩ := eqv_container.1 h'
              refine eqv_container.2 ⟨hname.trans hname', hflags.trans hflags', ?_,
                hlength.trans hlength', fun entry hentry => ?_⟩
              · obtain ⟨hlen, hget⟩ := List.forall₂_iff_get.1 hcontent
                obtain ⟨hlen', hget'⟩ := List.forall₂_iff_get.1 hcontent'
                refine List.forall₂_iff_get.2 ⟨hlen.trans hlen', fun i hi hi' => ?_⟩
                have hmiddle : i < d.content.length := hlen ▸ hi
                exact content _ (List.getElem_mem hi) (hget i hi hmiddle) (hget' i hmiddle hi')
              · obtain ⟨p, hp, heqv⟩ := hnamed entry hentry
                obtain ⟨q, hq, heqv'⟩ := hnamed' _ (Fields.mem_of_get? hp)
                exact ⟨q, hq, named entry hentry heqv heqv'⟩
          | _ => simp [eqv] at h'
      | _ => simp [eqv] at h

theorem eqv_unnamed {o p : Object} (h : o.eqv p) : o.unnamed.eqv p.unnamed := by
  cases o with
  | container c =>
      cases p with
      | container d => exact eqv_withName h none
      | _ => simp [eqv] at h
  | _ => cases p <;> simp_all [eqv, unnamed]

/-- The named children of equal containers can be paired off. -/
theorem exists_pairing_of_eqv {c d : Container} (hc : (container c).Keyed)
    (h : (container c).eqv (container d)) : ∃ middle,
      List.Forall₂ (Fields.UnderKey fun o p : Object => o.eqv p) c.named middle ∧
        middle.Perm d.named := by
  obtain ⟨-, -, -, hlength, hnamed⟩ := eqv_container.1 h
  let partner (e : String × Object) : String × Object :=
    (e.1, (Fields.get? e.1 d.named).getD e.2)
  have hpaired : List.Forall₂ (Fields.UnderKey fun o p : Object => o.eqv p) c.named
      (c.named.map partner) := by
    rw [List.forall₂_map_right_iff, List.forall₂_same]
    intro e he
    obtain ⟨p, hp, heqv⟩ := hnamed e he
    have hpartner : partner e = (e.1, p) := by simp only [partner, hp, Option.getD_some]
    rw [hpartner]
    exact .mk e.1 heqv
  have hsubset : c.named.map partner ⊆ d.named := by
    intro f hf
    obtain ⟨e, he, rfl⟩ := List.mem_map.1 hf
    obtain ⟨p, hp, -⟩ := hnamed e he
    simpa only [partner, hp, Option.getD_some] using Fields.mem_of_get? hp
  have hnodup : (c.named.map partner).Nodup := by
    apply List.Nodup.of_map Prod.fst
    rw [List.map_map]
    exact hc.1
  refine ⟨c.named.map partner, hpaired, ?_⟩
  exact (List.subperm_of_subset hnodup hsubset).perm_of_length_le (by simp [hlength])

theorem agree_encode_leaf {o p : Object} (leaf : o.container? = none) (h : o.eqv p) :
    Agree Json.Alike o.encode p.encode := by
  rcases eq_or_float_of_eqv leaf h with rfl | ⟨x, y, rfl, rfl, hxy⟩
  · cases p.encode with
    | ok t => exact .ok (.refl t)
    | error fault => exact .error fault fault
  · cases x <;> cases y <;> simp only [Binary64.eqv, Bool.false_eq_true] at hxy
    · exact .ok (.num hxy)
    · exact .error _ _

theorem agree_entry {e f : String × Object}
    (h : Fields.UnderKey (fun o p : Object => Agree Json.Alike o.unnamed.encode p.unnamed.encode) e f) :
    Agree (Fields.UnderKey Json.Alike) (Encoding.entry e) (Encoding.entry f) := by
  obtain ⟨key, h⟩ := h
  exact h.map fun t u htu => .mk key htu

theorem agree_encode {o p : Object} (ho : o.Everywhere Keyed) (hp : p.Everywhere Keyed)
    (h : o.eqv p) : Agree Json.Alike o.encode p.encode := by
  induction o using children_induction generalizing p with
  | leaf o leaf => exact agree_encode_leaf leaf h
  | container c content named =>
      cases p with
      | container d =>
          obtain ⟨keyed, keyedContent, keyedNamed⟩ := everywhere_container.1 ho
          obtain ⟨-, keyedContent', keyedNamed'⟩ := everywhere_container.1 hp
          obtain ⟨hname, hflags, hcontent, -, -⟩ := eqv_container.1 h
          obtain ⟨middle, hpaired, order⟩ := exists_pairing_of_eqv keyed h
          have hitems := agree_mapM <| forall₂_imp_of_mem hcontent fun o hmem q hq heqv =>
            content o hmem (keyedContent o hmem) (keyedContent' q hq) heqv
          have hentries : Agree (List.Forall₂ (Fields.UnderKey Json.Alike))
              (c.named.mapM Encoding.entry) (middle.mapM Encoding.entry) := by
            apply agree_mapM
            refine forall₂_imp_of_mem hpaired fun e he f hf hef => agree_entry ?_
            obtain ⟨key, heqv⟩ := hef
            refine .mk key ((named _ he).2 ?_ ?_ (eqv_unnamed heqv))
            · exact (keyedNamed _ he).unnamed Keyed.withName
            · exact (keyedNamed' _ (order.mem_iff.1 hf)).unnamed Keyed.withName
          -- A traversal meets the children of the other container in another order.
          have hfields : Agree Fields.Alike (c.named.mapM Encoding.entry)
              (d.named.mapM Encoding.entry) := by
            refine (hentries.comp (agree_mapM_perm order)).mono fun fields others hok h => ⟨?_, h⟩
            rw [Encoding.keys_of_mapM_entry hok]
            exact keyed.1
          rw [Container.encode_eq, Container.encode_eq, ← hname, ← hflags]
          refine hitems.bind fun items others hitems => hfields.bind fun fields _ hfields => .ok ?_
          refine .arr (List.rel_append hitems (.cons ?_ .nil))
          exact Encoding.alike_terminator hfields c.countFlags c.name
      | _ => simp [eqv] at h

/-- Equality is symmetric and transitive, and reflexive but for objects that hold a NaN. Equal objects
can both be written or neither, and their tokens are equal as values. -/
theorem eqv_congruence {a b : Object} (ha : a.Built) (hb : b.Built) :
    (a.eqv a ↔ a.Everywhere (· ≠ .value (.float .nan))) ∧ (a.eqv b → b.eqv a) ∧
      (∀ c, a.eqv b → b.eqv c → a.eqv c) ∧ (a.eqv b → Agree Json.Alike a.encode b.encode) :=
  ⟨eqv_self_iff ha.keyed, eqv_symm ha.keyed hb.keyed, fun _ => eqv_trans,
    agree_encode ha.keyed hb.keyed⟩

/-- Containers that differ in the order of their children and in the sign of a zero. -/
theorem eqv_congruence_zeros :
    let zero (negative : Bool) := Object.value (.float (.finite (.zero negative)))
    let base := Container.empty.push (.container .empty)
    let a := Object.container ((base.insertNamed "#n" .void).insertNamed "y" (zero true))
    let b := Object.container ((base.insertNamed "y" (zero false)).insertNamed "#n" .void)
    let c := Object.container ((base.insertNamed "y" (zero true)).insertNamed "#n" .void)
    a.Built ∧ b.Built ∧ (a.eqv a ↔ a.Everywhere (· ≠ .value (.float .nan))) ∧
      a.eqv b ∧ b.eqv a ∧ b.eqv c ∧ a.eqv c ∧ Agree Json.Alike a.encode b.encode := by
  intro zero base a b c
  have hbase : (Object.container base).Built := .push .empty .empty
  have ha : a.Built := .insertNamed "y" (.insertNamed "#n" hbase (.leaf rfl)) (.leaf rfl)
  have hb : b.Built := .insertNamed "#n" (.insertNamed "y" hbase (.leaf rfl)) (.leaf rfl)
  have hab : a.eqv b := by decide
  have hbc : b.eqv c := by decide
  obtain ⟨self, symm, trans, encode⟩ := eqv_congruence ha hb
  exact ⟨ha, hb, self, hab, symm hab, hbc, trans c hab hbc, encode hab⟩

end Object

end StoryCodec
