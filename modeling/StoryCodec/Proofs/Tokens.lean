import StoryCodec.Json.Basic
import Mathlib.Data.List.Forall2

namespace StoryCodec

/-- Two entries under one key, with related values. -/
inductive Fields.UnderKey {α β : Type} (R : α → β → Prop) : String × α → String × β → Prop
  | mk (key : String) {a : α} {b : β} (h : R a b) : UnderKey R (key, a) (key, b)

namespace Json

/-- A token stands in itself, and what stands in an item of an array or under a key of a record
stands in the whole. -/
inductive Within (u : Json) : Json → Prop
  | here : Within u u
  | item {items : List Json} {t : Json} (ht : t ∈ items) (h : Within u t) : Within u (.arr items)
  | field {fields : Fields Json} {entry : String × Json} (he : entry ∈ fields)
      (h : Within u entry.2) : Within u (.obj fields)

/-- No record of the token gives a key twice. -/
def Distinct (t : Json) : Prop :=
  ∀ fields : Fields Json, (Json.obj fields).Within t → fields.keys.Nodup

/-- Tokens that differ only in the order of the keys of records, at any depth. -/
inductive Reordered : Json → Json → Prop
  | null : Reordered .null .null
  | bool (b : Bool) : Reordered (.bool b) (.bool b)
  | num (n : Number) : Reordered (.num n) (.num n)
  | str (s : String) : Reordered (.str s) (.str s)
  | arr {items others : List Json} (h : List.Forall₂ Reordered items others) :
      Reordered (.arr items) (.arr others)
  | obj {fields middle others : Fields Json} (order : fields.Perm middle)
      (h : List.Forall₂ (Fields.UnderKey Reordered) middle others) :
      Reordered (.obj fields) (.obj others)

theorem Distinct.item {items : List Json} (h : (Json.arr items).Distinct) {t : Json}
    (ht : t ∈ items) : t.Distinct :=
  fun fields hf => h fields (.item ht hf)

theorem Distinct.field {fields : Fields Json} (h : (Json.obj fields).Distinct) {e : String × Json}
    (he : e ∈ fields) : e.2.Distinct :=
  fun fields hf => h fields (.field he hf)

theorem Distinct.nodup {fields : Fields Json} (h : (Json.obj fields).Distinct) :
    fields.keys.Nodup :=
  h fields .here

theorem distinct_arr {items : List Json} (h : ∀ t ∈ items, t.Distinct) :
    (Json.arr items).Distinct := by
  intro fields hf
  cases hf with
  | item ht hf => exact h _ ht fields hf

theorem distinct_obj {fields : Fields Json} (hn : fields.keys.Nodup)
    (h : ∀ e ∈ fields, e.2.Distinct) : (Json.obj fields).Distinct := by
  intro others hf
  cases hf with
  | here => exact hn
  | field he hf => exact h _ he others hf

theorem distinct_of_scalar {t : Json} (harr : ∀ items, t ≠ .arr items)
    (hobj : ∀ fields, t ≠ .obj fields) : t.Distinct := by
  intro fields hf
  cases hf with
  | here => exact absurd rfl (hobj fields)
  | item => exact absurd rfl (harr _)
  | field => exact absurd rfl (hobj _)

mutual

/-- How deep arrays and records are nested. -/
def nesting : Json → Nat
  | .arr items => itemsNesting items + 1
  | .obj fields => fieldsNesting fields + 1
  | _ => 0
termination_by structural t => t

def itemsNesting : List Json → Nat
  | [] => 0
  | item :: items => max item.nesting (itemsNesting items)
termination_by structural items => items

def fieldsNesting : List (String × Json) → Nat
  | [] => 0
  | (_, value) :: fields => max value.nesting (fieldsNesting fields)
termination_by structural fields => fields

end

theorem itemsNesting_le {items : List Json} {n : Nat} :
    itemsNesting items ≤ n ↔ ∀ t ∈ items, t.nesting ≤ n := by
  induction items with
  | nil => simp [itemsNesting]
  | cons t items ih => rw [itemsNesting, Nat.max_le, ih, List.forall_mem_cons]

theorem fieldsNesting_le {fields : List (String × Json)} {n : Nat} :
    fieldsNesting fields ≤ n ↔ ∀ e ∈ fields, e.2.nesting ≤ n := by
  induction fields with
  | nil => simp [fieldsNesting]
  | cons e fields ih => rw [fieldsNesting, Nat.max_le, ih, List.forall_mem_cons]

theorem nesting_arr_le {items : List Json} {n : Nat} :
    (Json.arr items).nesting ≤ n + 1 ↔ ∀ t ∈ items, t.nesting ≤ n := by
  rw [nesting, Nat.add_le_add_iff_right, itemsNesting_le]

theorem nesting_obj_le {fields : List (String × Json)} {n : Nat} :
    (Json.obj fields).nesting ≤ n + 1 ↔ ∀ e ∈ fields, e.2.nesting ≤ n := by
  rw [nesting, Nat.add_le_add_iff_right, fieldsNesting_le]

theorem exists_of_nesting_arr_le {items : List Json} {n : Nat} (h : (Json.arr items).nesting ≤ n) :
    ∃ k, n = k + 1 ∧ ∀ t ∈ items, t.nesting ≤ k := by
  cases n with
  | zero => cases h
  | succ k => exact ⟨k, rfl, nesting_arr_le.1 h⟩

theorem exists_of_nesting_obj_le {fields : List (String × Json)} {n : Nat}
    (h : (Json.obj fields).nesting ≤ n) : ∃ k, n = k + 1 ∧ ∀ e ∈ fields, e.2.nesting ≤ k := by
  cases n with
  | zero => cases h
  | succ k => exact ⟨k, rfl, nesting_obj_le.1 h⟩

theorem nesting_of_scalar {t : Json} (harr : ∀ items, t ≠ .arr items)
    (hobj : ∀ fields, t ≠ .obj fields) : t.nesting = 0 := by
  cases t with
  | arr items => exact absurd rfl (harr items)
  | obj fields => exact absurd rfl (hobj fields)
  | _ => rfl

theorem all_nesting_arr (items : List Json) (n : Nat) :
    items.all (fun t => t.nesting ≤ n) = decide ((Json.arr items).nesting ≤ n + 1) := by
  rw [Bool.eq_iff_iff, List.all_eq_true, decide_eq_true_iff, nesting_arr_le]
  simp only [decide_eq_true_iff]

theorem all_nesting_obj (fields : List (String × Json)) (n : Nat) :
    fields.all (fun e => e.2.nesting ≤ n) = decide ((Json.obj fields).nesting ≤ n + 1) := by
  rw [Bool.eq_iff_iff, List.all_eq_true, decide_eq_true_iff, nesting_obj_le]
  simp only [decide_eq_true_iff]

end Json

namespace Fields

variable {α β : Type} {R : α → β → Prop}

theorem get?_of_underKey {fields : Fields α} {others : Fields β}
    (h : List.Forall₂ (UnderKey R) fields others) (key : String) :
    Option.Rel R (fields.get? key) (others.get? key) := by
  induction h with
  | nil => exact .none
  | cons hfirst _ ih =>
      obtain ⟨k, hab⟩ := hfirst
      rw [get?, get?]
      split
      · exact .some hab
      · exact ih

theorem keys_of_underKey {fields : Fields α} {others : Fields β}
    (h : List.Forall₂ (UnderKey R) fields others) : fields.keys = others.keys := by
  induction h with
  | nil => rfl
  | cons hfirst _ ih =>
      obtain ⟨k, -⟩ := hfirst
      exact congrArg (k :: ·) ih

theorem exists_of_mem_underKey {fields : Fields α} {others : Fields β}
    (h : List.Forall₂ (UnderKey R) fields others) {e : String × α} (he : e ∈ fields) :
    ∃ f ∈ others, UnderKey R e f := by
  induction h with
  | nil => simp at he
  | @cons e f fields others hef _ ih =>
      rcases List.mem_cons.1 he with rfl | he
      · exact ⟨f, List.mem_cons_self, hef⟩
      · obtain ⟨f, hf, hef⟩ := ih he
        exact ⟨f, List.mem_cons_of_mem _ hf, hef⟩

end Fields

end StoryCodec
