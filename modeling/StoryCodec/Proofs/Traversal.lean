import Mathlib.Data.List.Forall2
import Mathlib.Logic.Relation

namespace StoryCodec

variable {α β γ δ ε : Type}

theorem bind_eq_ok {x : Except ε α} {f : α → Except ε β} {b : β} :
    (x >>= f) = .ok b ↔ ∃ a, x = .ok a ∧ f a = .ok b := by
  cases x <;> simp [bind, Except.bind]

theorem map_eq_ok {x : Except ε α} {f : α → β} {b : β} :
    x.map f = .ok b ↔ ∃ a, x = .ok a ∧ f a = b := by
  cases x <;> simp [Except.map]

theorem bind_eq_error {x : Except ε α} {f : α → Except ε β} {e : ε} :
    (x >>= f) = .error e ↔ x = .error e ∨ ∃ a, x = .ok a ∧ f a = .error e := by
  cases x <;> simp [bind, Except.bind]

theorem map_eq_error {x : Except ε α} {f : α → β} {e : ε} :
    x.map f = .error e ↔ x = .error e := by
  cases x <;> simp [Except.map]

theorem mapM_nil_eq_ok {f : α → Except ε β} {bs : List β} : [].mapM f = .ok bs ↔ bs = [] := by
  simp [pure, Except.pure, eq_comm]

theorem mapM_cons_eq_ok {f : α → Except ε β} {a : α} {as : List α} {bs : List β} :
    (a :: as).mapM f = .ok bs ↔ ∃ b rest, f a = .ok b ∧ as.mapM f = .ok rest ∧ bs = b :: rest := by
  rw [List.mapM_cons]
  simp only [bind_eq_ok, pure, Except.pure, Except.ok.injEq]
  constructor
  · rintro ⟨b, hb, rest, hrest, rfl⟩
    exact ⟨b, rest, hb, hrest, rfl⟩
  · rintro ⟨b, rest, hb, hrest, rfl⟩
    exact ⟨b, hb, rest, hrest, rfl⟩

theorem mapM_ok_of_forall {f : α → Except ε β} {as : List α} (h : ∀ a ∈ as, ∃ b, f a = .ok b) :
    ∃ bs, as.mapM f = .ok bs := by
  induction as with
  | nil => exact ⟨[], rfl⟩
  | cons a as ih =>
      obtain ⟨b, hb⟩ := h a List.mem_cons_self
      obtain ⟨bs, hbs⟩ := ih fun a ha => h a (List.mem_cons_of_mem _ ha)
      exact ⟨b :: bs, mapM_cons_eq_ok.2 ⟨b, bs, hb, hbs, rfl⟩⟩

theorem exists_mapM_eq_ok {f : α → Except ε β} {P : α → Prop} {bs : List β}
    (h : ∀ b ∈ bs, ∃ a, P a ∧ f a = .ok b) : ∃ as : List α, as.mapM f = .ok bs ∧ ∀ a ∈ as, P a := by
  induction bs with
  | nil => exact ⟨[], rfl, by simp⟩
  | cons b bs ih =>
      obtain ⟨a, ha, hf⟩ := h b List.mem_cons_self
      obtain ⟨as, has, hP⟩ := ih fun b hb => h b (List.mem_cons_of_mem _ hb)
      exact ⟨a :: as, mapM_cons_eq_ok.2 ⟨b, bs, hf, has, rfl⟩, List.forall_mem_cons.2 ⟨ha, hP⟩⟩

theorem exists_of_mem_mapM {f : α → Except ε β} {as : List α} {bs : List β}
    (h : as.mapM f = .ok bs) {b : β} (hb : b ∈ bs) : ∃ a ∈ as, f a = .ok b := by
  induction as generalizing bs with
  | nil => simp [mapM_nil_eq_ok.1 h] at hb
  | cons a as ih =>
      obtain ⟨first, rest, hfirst, hrest, rfl⟩ := mapM_cons_eq_ok.1 h
      rcases List.mem_cons.1 hb with rfl | hb
      · exact ⟨a, List.mem_cons_self, hfirst⟩
      · obtain ⟨a, ha, hf⟩ := ih hrest hb
        exact ⟨a, List.mem_cons_of_mem _ ha, hf⟩

theorem exists_mem_of_mapM {f : α → Except ε β} {as : List α} {bs : List β}
    (h : as.mapM f = .ok bs) {a : α} (ha : a ∈ as) : ∃ b ∈ bs, f a = .ok b := by
  induction as generalizing bs with
  | nil => cases ha
  | cons first as ih =>
      obtain ⟨b, rest, hb, hrest, rfl⟩ := mapM_cons_eq_ok.1 h
      rcases List.mem_cons.1 ha with rfl | ha
      · exact ⟨b, List.mem_cons_self, hb⟩
      · obtain ⟨b, hmem, hf⟩ := ih hrest ha
        exact ⟨b, List.mem_cons_of_mem _ hmem, hf⟩

theorem exists_mapM_eq_ok_iff {f : α → Except ε β} {as : List α} :
    (∃ bs, as.mapM f = .ok bs) ↔ ∀ a ∈ as, ∃ b, f a = .ok b := by
  refine ⟨?_, mapM_ok_of_forall⟩
  rintro ⟨bs, h⟩ a ha
  obtain ⟨b, -, hb⟩ := exists_mem_of_mapM h ha
  exact ⟨b, hb⟩

theorem mapM_eq_ok_iff_forall₂ {f : α → Except ε β} {as : List α} {bs : List β} :
    as.mapM f = .ok bs ↔ List.Forall₂ (fun a b => f a = .ok b) as bs := by
  induction as generalizing bs with
  | nil => rw [mapM_nil_eq_ok, List.forall₂_nil_left_iff]
  | cons a as ih => simp only [mapM_cons_eq_ok, ih, List.forall₂_cons_left_iff]

theorem map_eq_map_of_mapM {f : α → Except ε β} {g : α → γ} {g' : β → γ} {as : List α}
    {bs : List β} (h : as.mapM f = .ok bs) (hg : ∀ a b, f a = .ok b → g' b = g a) :
    bs.map g' = as.map g := by
  have hrel := (mapM_eq_ok_iff_forall₂.1 h).imp fun a b hab => (hg a b hab).symm
  rw [eq_comm, ← List.forall₂_eq_eq_eq, List.forall₂_map_left_iff, List.forall₂_map_right_iff]
  exact hrel

/-- A traversal stops at the first fault. -/
theorem mapM_eq_error_iff {f : α → Except ε β} {as : List α} {e : ε} :
    as.mapM f = .error e ↔ ∃ before a after, as = before ++ a :: after ∧
      (∀ b ∈ before, ∃ c, f b = .ok c) ∧ f a = .error e := by
  constructor
  · intro h
    induction as with
    | nil => cases h
    | cons first as ih =>
        simp only [List.mapM_cons, bind_eq_error] at h
        rcases h with h | ⟨b, hb, h | ⟨bs, -, h⟩⟩
        · exact ⟨[], first, as, rfl, by simp, h⟩
        · obtain ⟨before, a, after, rfl, hbefore, ha⟩ := ih h
          exact ⟨first :: before, a, after, rfl, List.forall_mem_cons.2 ⟨⟨b, hb⟩, hbefore⟩, ha⟩
        · cases h
  · rintro ⟨before, a, after, rfl, hbefore, ha⟩
    obtain ⟨cs, hcs⟩ := mapM_ok_of_forall hbefore
    rw [List.mapM_append, hcs, List.mapM_cons, ha]
    rfl

theorem exists_of_mapM_eq_error {f : α → Except ε β} {as : List α} {e : ε}
    (h : as.mapM f = .error e) : ∃ a ∈ as, f a = .error e := by
  obtain ⟨before, a, after, rfl, -, ha⟩ := mapM_eq_error_iff.1 h
  exact ⟨a, by simp, ha⟩

/-- The fault of a computation, if it has failed. -/
def fault? : Except ε α → Option ε
  | .ok _ => none
  | .error e => some e

theorem fault?_eq_some_iff {x : Except ε α} {e : ε} : fault? x = some e ↔ x = .error e := by
  cases x <;> simp [fault?]

theorem exists_eq_ok_iff {x : Except ε α} : (∃ a, x = .ok a) ↔ ¬∃ e, x = .error e := by
  cases x <;> simp

theorem fault?_map (f : α → β) (x : Except ε α) : fault? (x.map f) = fault? x := by
  cases x <;> rfl

theorem fault?_mapM {f : α → Except ε β} {g : α → Option ε} {as : List α}
    (h : ∀ a ∈ as, fault? (f a) = g a) : fault? (as.mapM f) = as.findSome? g := by
  induction as with
  | nil => rfl
  | cons a as ih =>
      obtain ⟨hfirst, hrest⟩ := List.forall_mem_cons.1 h
      rw [List.mapM_cons, List.findSome?_cons, ← hfirst, ← ih hrest]
      cases f a with
      | error e => rfl
      | ok b => cases as.mapM f <;> rfl

/-- A second traversal that undoes the first up to `r`, element by element. -/
theorem mapM_mapM_of_forall {f : α → Except ε β} {g : β → Except δ γ} {r : α → γ} {as : List α}
    {bs : List β} (h : as.mapM f = .ok bs) (hg : ∀ a ∈ as, ∀ b, f a = .ok b → g b = .ok (r a)) :
    bs.mapM g = .ok (as.map r) := by
  induction as generalizing bs with
  | nil =>
      rw [mapM_nil_eq_ok.1 h]
      rfl
  | cons a as ih =>
      obtain ⟨b, rest, hb, hrest, rfl⟩ := mapM_cons_eq_ok.1 h
      have hfirst := hg a List.mem_cons_self b hb
      have htail := ih hrest fun a ha => hg a (List.mem_cons_of_mem _ ha)
      exact mapM_cons_eq_ok.2 ⟨r a, as.map r, hfirst, htail, rfl⟩

theorem mapM_zipWith {f : α → Except ε β} {g : α → Except ε γ} {r : α → β → γ}
    {as : List α} {bs : List β} (h : as.mapM f = .ok bs)
    (hg : ∀ a b, f a = .ok b → g a = .ok (r a b)) : as.mapM g = .ok (List.zipWith r as bs) := by
  induction as generalizing bs with
  | nil => rfl
  | cons a as ih =>
      obtain ⟨b, rest, hb, hrest, rfl⟩ := mapM_cons_eq_ok.1 h
      exact mapM_cons_eq_ok.2 ⟨r a b, _, hg a b hb, ih hrest, rfl⟩

theorem forall₂_imp_of_mem {R S : α → β → Prop} {as : List α} {bs : List β}
    (h : List.Forall₂ R as bs) (hRS : ∀ a ∈ as, ∀ b ∈ bs, R a b → S a b) : List.Forall₂ S as bs := by
  obtain ⟨hlength, hzip⟩ := List.forall₂_iff_zip.1 h
  refine List.forall₂_iff_zip.2 ⟨hlength, fun {a b} hab => ?_⟩
  obtain ⟨ha, hb⟩ := List.of_mem_zip hab
  exact hRS a ha b hb (hzip hab)

/-- Both fail, whatever the faults are, or both succeed with related results. -/
inductive Agree (R : α → β → Prop) : Except ε α → Except ε β → Prop
  | ok {a : α} {b : β} (h : R a b) : Agree R (.ok a) (.ok b)
  | error (e f : ε) : Agree R (.error e) (.error f)

namespace Agree

theorem mono {R S : α → β → Prop} {x : Except ε α} {y : Except ε β} (h : Agree R x y)
    (hRS : ∀ a b, x = .ok a → R a b → S a b) : Agree S x y := by
  cases h with
  | ok h => exact .ok (hRS _ _ rfl h)
  | error e f => exact .error e f

theorem comp {R : α → β → Prop} {S : β → γ → Prop} {x : Except ε α} {y : Except ε β}
    {z : Except ε γ} (h : Agree R x y) (h' : Agree S y z) : Agree (Relation.Comp R S) x z := by
  cases h with
  | ok h => cases h' with | ok h' => exact .ok ⟨_, h, h'⟩
  | error e f => cases h' with | error _ g => exact .error e g

theorem map {R : α → β → Prop} {S : γ → δ → Prop} {x : Except ε α} {y : Except ε β} {f : α → γ}
    {g : β → δ} (h : Agree R x y) (hfg : ∀ a b, R a b → S (f a) (g b)) :
    Agree S (x.map f) (y.map g) := by
  cases h with
  | ok h => exact .ok (hfg _ _ h)
  | error e f => exact .error e f

theorem bind {R : α → β → Prop} {S : γ → δ → Prop} {x : Except ε α} {y : Except ε β}
    {f : α → Except ε γ} {g : β → Except ε δ} (h : Agree R x y)
    (hfg : ∀ a b, R a b → Agree S (f a) (g b)) : Agree S (x >>= f) (y >>= g) := by
  cases h with
  | ok h => exact hfg _ _ h
  | error e f => exact .error e f

end Agree

theorem agree_mapM {R : β → δ → Prop} {f : α → Except ε β} {g : γ → Except ε δ} {as : List α}
    {cs : List γ} (h : List.Forall₂ (fun a c => Agree R (f a) (g c)) as cs) :
    Agree (List.Forall₂ R) (as.mapM f) (cs.mapM g) := by
  induction h with
  | nil => exact .ok .nil
  | cons hfirst _ ih =>
      rw [List.mapM_cons, List.mapM_cons]
      exact hfirst.bind fun b d hbd => ih.bind fun bs ds hrest => .ok (.cons hbd hrest)

/-- The order of a traversal changes the first fault and the order of the results, and nothing else.
-/
theorem agree_mapM_perm {f : α → Except ε β} {as cs : List α} (h : as.Perm cs) :
    Agree List.Perm (as.mapM f) (cs.mapM f) := by
  induction h with
  | nil => exact .ok .nil
  | @cons a as cs _ ih =>
      rw [List.mapM_cons, List.mapM_cons]
      cases f a with
      | error e => exact .error e e
      | ok b => exact ih.bind fun bs ds hrest => .ok (hrest.cons b)
  | swap a c as =>
      simp only [List.mapM_cons]
      rcases f a with ea | a <;> rcases f c with ec | c <;> rcases as.mapM f with e | bs
      case ok.ok.ok => exact .ok (.swap _ _ bs)
      all_goals exact .error _ _
  | trans _ _ ih ih' => exact (ih.comp ih').mono fun _ _ _ ⟨_, h, h'⟩ => h.trans h'

end StoryCodec
