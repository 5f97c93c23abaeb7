import StoryCodec.Story.Path
import Mathlib.Data.List.TakeDrop

namespace StoryCodec.Path

/-- One step towards the root, where climbing stops. -/
def up (p : Path) : Path := { p with components := p.components.dropLast }

theorem climb_le_length (p : Path) : p.climb ≤ p.length := by
  rw [climb]
  split
  · exact (List.takeWhile_prefix _).length_le
  · exact Nat.zero_le _

theorem climb_parent (rest : List Component) :
    climb ⟨true, .parent :: rest⟩ = climb ⟨true, rest⟩ + 1 := rfl

theorem climb_eq_zero {p : Path} (h : p.head? ≠ some .parent) : p.climb = 0 := by
  obtain ⟨relative, components⟩ := p
  cases components with
  | nil => simp [climb]
  | cons first rest =>
      have hfirst : first.isParent = false := by
        rw [Component.isParent, decide_eq_false_iff_not]
        exact fun heq => h (congrArg some heq)
      simp [climb, hfirst]

/-- A path that does not climb is put behind another as it is. -/
theorem join_of_climb_eq_zero {q : Path} (h : q.climb = 0) (p : Path) :
    p.join q = { p with components := p.components ++ q.components } := by
  rw [join, h, Nat.sub_zero, List.drop_zero, length, List.take_length]

/-- Each step that a path climbs is taken from the end of the other. -/
theorem join_parent (p : Path) (rest : List Component) :
    p.join ⟨true, .parent :: rest⟩ = p.up.join ⟨true, rest⟩ := by
  have htake (n : Nat) : p.components.take (p.length - (n + 1)) =
      p.components.dropLast.take (p.components.dropLast.length - n) := by
    rw [List.dropLast_eq_take, List.take_take, List.length_take, length]
    congr 1
    omega
  rw [join, climb_parent, htake]
  rfl

theorem takeWhile_dropLast {α : Type} {f : α → Bool} {xs : List α}
    (h : (xs.takeWhile f).length < xs.length) : xs.dropLast.takeWhile f = xs.takeWhile f := by
  induction xs with
  | nil => rfl
  | cons x xs ih =>
      by_cases hx : f x
      · rw [List.takeWhile_cons_of_pos hx, List.length_cons, List.length_cons] at h
        have hne : xs ≠ [] := by
          rintro rfl
          simp at h
        rw [List.dropLast_cons_of_ne_nil hne, List.takeWhile_cons_of_pos hx,
          List.takeWhile_cons_of_pos hx, ih (by omega)]
      · cases xs with
        | nil => simp [hx]
        | cons y ys => simp [hx]

theorem climb_up {p : Path} (h : p.climb < p.length) : p.up.climb = p.climb := by
  obtain ⟨relative, components⟩ := p
  cases relative with
  | false => rfl
  | true => exact congrArg List.length (takeWhile_dropLast h)

theorem length_up (p : Path) : p.up.length = p.length - 1 :=
  List.length_dropLast

/-- A step from the end of a joined path is one from the end of its second part, as long as that has
more than the steps it climbs. -/
theorem up_join {q : Path} (h : q.climb < q.length) (p : Path) :
    (p.join q).up = p.join q.up := by
  have hrest : q.components.drop q.climb ≠ [] := by
    rw [Ne, List.drop_eq_nil_iff, Nat.not_le]
    exact h
  rw [up, join, join, climb_up h, List.dropLast_append_of_ne_nil hrest, up,
    List.dropLast_drop_eq_drop_dropLast]

theorem climb_append (p : Path) {rest : List Component} (h : rest.head? ≠ some .parent) :
    climb { p with components := p.components ++ rest } = p.climb := by
  have hrest : rest.takeWhile Component.isParent = [] := by
    cases rest with
    | nil => rfl
    | cons first rest =>
        apply List.takeWhile_cons_of_neg
        rw [Component.isParent, decide_eq_true_eq]
        exact fun heq => h (congrArg some heq)
  have hwhole : (p.components ++ rest).takeWhile Component.isParent =
      p.components.takeWhile Component.isParent := by
    rw [List.takeWhile_append, hrest, List.append_nil]
    split
    next hlength => exact ((List.takeWhile_prefix _).eq_of_length hlength).symm
    next => rfl
  rw [climb, climb, hwhole]

theorem join_assoc_of_head?_ne {c : Path} (h : c.head? ≠ some .parent) (a b : Path) :
    (a.join b).join c = a.join (b.join c) := by
  have hc := climb_eq_zero h
  have hdrop : (b.components ++ c.components).drop b.climb =
      b.components.drop b.climb ++ c.components :=
    List.drop_append_of_le_length b.climb_le_length
  rw [join_of_climb_eq_zero hc, join_of_climb_eq_zero hc, join, join, climb_append b h, hdrop,
    List.append_assoc]

/-- Joining is associative as long as the third path does not climb further than into what the
second adds, wherever the second climbs to. A parent that leads an absolute path is no step. -/
theorem join_assoc {a b c : Path} (hclimb : c.climb ≤ b.length - b.climb)
    (hhead : c.relative ∨ c.head? ≠ some .parent) :
    (a.join b).join c = a.join (b.join c) := by
  obtain ⟨relative, components⟩ := c
  cases relative with
  | false => exact join_assoc_of_head?_ne (hhead.resolve_left Bool.false_ne_true) a b
  | true =>
      -- Each step that the third path climbs goes off the end of the second, which the bound leaves
      -- with more than it climbs itself.
      clear hhead
      induction components generalizing b with
      | nil => exact join_assoc_of_head?_ne (c := ⟨true, []⟩) (by simp [head?]) a b
      | cons first rest ih =>
          by_cases hfirst : first = .parent
          · subst hfirst
            rw [climb_parent] at hclimb
            have hb : b.climb < b.length := by omega
            have hrest : climb ⟨true, rest⟩ ≤ b.up.length - b.up.climb := by
              rw [climb_up hb, length_up]
              omega
            calc (a.join b).join ⟨true, .parent :: rest⟩
                = (a.join b).up.join ⟨true, rest⟩ := join_parent _ rest
              _ = (a.join b.up).join ⟨true, rest⟩ := by rw [up_join hb]
              _ = a.join (b.up.join ⟨true, rest⟩) := ih hrest
              _ = a.join (b.join ⟨true, .parent :: rest⟩) := by rw [join_parent]
          · have hhead : head? ⟨true, first :: rest⟩ ≠ some .parent :=
              fun h => hfirst (Option.some.inj h)
            exact join_assoc_of_head?_ne hhead a b

/-- The second path climbs past the root of the first, and the third climbs into the second. -/
theorem join_assoc_past_root :
    let a : Path := ⟨false, [.name "knot"]⟩
    let b : Path := ⟨true, [.parent, .parent, .name "other", .index 3]⟩
    let c : Path := ⟨true, [.parent, .name "stitch"]⟩
    c.climb ≤ b.length - b.climb ∧ (c.relative ∨ c.head? ≠ some .parent) ∧
      (a.join b).join c = a.join (b.join c) := by
  intro a b c
  have hclimb : c.climb ≤ b.length - b.climb := by decide
  have hhead : c.relative ∨ c.head? ≠ some .parent := .inl rfl
  exact ⟨hclimb, hhead, join_assoc hclimb hhead⟩

/-- A step that climbs over the steps of the second path is lost when those two are joined first. -/
example :
    let a : Path := ⟨false, [.name "knot", .name "stitch"]⟩
    let b : Path := ⟨true, [.parent]⟩
    (a.join b).join b ≠ a.join (b.join b) := by
  decide

end StoryCodec.Path
