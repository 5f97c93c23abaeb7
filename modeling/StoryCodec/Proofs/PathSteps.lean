import StoryCodec.Proofs.PathText

namespace StoryCodec.Path

/-- What follows the dot in front of the text of a relative path, and the whole text of any other. -/
def body : List Char → List Char
  | '.' :: cs => cs
  | cs => cs

/-- Each piece between dots has something in it. A text with nothing behind the mark of a relative
path has no pieces. -/
def Gapless (s : String) : Prop :=
  body s.toList = [] ∨ [] ∉ (body s.toList).splitOn '.'

instance (s : String) : Decidable (Gapless s) :=
  inferInstanceAs (Decidable (_ ∨ _))

/-- One step in the making of a path. Whatever else goes into it is read from a text. -/
inductive Step
  | replace (s : String)
  | append (s : String)
  | prepend (s : String)
  | tail
  | reread
deriving DecidableEq

namespace Step

def apply (p : Path) : Step → Path
  | replace s => parse s
  | append s => p.join (parse s)
  | prepend s => (parse s).join p
  | tail => p.tail
  | reread => p.reread

def text? : Step → Option String
  | replace s => some s
  | append s => some s
  | prepend s => some s
  | tail => none
  | reread => none

end Step

def run (steps : List Step) : Path := steps.foldl Step.apply root

/-- Every component can stand by itself. Unlike that a path is legible, this is kept when components
in front are taken away. -/
def Solid (p : Path) : Prop :=
  ∀ c ∈ p.components, c ≠ .name "" ∧ Component.ofChars c.chars = c ∧ '.' ∉ c.chars

theorem Solid.legible {p : Path} (h : p.Solid) : p.Legible where
  noDot _ hname := (h _ hname).2.2
  noNumeral name hname n hn heq :=
    (Component.ofChars_chars_iff (.name name)).1 (h _ hname).2.1 n hn (congrArg _ heq)
  notBlank heq := (h (.name "") (by simp [heq])).1 rfl
  notMarked := .inr fun hhead => (h _ (List.mem_of_head? hhead)).1 rfl

theorem Solid.spelled {p : Path} (h : p.Solid) : p.Spelled :=
  (parse_text_iff_legible.2 p).2 h.legible

theorem components_ofChars (cs : List Char) : (ofChars cs).components = componentsOf (body cs) := by
  fun_cases ofChars cs with
  | case1 cs => rfl
  | case2 cs hdot =>
      rw [body]
      exact hdot

theorem solid_parse {s : String} (h : Gapless s) : (parse s).Solid := by
  intro c hc
  rw [parse, components_ofChars] at hc
  refine ⟨?_, mem_componentsOf hc⟩
  rintro rfl
  rw [componentsOf] at hc
  split at hc
  next => simp at hc
  next hne =>
    obtain ⟨piece, hpiece, heq⟩ := List.mem_map.1 hc
    have hnil : piece = [] := by rw [← Component.chars_ofChars piece, heq]; rfl
    rw [splitDots_eq_splitOn, hnil] at hpiece
    exact h.elim (fun hbody => hne (by simp [hbody])) (fun hgap => hgap hpiece)

theorem Solid.join {p q : Path} (hp : p.Solid) (hq : q.Solid) : (p.join q).Solid := by
  intro c hc
  rcases List.mem_append.1 hc with hc | hc
  · exact hp c (List.mem_of_mem_take hc)
  · exact hq c (List.mem_of_mem_drop hc)

theorem Solid.tail {p : Path} (h : p.Solid) : p.tail.Solid :=
  fun c hc => h c (List.mem_of_mem_tail hc)

theorem Solid.apply {p : Path} (h : p.Solid) {step : Step} (hstep : ∀ s ∈ step.text?, Gapless s) :
    (step.apply p).Solid := by
  cases step with
  | replace s => exact solid_parse (hstep s rfl)
  | append s => exact h.join (solid_parse (hstep s rfl))
  | prepend s => exact (solid_parse (hstep s rfl)).join h
  | tail => exact h.tail
  | reread =>
      have hself : Step.apply p .reread = p := h.spelled
      rwa [hself]

/-- Steps from a path whose components stand by themselves never leave such paths, where reading again
does nothing. -/
theorem Solid.foldl_apply {p : Path} (h : p.Solid) {steps : List Step}
    (hsteps : ∀ step ∈ steps, ∀ s ∈ step.text?, Gapless s) :
    (steps.foldl Step.apply p).Solid ∧
      (steps.filter (· ≠ .reread)).foldl Step.apply p = steps.foldl Step.apply p := by
  induction steps generalizing p with
  | nil => exact ⟨h, rfl⟩
  | cons step steps ih =>
      obtain ⟨hstep, hrest⟩ := List.forall_mem_cons.1 hsteps
      have hnext := ih (h.apply hstep) hrest
      rw [List.foldl_cons]
      refine ⟨hnext.1, ?_⟩
      by_cases hreread : step = .reread
      · subst hreread
        have hself : Step.apply p .reread = p := h.spelled
        rw [List.filter_cons_of_neg (by simp), ← hnext.2, hself]
      · rw [List.filter_cons_of_pos (by simpa using hreread), List.foldl_cons, hnext.2]

theorem solid_root : root.Solid := nofun

/-- As long as no text leaves a gap between its dots, the path is at every point the one that its text
stands for, and the same as if it had been read again at any other points or at none. -/
theorem run_spelled {steps : List Step}
    (h : ∀ step ∈ steps, ∀ s ∈ step.text?, Gapless s) :
    ∀ before, before <+: steps → (run before).Spelled ∧
      ∀ others : List Step, others.filter (· ≠ .reread) = before.filter (· ≠ .reread) →
        run others = run before := by
  intro before hbefore
  have hsteps : ∀ step ∈ before, ∀ s ∈ step.text?, Gapless s :=
    fun step hstep => h step (hbefore.subset hstep)
  refine ⟨(solid_root.foldl_apply hsteps).1.spelled, fun others heq => ?_⟩
  have hothers : ∀ step ∈ others, ∀ s ∈ step.text?, Gapless s := by
    intro step hstep s hs
    have hkept : step ∈ others.filter (· ≠ .reread) := by
      refine List.mem_filter.2 ⟨hstep, decide_eq_true ?_⟩
      rintro rfl
      cases hs
    rw [heq] at hkept
    exact hsteps step (List.mem_filter.1 hkept).1 s hs
  calc run others
      = run (others.filter (· ≠ .reread)) := (solid_root.foldl_apply hothers).2.symm
    _ = run (before.filter (· ≠ .reread)) := by rw [heq]
    _ = run before := (solid_root.foldl_apply hsteps).2

/-- The second path climbs past the root of the first, and an empty relative path stands before both. -/
theorem run_spelled_past_root :
    let steps : List Step := [.replace "knot.007", .append ".^.^.^.x.18446744073709551616", .reread,
      .prepend ".", .tail, .append "^.3"]
    (∀ step ∈ steps, ∀ s ∈ step.text?, Gapless s) ∧ (run steps).Spelled ∧
      run (steps.filter (· ≠ .reread)) = run steps := by
  intro steps
  have h : ∀ step ∈ steps, ∀ s ∈ step.text?, Gapless s := by
    decide
  obtain ⟨hspelled, hothers⟩ := run_spelled h steps List.prefix_rfl
  exact ⟨h, hspelled, hothers _ (by decide)⟩

/-- A gap that the tail brings to the front is read as the mark of a relative path. -/
example : (parse "a..b").tail.reread ≠ (parse "a..b").tail := by
  decide

end StoryCodec.Path
