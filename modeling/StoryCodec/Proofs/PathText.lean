import StoryCodec.Story.Path

namespace StoryCodec

theorem Component.chars_ofChars (cs : List Char) : (Component.ofChars cs).chars = cs := by
  rw [Component.ofChars]
  split
  next h =>
    obtain ⟨hn, hcs⟩ := h
    rw [Component.chars, UInt64.toNat_ofNat_of_lt' hn]
    exact hcs.symm
  next => simp [Component.chars]

/-- A component is read back from its text unless it is a name that spells a number. -/
theorem Component.ofChars_chars_iff (c : Component) :
    ofChars c.chars = c ↔ ∀ n < UInt64.size, c ≠ .name (Nat.repr n) := by
  cases c with
  | index n =>
      refine iff_of_true ?_ fun _ _ h => nomatch h
      rw [chars, ofChars, Nat.ofDigitChars_ten_toDigits]
      rw [if_pos ⟨n.toNat_lt, rfl⟩, UInt64.ofNat_toNat]
  | name text =>
      rw [chars, ofChars]
      constructor
      · rintro h n hn ⟨⟩
        rw [Nat.repr, String.toList_ofList, Nat.ofDigitChars_ten_toDigits, if_pos ⟨hn, rfl⟩] at h
        cases h
      · intro h
        split
        next hn =>
          refine absurd ?_ (h _ hn.1)
          rw [Nat.repr, ← hn.2, String.ofList_toList]
        next => rw [String.ofList_toList]

theorem Component.chars_eq_nil_iff (c : Component) : c.chars = [] ↔ c = .name "" := by
  cases c with
  | index n => simp [chars, Nat.toDigits_ne_nil]
  | name text => simp [chars]

namespace Path

theorem splitDots_ne_nil (cs : List Char) : splitDots cs ≠ [] := by
  fun_cases splitDots cs <;> simp_all

theorem splitDots_eq_splitOn (cs : List Char) : splitDots cs = cs.splitOn '.' := by
  fun_induction splitDots cs with
  | case1 => rfl
  | case2 cs ih => rw [List.splitOn_cons_eq_if_modifyHead, if_pos (by simp), ih]
  | case3 c cs hc h => exact absurd h (splitDots_ne_nil cs)
  | case4 c cs hc piece pieces h ih =>
      rw [List.splitOn_cons_eq_if_modifyHead, if_neg (by simpa using hc), ← ih, h]
      rfl

theorem joinDots_eq_intercalate (pieces : List (List Char)) :
    joinDots pieces = ['.'].intercalate pieces := by
  fun_induction joinDots pieces with
  | case1 => rfl
  | case2 piece => simp
  | case3 piece pieces hne ih =>
      cases pieces with
      | nil => exact absurd rfl hne
      | cons next pieces => simp [List.intercalate_cons_cons, ih]

theorem joinDots_splitDots (cs : List Char) : joinDots (splitDots cs) = cs := by
  rw [splitDots_eq_splitOn, joinDots_eq_intercalate]
  exact List.intercalate_splitOn '.'

theorem joinDots_componentsOf (cs : List Char) :
    joinDots ((componentsOf cs).map Component.chars) = cs := by
  rw [componentsOf]
  split
  next h => simp_all [joinDots]
  next =>
    rw [List.map_map]
    simp [Function.comp_def, Component.chars_ofChars, joinDots_splitDots]

theorem chars_ofChars (cs : List Char) : (ofChars cs).chars = cs := by
  fun_cases ofChars cs <;> simp [chars, joinDots_componentsOf]

/-- No text is changed by being read as a path. -/
theorem text_parse (s : String) : (parse s).text = s := by
  rw [text, parse, chars_ofChars, String.ofList_toList]

def reread (p : Path) : Path := parse p.text

/-- A path is spelled if its text stands for it and not for another. -/
def Spelled (p : Path) : Prop := p.reread = p

theorem spelled_parse (s : String) : (parse s).Spelled :=
  congrArg parse (text_parse s)

theorem splitDots_joinDots {pieces : List (List Char)} (hne : pieces ≠ [])
    (hdot : ∀ piece ∈ pieces, '.' ∉ piece) : splitDots (joinDots pieces) = pieces := by
  rw [splitDots_eq_splitOn, joinDots_eq_intercalate]
  exact List.splitOn_intercalate '.' hdot hne

theorem notMem_of_mem_splitDots {cs piece : List Char} (h : piece ∈ splitDots cs) : '.' ∉ piece := by
  fun_induction splitDots cs generalizing piece with
  | case1 => simp_all
  | case2 cs ih =>
      rcases List.mem_cons.1 h with rfl | h
      · exact List.not_mem_nil
      · exact ih h
  | case3 c cs hc hsplit => exact absurd hsplit (splitDots_ne_nil cs)
  | case4 c cs hc first pieces hsplit ih =>
      rw [hsplit] at ih
      rcases List.mem_cons.1 h with rfl | h
      · have hfirst := ih List.mem_cons_self
        simp only [List.mem_cons, not_or]
        exact ⟨fun heq => hc heq.symm, hfirst⟩
      · exact ih (List.mem_cons_of_mem _ h)

theorem mem_componentsOf {cs : List Char} {c : Component} (h : c ∈ componentsOf cs) :
    Component.ofChars c.chars = c ∧ '.' ∉ c.chars := by
  rw [componentsOf] at h
  split at h
  next => simp at h
  next =>
    obtain ⟨piece, hpiece, rfl⟩ := List.mem_map.1 h
    rw [Component.chars_ofChars]
    exact ⟨rfl, notMem_of_mem_splitDots hpiece⟩

theorem componentsOf_ne_blank (cs : List Char) : componentsOf cs ≠ [.name ""] := by
  intro h
  have hcs := joinDots_componentsOf cs
  rw [h] at hcs
  rw [← hcs] at h
  simp [joinDots, componentsOf, Component.chars] at h

theorem head?_componentsOf_ne {cs : List Char} (h : cs.head? ≠ some '.') :
    (componentsOf cs).head? ≠ some (.name "") := by
  intro hblank
  obtain ⟨rest, hrest⟩ := List.head?_eq_some_iff.1 hblank
  have hcs := joinDots_componentsOf cs
  cases rest with
  | nil => exact componentsOf_ne_blank cs hrest
  | cons next rest =>
      rw [hrest] at hcs
      exact h (hcs ▸ rfl)

theorem componentsOf_joinDots {components : List Component} (hblank : components ≠ [.name ""])
    (hread : ∀ c ∈ components, Component.ofChars c.chars = c)
    (hdot : ∀ c ∈ components, '.' ∉ c.chars) :
    componentsOf (joinDots (components.map Component.chars)) = components := by
  cases components with
  | nil => rfl
  | cons first rest =>
      have hsplit : splitDots (joinDots ((first :: rest).map Component.chars)) =
          (first :: rest).map Component.chars :=
        splitDots_joinDots (by simp) (by simpa using hdot)
      -- An empty text has one empty piece, so only the list left out is written as nothing.
      have hne : joinDots ((first :: rest).map Component.chars) ≠ [] := by
        intro hnil
        rw [hnil] at hsplit
        obtain ⟨hfirst, hrest⟩ := List.cons.inj hsplit
        apply hblank
        rw [(Component.chars_eq_nil_iff first).1 hfirst.symm, List.map_eq_nil_iff.1 hrest.symm]
      rw [componentsOf, if_neg (by simpa using hne), hsplit, List.map_map]
      exact (List.map_congr_left hread).trans (List.map_id _)

theorem ofChars_of_head?_ne {cs : List Char} (h : cs.head? ≠ some '.') :
    ofChars cs = ⟨false, componentsOf cs⟩ := by
  fun_cases ofChars cs with
  | case1 => exact absurd rfl h
  | case2 => rfl

/-- No name hides a dot or spells an index, and no empty name stands where it would leave no trace or
where the dot after it would make the path relative. -/
structure Legible (p : Path) : Prop where
  noDot : ∀ name, .name name ∈ p.components → '.' ∉ name.toList
  noNumeral : ∀ name, .name name ∈ p.components → ∀ n < UInt64.size, name ≠ Nat.repr n
  notBlank : p.components ≠ [.name ""]
  notMarked : p.relative ∨ p.components.head? ≠ some (.name "")

theorem legible_componentsOf {relative : Bool} {cs : List Char}
    (h : relative ∨ cs.head? ≠ some '.') : Legible ⟨relative, componentsOf cs⟩ where
  noDot _ hname := (mem_componentsOf hname).2
  noNumeral name hname n hn heq :=
    (Component.ofChars_chars_iff (.name name)).1 (mem_componentsOf hname).1 n hn (congrArg _ heq)
  notBlank := componentsOf_ne_blank cs
  notMarked := h.imp_right head?_componentsOf_ne

theorem legible_ofChars (cs : List Char) : (ofChars cs).Legible := by
  fun_cases ofChars cs with
  | case1 cs => exact legible_componentsOf (.inl rfl)
  | case2 cs hdot =>
      refine legible_componentsOf (.inr fun hhead => ?_)
      obtain ⟨rest, rfl⟩ := List.head?_eq_some_iff.1 hhead
      exact hdot rest rfl

theorem head?_joinDots_ne {pieces : List (List Char)} (hdot : ∀ piece ∈ pieces, '.' ∉ piece)
    (hempty : pieces.head? ≠ some []) : (joinDots pieces).head? ≠ some '.' := by
  cases pieces with
  | nil => simp [joinDots]
  | cons piece pieces =>
      cases piece with
      | nil => exact absurd rfl hempty
      | cons c cs =>
          have hc : c ≠ '.' := fun h => hdot _ List.mem_cons_self (h ▸ List.mem_cons_self)
          cases pieces <;> simpa [joinDots] using hc

theorem Legible.ofChars_chars {p : Path} (h : p.Legible) : ofChars p.chars = p := by
  obtain ⟨relative, components⟩ := p
  have hread : ∀ c ∈ components, Component.ofChars c.chars = c := by
    intro c hc
    refine (Component.ofChars_chars_iff c).2 fun n hn heq => ?_
    subst heq
    exact h.noNumeral _ hc n hn rfl
  have hdot : ∀ c ∈ components, '.' ∉ c.chars := by
    intro c hc
    cases c with
    | index n =>
        intro hmem
        exact absurd (Nat.isDigit_of_mem_toDigits (by decide) (by decide) hmem) (by decide)
    | name text => exact h.noDot text hc
  have hcomponents := componentsOf_joinDots h.notBlank hread hdot
  cases relative with
  | true => exact congrArg (Path.mk true) hcomponents
  | false =>
      have hempty : (components.map Component.chars).head? ≠ some [] := by
        intro hempty
        rw [List.head?_map] at hempty
        obtain ⟨first, hfirst, hnil⟩ := Option.map_eq_some_iff.1 hempty
        rw [Component.chars_eq_nil_iff] at hnil
        exact h.notMarked.elim nofun (absurd (hnil ▸ hfirst))
      have hhead := head?_joinDots_ne (by simpa using hdot) hempty
      exact (ofChars_of_head?_ne hhead).trans (congrArg (Path.mk false) hcomponents)

/-- No text is changed by being read as a path, and the paths that come back from their texts are the
legible ones. -/
theorem parse_text_iff_legible :
    (∀ s, (parse s).text = s) ∧ ∀ p : Path, parse p.text = p ↔ p.Legible := by
  refine ⟨text_parse, fun p => ?_⟩
  rw [parse, text, String.toList_ofList]
  exact ⟨fun h => h ▸ legible_ofChars p.chars, Legible.ofChars_chars⟩

end Path

end StoryCodec
