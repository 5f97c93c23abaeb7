import StoryCodec.Proofs.Decoded
import StoryCodec.Proofs.NumberText
import StoryCodec.Proofs.Tokens

namespace StoryCodec.Json

theorem hexValue?_digitChar : ∀ d < 16, hexValue? (Nat.digitChar d) = some d := by
  decide

theorem readText_escape (c : Char) (rest : List Char) :
    readText (escape c ++ rest) = push c (readText rest) := by
  rw [escape]
  split
  next h => subst h; rfl
  split
  next h => subst h; rfl
  split
  next h => subst h; rfl
  split
  next h => subst h; rfl
  split
  next h => subst h; rfl
  split
  next h => subst h; rfl
  split
  next h => subst h; rfl
  split
  next h =>
    have hlt : c.toNat < 32 := h
    have hunit : unit? '0' '0' (Nat.digitChar (c.toNat / 16)) (Nat.digitChar (c.toNat % 16)) =
        some c.toNat := by
      have hhigh := hexValue?_digitChar (c.toNat / 16) (by omega)
      have hlow := hexValue?_digitChar (c.toNat % 16) (by omega)
      have hzero : hexValue? '0' = some 0 := rfl
      simp [unit?, hhigh, hlow, hzero]
      omega
    have hhigh : isHigh c.toNat = false := by simp [isHigh]; omega
    have hlow : isLow c.toNat = false := by simp [isLow]; omega
    simp only [List.cons_append, List.nil_append]
    rw [readText]
    simp [hunit, hhigh, hlow, Char.ofNat_toNat]
  next hquote hslash _ _ _ _ _ hcontrol =>
    rw [List.singleton_append, readText.eq_def]
    split <;> simp_all

theorem readString_writeString (s : String) (rest : List Char) :
    readString (writeString s ++ rest) = some (s, rest) := by
  have htext : ∀ cs : List Char, readText (cs.flatMap escape ++ '"' :: rest) = some (cs, rest) := by
    intro cs
    induction cs with
    | nil => rfl
    | cons c cs ih =>
        rw [List.flatMap_cons, List.append_assoc, readText_escape, ih]
        rfl
  rw [writeString, List.cons_append, List.append_assoc, readString]
  simp only [List.cons_append, List.nil_append, htext]
  simp

def isSpace (c : Char) : Bool :=
  c = ' ' || c = '\t' || c = '\n' || c = '\r'

/-- Blanks in front of a value, or none. -/
def Spaces (cs : List Char) : Prop :=
  ∀ c ∈ cs, isSpace c

theorem skipBlanks_append {spaces : List Char} (h : Spaces spaces) (cs : List Char) :
    skipBlanks (spaces ++ cs) = skipBlanks cs :=
  List.dropWhile_append_of_pos h

theorem skipBlanks_cons {c : Char} (h : isSpace c = false) (cs : List Char) :
    skipBlanks (c :: cs) = c :: cs :=
  List.dropWhile_cons_of_neg (by simpa [isSpace] using h)

theorem isNumeric_of_isSpace {c : Char} (h : isSpace c) : isNumeric c = false := by
  simp only [isSpace, Bool.or_eq_true, decide_eq_true_eq] at h
  rcases h with ((rfl | rfl) | rfl) | rfl <;> rfl

/-- A reader takes a value off the front of a text that begins with it, after blanks or none, or
refuses the value whatever comes after. -/
def ReadsBack {α : Type} (item : Reader α) (text : List Char) (a : α) (accepted : Bool) : Prop :=
  ∀ spaces rest, Spaces spaces → Stops isNumeric rest →
    item (spaces ++ (text ++ rest)) = if accepted then some (a, rest) else none

/-- The first character of a value tells it from blanks and from the end of a sequence. -/
def Opens (text : List Char) : Prop :=
  ∃ c cs, text = c :: cs ∧ isSpace c = false ∧ c ≠ ']' ∧ c ≠ '\x7d'

section

variable {α : Type} {item : Reader α} {close : Char} {text : α → List Char} {accepted : α → Bool}
  {separator last : List Char} {bound : Nat}

/-- What stands in a sequence after its first item. -/
def others (text : α → List Char) (separator : List Char) (as : List α) : List Char :=
  as.flatMap fun a => ',' :: (separator ++ text a)

theorem readItems_others (hclose : close = ']' ∨ close = '\x7d') (hseparator : Spaces separator)
    (hlast : Spaces last) {a : α} {as : List α}
    (h : ∀ b ∈ a :: as, ReadsBack item (text b) b (accepted b)) (hbound : as.length < bound)
    {spaces : List Char} (hspaces : Spaces spaces) (rest : List Char) :
    readItems item close bound
        (spaces ++ (text a ++ (others text separator as ++ (last ++ close :: rest)))) =
      if (a :: as).all accepted then some (a :: as, rest) else none := by
  induction as generalizing a bound spaces with
  | nil =>
      obtain ⟨bound, rfl⟩ := Nat.exists_eq_succ_of_ne_zero hbound.ne'
      have hend : skipBlanks (last ++ close :: rest) = close :: rest := by
        rw [skipBlanks_append hlast]
        rcases hclose with rfl | rfl <;> exact skipBlanks_cons rfl rest
      have hstops : Stops isNumeric (last ++ close :: rest) := by
        cases last with
        | nil => rcases hclose with rfl | rfl <;> (rintro c ⟨⟩; rfl)
        | cons c last =>
            rintro c ⟨⟩
            exact isNumeric_of_isSpace (hlast _ List.mem_cons_self)
      rw [readItems, others, List.flatMap_nil, List.nil_append,
        h a List.mem_cons_self spaces _ hspaces hstops]
      cases haccepted : accepted a with
      | false => simp [haccepted]
      | true => rcases hclose with rfl | rfl <;> simp [haccepted, hend]
  | cons b bs ih =>
      obtain ⟨bound, rfl⟩ := Nat.exists_eq_succ_of_ne_zero (Nat.ne_of_gt (Nat.zero_lt_of_lt hbound))
      have hrest := ih (a := b) (fun c hc => h c (List.mem_cons_of_mem _ hc))
        (Nat.lt_of_succ_lt_succ hbound) hseparator
      have hstops :
          Stops isNumeric (others text separator (b :: bs) ++ (last ++ close :: rest)) := by
        rintro c ⟨⟩
        rfl
      rw [readItems, h a List.mem_cons_self spaces _ hspaces hstops]
      have hcomma : skipBlanks (others text separator (b :: bs) ++ (last ++ close :: rest)) =
          ',' :: (separator ++ (text b ++ (others text separator bs ++
            (last ++ close :: rest)))) := by
        rw [others, List.flatMap_cons, List.cons_append, List.cons_append, skipBlanks_cons rfl]
        simp [others]
      cases haccepted : accepted a with
      | false => simp [haccepted]
      | true =>
          simp only [if_true, Option.bind_eq_bind, Option.bind_some, hcomma, hrest]
          by_cases hall : (b :: bs).all accepted
          · simp [haccepted, hall]
          · simp [haccepted, hall]

theorem readSequence_others (hclose : close = ']' ∨ close = '\x7d') (hseparator : Spaces separator)
    (hlast : Spaces last) {a : α} {as : List α}
    (h : ∀ b ∈ a :: as, ReadsBack item (text b) b (accepted b)) (hopens : Opens (text a))
    (hbound : as.length < bound) (rest : List Char) :
    readSequence item close bound
        (separator ++ (text a ++ (others text separator as ++ (last ++ close :: rest)))) =
      if (a :: as).all accepted then some (a :: as, rest) else none := by
  have hnone : Spaces [] := nofun
  have hitems := readItems_others hclose hseparator hlast h hbound hnone rest
  obtain ⟨c, cs, htext, hspace, hbracket, hbrace⟩ := hopens
  have hne : c ≠ close := by rcases hclose with rfl | rfl <;> assumption
  rw [readSequence, skipBlanks_append hseparator]
  rw [htext] at hitems ⊢
  rw [List.cons_append, skipBlanks_cons hspace]
  simpa [hne] using hitems

/-- A sequence in brackets is read back if all of its items are accepted. -/
theorem readsBack_others {value : Reader Json} {opening : Char} (wrap : List α → Json)
    (hvalue : ∀ spaces cs, Spaces spaces → value (spaces ++ opening :: cs) =
      (readSequence item close bound cs).map fun (as, cs) => (wrap as, cs))
    (hclose : close = ']' ∨ close = '\x7d') (hseparator : Spaces separator) (hlast : Spaces last)
    {a : α} {as : List α} (h : ∀ b ∈ a :: as, ReadsBack item (text b) b (accepted b))
    (hopens : Opens (text a)) (hbound : as.length < bound) :
    ReadsBack value
      (opening :: (separator ++ text a ++ others text separator as ++ last ++ [close]))
      (wrap (a :: as)) ((a :: as).all accepted) := by
  intro spaces rest hspaces _
  have hsequence := readSequence_others hclose hseparator hlast h hopens hbound rest
  have htext : separator ++ text a ++ others text separator as ++ last ++ [close] ++ rest =
      separator ++ (text a ++ (others text separator as ++ (last ++ close :: rest))) := by simp
  rw [List.cons_append, hvalue spaces _ hspaces, htext, hsequence]
  cases (a :: as).all accepted <;> rfl

theorem length_le_others (text : α → List Char) (separator : List Char) (as : List α) :
    as.length ≤ (others text separator as).length ∧
      ∀ a ∈ as, (text a).length ≤ (others text separator as).length := by
  induction as with
  | nil => simp
  | cons a as ih =>
      simp only [others, List.flatMap_cons, List.length_append, List.length_cons,
        List.forall_mem_cons]
      simp only [others] at ih
      refine ⟨by omega, by omega, fun b hb => ?_⟩
      have hlength := ih.2 b hb
      omega

end

/-- What a layout puts between the parts of a text is blank. -/
structure Layout.Blank (layout : Layout) : Prop where
  lineBreak : ∀ depth, Spaces (layout.lineBreak depth)
  colon : ∃ spaces, layout.colon = ':' :: spaces ∧ Spaces spaces

theorem blank_compact : Layout.compact.Blank :=
  ⟨nofun, [], rfl, nofun⟩

theorem blank_indented : Layout.indented.Blank := by
  refine ⟨fun depth c hc => ?_, [' '], rfl, ?_⟩
  · rcases List.mem_cons.1 hc with rfl | hc
    · rfl
    · rw [List.eq_of_mem_replicate hc]
      rfl
  · intro c hc
    rw [List.mem_singleton.1 hc]
    rfl

def writeField (layout : Layout) (depth : Nat) (e : String × Json) : List Char :=
  writeString e.1 ++ (layout.colon ++ writeValue layout depth e.2)

theorem writeItems_eq_others (layout : Layout) (depth : Nat) (items : List Json) :
    writeItems layout depth items =
      others (writeValue layout depth) (layout.lineBreak depth) items := by
  induction items with
  | nil => rfl
  | cons t items ih => simp [writeItems, others, ih]

theorem writeFields_eq_others (layout : Layout) (depth : Nat) (fields : List (String × Json)) :
    writeFields layout depth fields =
      others (writeField layout depth) (layout.lineBreak depth) fields := by
  induction fields with
  | nil => rfl
  | cons e fields ih => simp [writeFields, writeField, others, ih]

theorem opens_of_isNumeric {c : Char} (h : isNumeric c) (cs : List Char) : Opens (c :: cs) := by
  refine ⟨c, cs, rfl, ?_, ?_, ?_⟩
  · by_contra hspace
    rw [isNumeric_of_isSpace (by simpa using hspace)] at h
    cases h
  · rintro rfl
    exact absurd h (by decide)
  · rintro rfl
    exact absurd h (by decide)

theorem exists_writeNumber (n : Number) : ∃ c cs, writeNumber n = c :: cs ∧ isNumeric c := by
  have hregular := regular_numeralOf n
  have hne : (numeralOf n).text ≠ [] := by simp [Numeral.text, hregular.some_digit]
  obtain ⟨c, cs, htext⟩ := List.exists_cons_of_ne_nil hne
  refine ⟨c, cs, by rw [writeNumber_eq_text, htext], ?_⟩
  exact isNumeric_of_mem_text hregular (htext ▸ List.mem_cons_self)

theorem opens_writeValue (layout : Layout) (depth : Nat) (t : Json) :
    Opens (writeValue layout depth t) := by
  cases t with
  | null => exact ⟨_, _, rfl, rfl, by decide, by decide⟩
  | bool b => cases b <;> exact ⟨_, _, rfl, rfl, by decide, by decide⟩
  | num n =>
      obtain ⟨c, cs, hnumber, hc⟩ := exists_writeNumber n
      rw [writeValue, hnumber]
      exact opens_of_isNumeric hc cs
  | str s => exact ⟨_, _, rfl, rfl, by decide, by decide⟩
  | arr items => cases items <;> exact ⟨_, _, rfl, rfl, by decide, by decide⟩
  | obj fields => cases fields <;> exact ⟨_, _, rfl, rfl, by decide, by decide⟩

theorem opens_writeField (layout : Layout) (depth : Nat) (e : String × Json) :
    Opens (writeField layout depth e) :=
  ⟨_, _, rfl, rfl, by decide, by decide⟩

theorem readsBack_writeField {value : Reader Json} {layout : Layout} (hlayout : layout.Blank)
    {depth : Nat} {e : String × Json} {accepted : Bool}
    (h : ReadsBack value (writeValue layout depth e.2) e.2 accepted) :
    ReadsBack (readField value) (writeField layout depth e) e accepted := by
  intro spaces rest hspaces hrest
  obtain ⟨more, hcolon, hmore⟩ := hlayout.colon
  have hvalue := h more rest hmore hrest
  rw [readField, skipBlanks_append hspaces]
  have hkey : skipBlanks (writeField layout depth e ++ rest) = writeField layout depth e ++ rest :=
    skipBlanks_cons rfl _
  rw [hkey, writeField, List.append_assoc, readString_writeString, hcolon]
  have hafter : skipBlanks (':' :: more ++ writeValue layout depth e.2 ++ rest) =
      ':' :: (more ++ (writeValue layout depth e.2 ++ rest)) := by
    simp [skipBlanks_cons (c := ':') rfl]
  simp only [Option.bind_eq_bind, Option.bind_some, hafter, hvalue]
  cases accepted <;> rfl

theorem readScalar_of_isNumeric {c : Char} (h : isNumeric c) (cs : List Char) :
    readScalar (c :: cs) = (readNumber (c :: cs)).map fun (n, cs) => (.num n, cs) := by
  rw [readScalar.eq_def]
  split
  case h_5 => rfl
  all_goals
    next heq =>
      cases heq
      exact absurd h (by decide)

theorem readValue_of_scalar {spaces : List Char} (hspaces : Spaces spaces) {c : Char}
    (hspace : isSpace c = false) (hbracket : c ≠ '[') (hbrace : c ≠ '\x7b') (bound levels : Nat)
    (cs : List Char) : readValue bound levels (spaces ++ c :: cs) = readScalar (c :: cs) := by
  have hskip : skipBlanks (spaces ++ c :: cs) = c :: cs := by
    rw [skipBlanks_append hspaces, skipBlanks_cons hspace]
  cases levels with
  | zero => rw [readValue, hskip]
  | succ levels =>
      rw [readValue, hskip]
      split
      next h => exact absurd (List.cons.inj h).1 hbracket
      next h => exact absurd (List.cons.inj h).1 hbrace
      next => rfl

/-- Where no level is left, no array and no record is read. -/
theorem readValue_zero_bracket {spaces : List Char} (hspaces : Spaces spaces) {c : Char}
    (h : c = '[' ∨ c = '\x7b') (bound : Nat) (cs : List Char) :
    readValue bound 0 (spaces ++ c :: cs) = none := by
  rcases h with rfl | rfl
  · rw [readValue, skipBlanks_append hspaces, skipBlanks_cons rfl]
    rfl
  · rw [readValue, skipBlanks_append hspaces, skipBlanks_cons rfl]
    rfl

theorem readValue_bracket {spaces : List Char} (hspaces : Spaces spaces) (bound levels : Nat)
    (cs : List Char) : readValue bound (levels + 1) (spaces ++ '[' :: cs) =
      (readSequence (readValue bound levels) ']' bound cs).map
        fun (items, cs) => (.arr items, cs) := by
  rw [readValue, skipBlanks_append hspaces, skipBlanks_cons rfl]
  rfl

theorem readValue_brace {spaces : List Char} (hspaces : Spaces spaces) (bound levels : Nat)
    (cs : List Char) : readValue bound (levels + 1) (spaces ++ '\x7b' :: cs) =
      (readSequence (readField (readValue bound levels)) '\x7d' bound cs).map fun (fields, cs) =>
        (.obj (Fields.ofEntries fields), cs) := by
  rw [readValue, skipBlanks_append hspaces, skipBlanks_cons rfl]
  rfl

theorem readsBack_scalar {layout : Layout} {depth : Nat} {t : Json} (harr : ∀ items, t ≠ .arr items)
    (hobj : ∀ fields, t ≠ .obj fields) (bound levels : Nat) :
    ReadsBack (readValue bound levels) (writeValue layout depth t) t (t.nesting ≤ levels) := by
  intro spaces rest hspaces hrest
  have hnesting : t.nesting ≤ levels := nesting_of_scalar harr hobj ▸ Nat.zero_le levels
  rw [if_pos (decide_eq_true hnesting)]
  cases t with
  | null => exact readValue_of_scalar hspaces rfl (by decide) (by decide) _ _ _
  | bool b => cases b <;> exact readValue_of_scalar hspaces rfl (by decide) (by decide) _ _ _
  | num n =>
      obtain ⟨c, cs, hnumber, hc⟩ := exists_writeNumber n
      have hread := readNumber_writeNumber n hrest
      obtain ⟨_, _, ⟨⟩, hspace, -, -⟩ := opens_of_isNumeric hc cs
      have hbracket : c ≠ '[' := by rintro rfl; exact absurd hc (by decide)
      have hbrace : c ≠ '\x7b' := by rintro rfl; exact absurd hc (by decide)
      rw [writeValue, hnumber, List.cons_append,
        readValue_of_scalar hspaces hspace hbracket hbrace, readScalar_of_isNumeric hc]
      rw [hnumber, List.cons_append] at hread
      rw [hread]
      rfl
  | str s =>
      rw [writeValue, writeString, List.cons_append,
        readValue_of_scalar hspaces rfl (by decide) (by decide), readScalar]
      have hread := readString_writeString s rest
      rw [writeString, List.cons_append] at hread
      rw [hread]
      rfl
  | arr items => exact absurd rfl (harr items)
  | obj fields => exact absurd rfl (hobj fields)

theorem readsBack_zero {text : List Char} {c : Char} (h : c = '[' ∨ c = '\x7b') (t : Json) {n : Nat}
    (ht : t.nesting = n + 1) (bound : Nat) :
    ReadsBack (readValue bound 0) (c :: text) t (t.nesting ≤ 0) := by
  intro spaces rest hspaces _
  rw [if_neg (by simp [ht])]
  exact readValue_zero_bracket hspaces h bound _

/-- A text that was written is read back as it was, unless arrays and records are nested too deep in
it. -/
theorem readsBack_writeValue {layout : Layout} (hlayout : layout.Blank) {t : Json}
    (distinct : t.Distinct) {bound depth : Nat}
    (hbound : (writeValue layout depth t).length ≤ bound) (levels : Nat) :
    ReadsBack (readValue bound levels) (writeValue layout depth t) t (t.nesting ≤ levels) := by
  induction t using Json.token_induction generalizing depth levels with
  | null | bool | num | str => exact readsBack_scalar (by nofun) (by nofun) bound levels
  | arr items ih =>
      cases levels with
      | zero => cases items <;> exact readsBack_zero (.inl rfl) _ rfl bound
      | succ levels =>
          cases items with
          | nil =>
              intro spaces rest hspaces _
              exact readValue_bracket hspaces bound levels _
          | cons item items =>
              have hlength := length_le_others (writeValue layout (depth + 1))
                (layout.lineBreak (depth + 1)) items
              rw [writeValue, writeItems_eq_others] at hbound ⊢
              simp only [List.length_cons, List.length_append] at hbound
              have hitems : ∀ t ∈ item :: items, ReadsBack (readValue bound levels)
                  (writeValue layout (depth + 1) t) t (t.nesting ≤ levels) := by
                intro t ht
                refine ih t ht (distinct.item ht) ?_ levels
                rcases List.mem_cons.1 ht with rfl | ht
                · omega
                · have := hlength.2 t ht
                  omega
              rw [← all_nesting_arr]
              exact readsBack_others .arr
                (fun spaces cs hspaces => readValue_bracket hspaces bound levels cs) (.inl rfl)
                (hlayout.lineBreak _) (hlayout.lineBreak _) hitems
                (opens_writeValue layout _ item) (by omega)
  | obj fields ih =>
      cases levels with
      | zero => cases fields <;> exact readsBack_zero (.inr rfl) _ rfl bound
      | succ levels =>
          cases fields with
          | nil =>
              intro spaces rest hspaces _
              exact readValue_brace hspaces bound levels _
          | cons field fields =>
              have htext : writeValue layout depth (.obj (field :: fields)) =
                  '\x7b' :: (layout.lineBreak (depth + 1) ++ writeField layout (depth + 1) field ++
                    others (writeField layout (depth + 1)) (layout.lineBreak (depth + 1)) fields ++
                    layout.lineBreak depth ++ ['\x7d']) := by
                simp [writeValue, writeField, writeFields_eq_others]
              have hlength := length_le_others (writeField layout (depth + 1))
                (layout.lineBreak (depth + 1)) fields
              rw [htext] at hbound ⊢
              simp only [List.length_cons, List.length_append] at hbound
              have hfields : ∀ e ∈ field :: fields, ReadsBack (readField (readValue bound levels))
                  (writeField layout (depth + 1) e) e (e.2.nesting ≤ levels) := by
                intro e he
                refine readsBack_writeField hlayout (ih e he (distinct.field he) ?_ levels)
                have hvalue : (writeValue layout (depth + 1) e.2).length ≤
                    (writeField layout (depth + 1) e).length := by
                  simp only [writeField, List.length_append]
                  omega
                rcases List.mem_cons.1 he with rfl | he
                · omega
                · have := hlength.2 e he
                  omega
              have hcount : fields.length < bound := by omega
              have hread := readsBack_others (fun fields => .obj (Fields.ofEntries fields))
                (fun spaces cs hspaces => readValue_brace hspaces bound levels cs) (.inr rfl)
                (hlayout.lineBreak (depth + 1)) (hlayout.lineBreak depth) hfields
                (opens_writeField layout _ field) hcount
              rwa [Fields.ofEntries_eq_self distinct.nodup, all_nesting_obj] at hread

/-- A document with blanks behind it is read as the token it was written from, if it is not nested
too deep. -/
theorem read?_writeValue {layout : Layout} (hlayout : layout.Blank) {t : Json}
    (distinct : t.Distinct) {spaces : List Char} (hspaces : Spaces spaces) :
    read? (String.ofList (writeValue layout 0 t ++ spaces)) =
      if t.nesting ≤ maxLevels then some t else none := by
  have hbound : (writeValue layout 0 t).length ≤ (writeValue layout 0 t ++ spaces).length := by simp
  have hstops : Stops isNumeric spaces := by
    intro c hc
    exact isNumeric_of_isSpace (hspaces c (List.mem_of_mem_head? hc))
  have hend : skipBlanks spaces = [] := by
    rw [← List.append_nil spaces, skipBlanks_append hspaces]
    rfl
  have hread := readsBack_writeValue hlayout distinct hbound maxLevels [] spaces nofun hstops
  rw [List.nil_append] at hread
  rw [read?, String.toList_ofList, hread]
  by_cases hnesting : t.nesting ≤ maxLevels
  · simp [hnesting, hend]
  · simp [hnesting]

end StoryCodec.Json
