import StoryCodec.Proofs.Traversal
import StoryCodec.Wire.Mnemonics
import Mathlib.Data.List.Nodup
import Mathlib.Data.List.Perm.Subperm

namespace StoryCodec

section
variable {α κ : Type} [DecidableEq κ] {f : α → κ} {as : List α} {a : α} {k : κ}

theorem find?_key_eq_none_iff : as.find? (fun x => f x = k) = none ↔ k ∉ as.map f := by
  simp [List.find?_eq_none]

theorem find?_key_isSome_iff : (as.find? fun x => f x = k).isSome ↔ k ∈ as.map f := by
  rw [Option.isSome_iff_ne_none, ne_eq, find?_key_eq_none_iff, not_not]

theorem mem_of_find?_key (h : as.find? (fun x => f x = k) = some a) : a ∈ as ∧ f a = k :=
  ⟨List.mem_of_find?_eq_some h, by simpa using List.find?_some h⟩

theorem find?_key_eq_some_iff (hn : (as.map f).Nodup) :
    as.find? (fun x => f x = k) = some a ↔ a ∈ as ∧ f a = k := by
  refine ⟨mem_of_find?_key, ?_⟩
  rintro ⟨ha, rfl⟩
  cases hfind : as.find? fun x => f x = f a with
  | none => exact absurd (List.mem_map_of_mem ha) (find?_key_eq_none_iff.1 hfind)
  | some b =>
      obtain ⟨hb, hkey⟩ := mem_of_find?_key hfind
      rw [List.inj_on_of_nodup_map hn hb ha hkey]

end

namespace MnemonicTable

variable {seen entries : List (Command × String)}

/-- Every entry has a mnemonic, and no two have their commands or their mnemonics in common. -/
structure Faultless (entries : List (Command × String)) : Prop where
  nonempty : ∀ e ∈ entries, e.2 ≠ ""
  commands : (entries.map (·.1)).Nodup
  mnemonics : (entries.map (·.2)).Nodup

/-- What is wrong with an entry behind others. That it has no mnemonic is found first, and that its
command was there is found before its mnemonic is looked for. -/
inductive Offends (seen : List (Command × String)) : Command × String → TableFault → Prop
  | unnamed (command : Command) : Offends seen (command, "") (.unnamed command)
  | repeated {command : Command} {mnemonic : String} (h : mnemonic ≠ "")
      (hc : command ∈ seen.map (·.1)) : Offends seen (command, mnemonic) (.repeated command)
  | shared {command other : Command} {mnemonic : String} (h : mnemonic ≠ "")
      (hc : command ∉ seen.map (·.1)) (hm : (other, mnemonic) ∈ seen) :
      Offends seen (command, mnemonic) (.shared mnemonic other command)

theorem Faultless.sublist {others : List (Command × String)} (h : Faultless entries)
    (hsub : others.Sublist entries) : Faultless others :=
  ⟨fun e he => h.nonempty e (hsub.subset he), h.commands.sublist (hsub.map _),
    h.mnemonics.sublist (hsub.map _)⟩

theorem Faultless.perm {others : List (Command × String)} (h : Faultless entries)
    (hperm : entries.Perm others) : Faultless others :=
  ⟨fun e he => h.nonempty e (hperm.mem_iff.2 he), (hperm.map _).nodup_iff.1 h.commands,
    (hperm.map _).nodup_iff.1 h.mnemonics⟩

theorem faultless_append_singleton {entry : Command × String} :
    Faultless (seen ++ [entry]) ↔ Faultless seen ∧
      entry.2 ≠ "" ∧ entry.1 ∉ seen.map (·.1) ∧ entry.2 ∉ seen.map (·.2) := by
  constructor
  · intro h
    have hcons := h.perm (List.perm_append_singleton entry seen)
    exact ⟨hcons.sublist (List.sublist_cons_self _ _), hcons.nonempty _ List.mem_cons_self,
      (List.nodup_cons.1 hcons.commands).1, (List.nodup_cons.1 hcons.mnemonics).1⟩
  · rintro ⟨h, hne, hc, hm⟩
    have hcons : Faultless (entry :: seen) := ⟨List.forall_mem_cons.2 ⟨hne, h.nonempty⟩,
      List.nodup_cons.2 ⟨hc, h.commands⟩, List.nodup_cons.2 ⟨hm, h.mnemonics⟩⟩
    exact hcons.perm (List.perm_append_singleton entry seen).symm

/-- All that an entry can do. -/
theorem enter_cases (seen : List (Command × String)) (entry : Command × String) :
    (∃ fault, enter seen entry = .error fault ∧ Offends seen entry fault) ∨
      enter seen entry = .ok (seen ++ [entry]) ∧
        entry.2 ≠ "" ∧ entry.1 ∉ seen.map (·.1) ∧ entry.2 ∉ seen.map (·.2) := by
  obtain ⟨command, mnemonic⟩ := entry
  rw [enter]
  split
  next h =>
    cases h
    exact .inl ⟨_, rfl, .unnamed command⟩
  next h =>
    split
    next hc => exact .inl ⟨_, rfl, .repeated h (by simpa using hc)⟩
    next hc =>
      have hc' : command ∉ seen.map (·.1) := by simpa using hc
      split
      next other hother =>
        obtain ⟨hmem, rfl⟩ := mem_of_find?_key hother
        exact .inl ⟨_, rfl, .shared h hc' hmem⟩
      next hm => exact .inr ⟨rfl, h, hc', find?_key_eq_none_iff.1 hm⟩

theorem Offends.not_new {entry : Command × String} {fault : TableFault}
    (h : Offends seen entry fault) :
    ¬(entry.2 ≠ "" ∧ entry.1 ∉ seen.map (·.1) ∧ entry.2 ∉ seen.map (·.2)) := by
  rintro ⟨hne, hc, hm⟩
  cases h with
  | unnamed => exact hne rfl
  | repeated _ h => exact hc h
  | shared _ _ h => exact hm (List.mem_map.2 ⟨_, h, rfl⟩)

theorem Offends.unique {entry : Command × String} {fault other : TableFault}
    (hseen : Faultless seen) (h : Offends seen entry fault) (h' : Offends seen entry other) :
    fault = other := by
  cases h with
  | unnamed => cases h' <;> first | rfl | contradiction
  | repeated hne hc => cases h' <;> first | rfl | contradiction
  | shared hne hc hm =>
      cases h' with
      | unnamed | repeated => contradiction
      | shared _ _ hm' =>
          cases List.inj_on_of_nodup_map hseen.mnemonics hm hm' rfl
          rfl

theorem enter_eq_ok_iff {entry : Command × String} {all : List (Command × String)}
    (hseen : Faultless seen) :
    enter seen entry = .ok all ↔ all = seen ++ [entry] ∧ Faultless (seen ++ [entry]) := by
  rw [faultless_append_singleton]
  rcases enter_cases seen entry with ⟨fault, h, hoff⟩ | ⟨h, hnew⟩
  · rw [h]
    exact iff_of_false nofun fun hall => hoff.not_new hall.2.2
  · rw [h, Except.ok.injEq, eq_comm]
    exact (and_iff_left ⟨hseen, hnew⟩).symm

theorem foldlM_enter_eq_ok_iff {all : List (Command × String)} (hseen : Faultless seen) :
    entries.foldlM enter seen = .ok all ↔ all = seen ++ entries ∧ Faultless (seen ++ entries) := by
  induction entries generalizing seen with
  | nil => simp [pure, Except.pure, hseen, eq_comm]
  | cons entry entries ih =>
      rw [List.foldlM_cons, bind_eq_ok, List.append_cons]
      constructor
      · rintro ⟨next, hnext, h⟩
        obtain ⟨rfl, hfaultless⟩ := (enter_eq_ok_iff hseen).1 hnext
        exact (ih hfaultless).1 h
      · rintro ⟨rfl, h⟩
        have hnext := h.sublist (List.sublist_append_left (seen ++ [entry]) entries)
        exact ⟨_, (enter_eq_ok_iff hseen).2 ⟨rfl, hnext⟩, (ih hnext).2 ⟨rfl, h⟩⟩

theorem named_eq_ok_iff {c : Command} {e : Command × String} (h : (entries.map (·.1)).Nodup) :
    named entries c = .ok e ↔ e ∈ entries ∧ e.1 = c := by
  rw [← find?_key_eq_some_iff h, named]
  cases entries.find? fun x => x.1 = c <;> simp

theorem mapM_named_eq_ok_iff {rows : List (Command × String)} (h : Faultless entries) :
    Command.all.mapM (named entries) = .ok rows ↔
      entries.Perm rows ∧ rows.map (·.1) = Command.all := by
  constructor
  · intro hrows
    have hcommands : rows.map (·.1) = Command.all := by
      rw [map_eq_map_of_mapM hrows fun c e he => ((named_eq_ok_iff h.commands).1 he).2]
      exact List.map_id' _
    have hsub : rows.Subperm entries := by
      apply List.Nodup.subperm
      · refine .of_map (·.1) (hcommands ▸ by decide)
      · intro e he
        obtain ⟨c, -, hc⟩ := exists_of_mem_mapM hrows he
        exact ((named_eq_ok_iff h.commands).1 hc).1
    -- There are no more entries than commands, since they are all for different ones.
    have hlength : (entries.map (·.1)).length ≤ (rows.map (·.1)).length := by
      rw [hcommands]
      exact (h.commands.subperm fun c _ => Command.mem_all c).length_le
    exact ⟨(hsub.perm_of_length_le (by simpa using hlength)).symm, hcommands⟩
  · rintro ⟨hperm, hcommands⟩
    rw [← hcommands, mapM_eq_ok_iff_forall₂, List.forall₂_map_left_iff, List.forall₂_same]
    exact fun e he => (named_eq_ok_iff h.commands).2 ⟨hperm.mem_iff.2 he, rfl⟩

theorem faultless_nil : Faultless [] := ⟨by simp, .nil, .nil⟩

theorem ofEntries_eq_ok_iff {table : MnemonicTable} : ofEntries entries = .ok table ↔
    Faultless entries ∧ entries.Perm table.entries ∧
      table.entries.map (·.1) = Command.all := by
  rw [ofEntries, bind_eq_ok]
  constructor
  · rintro ⟨all, hall, h⟩
    obtain ⟨rfl, hfaultless⟩ := (foldlM_enter_eq_ok_iff faultless_nil).1 hall
    obtain ⟨rows, hrows, heq⟩ := bind_eq_ok.1 h
    cases heq
    exact ⟨hfaultless, (mapM_named_eq_ok_iff hfaultless).1 hrows⟩
  · rintro ⟨hfaultless, h⟩
    refine ⟨entries, (foldlM_enter_eq_ok_iff faultless_nil).2 ⟨rfl, hfaultless⟩, ?_⟩
    exact bind_eq_ok.2 ⟨_, (mapM_named_eq_ok_iff hfaultless).2 h, rfl⟩

variable {table : MnemonicTable}

theorem command?_eq_some_iff {s : String} {c : Command} (h : (table.entries.map (·.2)).Nodup) :
    table.command? s = some c ↔ (c, s) ∈ table.entries := by
  rw [command?, Option.map_eq_some_iff]
  constructor
  · rintro ⟨e, he, rfl⟩
    obtain ⟨hmem, rfl⟩ := mem_of_find?_key he
    exact hmem
  · exact fun hmem => ⟨(c, s), (find?_key_eq_some_iff h).2 ⟨hmem, rfl⟩, rfl⟩

theorem mnemonic_eq_iff {s : String} {c : Command}
    (h : table.entries.map (·.1) = Command.all) :
    table.mnemonic c = s ↔ (c, s) ∈ table.entries := by
  have hn : (table.entries.map (·.1)).Nodup := h ▸ by decide
  have hc : c ∈ table.entries.map (·.1) := h ▸ Command.mem_all c
  obtain ⟨e, he, rfl⟩ := List.mem_map.1 hc
  rw [mnemonic, (find?_key_eq_some_iff hn).2 ⟨he, rfl⟩]
  constructor
  · rintro rfl
    exact he
  · intro hs
    exact congrArg Prod.snd (List.inj_on_of_nodup_map hn he hs rfl)

end MnemonicTable

end StoryCodec
