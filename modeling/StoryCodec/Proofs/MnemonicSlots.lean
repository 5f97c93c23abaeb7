import StoryCodec.Proofs.Mnemonics
import Mathlib.Logic.Function.Basic

namespace StoryCodec

/-- Two structures that are filled in step: the mnemonic in the slot of each command, and the command
under each mnemonic. -/
structure MnemonicSlots where
  mnemonic? : Command → Option String
  command? : String → Option Command

namespace MnemonicSlots

variable {slots next : MnemonicSlots} {seen entries : List (Command × String)}
  {entry : Command × String} {command : Command} {mnemonic : String}

def empty : MnemonicSlots := ⟨fun _ => none, fun _ => none⟩

def put (slots : MnemonicSlots) (command : Command) (mnemonic : String) : MnemonicSlots where
  mnemonic? := Function.update slots.mnemonic? command (some mnemonic)
  command? := Function.update slots.command? mnemonic (some command)

/-- Fills the slot of a command and the place under its mnemonic, if neither is taken. -/
def enter (slots : MnemonicSlots) (entry : Command × String) : Except TableFault MnemonicSlots :=
  if entry.2 = "" then .error (.unnamed entry.1)
  else if (slots.mnemonic? entry.1).isSome then .error (.repeated entry.1)
  else
    match slots.command? entry.2 with
    | some other => .error (.shared entry.2 other entry.1)
    | none => .ok (slots.put entry.1 entry.2)

def row (slots : MnemonicSlots) (command : Command) : Except TableFault (Command × String) :=
  match slots.mnemonic? command with
  | some mnemonic => .ok (command, mnemonic)
  | none => .error (.missing command)

/-- A mnemonic is in the slot of a command if and only if the command stands under it. -/
def Inverse (slots : MnemonicSlots) : Prop :=
  ∀ command mnemonic, slots.mnemonic? command = some mnemonic ↔
    slots.command? mnemonic = some command

theorem inverse_empty : empty.Inverse :=
  fun _ _ => iff_of_false nofun nofun

theorem mnemonic?_put (c : Command) : (slots.put command mnemonic).mnemonic? c =
    if c = command then some mnemonic else slots.mnemonic? c :=
  Function.update_apply ..

theorem command?_put (s : String) : (slots.put command mnemonic).command? s =
    if s = mnemonic then some command else slots.command? s :=
  Function.update_apply ..

theorem Inverse.put (h : slots.Inverse) (hc : slots.mnemonic? command = none)
    (hm : slots.command? mnemonic = none) : (slots.put command mnemonic).Inverse := by
  intro c s
  rw [mnemonic?_put, command?_put]
  by_cases hcommand : c = command
  · subst hcommand
    by_cases hmnemonic : s = mnemonic
    · simp [hmnemonic]
    · rw [if_pos rfl, if_neg hmnemonic, ← h, hc]
      simp [Ne.symm hmnemonic]
  · by_cases hmnemonic : s = mnemonic
    · subst hmnemonic
      rw [if_neg hcommand, if_pos rfl, h, hm]
      simp [Ne.symm hcommand]
    · rw [if_neg hcommand, if_neg hmnemonic]
      exact h c s

theorem enter_eq_ok (h : slots.enter entry = .ok next) : slots.mnemonic? entry.1 = none ∧
    slots.command? entry.2 = none ∧ next = slots.put entry.1 entry.2 := by
  rw [enter] at h
  split at h
  next => cases h
  next =>
    split at h
    next => cases h
    next hc =>
      split at h
      next => cases h
      next hm =>
        cases h
        exact ⟨by simpa using hc, hm, rfl⟩

theorem Inverse.enter (h : slots.Inverse) (hnext : slots.enter entry = .ok next) :
    next.Inverse := by
  obtain ⟨hc, hm, rfl⟩ := enter_eq_ok hnext
  exact h.put hc hm

/-- Whatever entries are accepted, the two structures stay inverse to each other. -/
theorem Inverse.foldlM (h : slots.Inverse)
    (hrun : entries.foldlM MnemonicSlots.enter slots = .ok next) : next.Inverse := by
  induction entries generalizing slots with
  | nil =>
      cases hrun
      exact h
  | cons entry entries ih =>
      rw [List.foldlM_cons] at hrun
      obtain ⟨middle, hmiddle, hrun⟩ := bind_eq_ok.1 hrun
      exact ih (h.enter hmiddle) hrun

/-- What is filled once the given entries were accepted. -/
def ofSeen (seen : List (Command × String)) : MnemonicSlots where
  mnemonic? command := (seen.find? (·.1 = command)).map (·.2)
  command? mnemonic := (seen.find? (·.2 = mnemonic)).map (·.1)

theorem mnemonic?_ofSeen (command : Command) : (ofSeen seen).mnemonic? command =
    (seen.find? (·.1 = command)).map (·.2) := rfl

theorem command?_ofSeen (mnemonic : String) : (ofSeen seen).command? mnemonic =
    (seen.find? (·.2 = mnemonic)).map (·.1) := rfl

theorem ofSeen_append (hc : seen.find? (·.1 = entry.1) = none)
    (hm : seen.find? (·.2 = entry.2) = none) :
    ofSeen (seen ++ [entry]) = (ofSeen seen).put entry.1 entry.2 := by
  have hmnemonic (c : Command) : (ofSeen (seen ++ [entry])).mnemonic? c =
      ((ofSeen seen).put entry.1 entry.2).mnemonic? c := by
    rw [mnemonic?_put, mnemonic?_ofSeen, mnemonic?_ofSeen, List.find?_append]
    split
    next h => simp [h, hc]
    next h => simp [Ne.symm h]
  have hcommand (s : String) : (ofSeen (seen ++ [entry])).command? s =
      ((ofSeen seen).put entry.1 entry.2).command? s := by
    rw [command?_put, command?_ofSeen, command?_ofSeen, List.find?_append]
    split
    next h => simp [h, hm]
    next h => simp [Ne.symm h]
  exact congrArg₂ mk (funext hmnemonic) (funext hcommand)

/-- An entry does to the two structures what it does to the list of all that were accepted. -/
theorem enter_ofSeen (seen : List (Command × String)) (entry : Command × String) :
    (ofSeen seen).enter entry = (MnemonicTable.enter seen entry).map ofSeen := by
  have hslot : ((ofSeen seen).mnemonic? entry.1).isSome = seen.any (·.1 = entry.1) := by
    rw [mnemonic?_ofSeen, Option.isSome_map, List.isSome_find?]
  rw [enter, MnemonicTable.enter, hslot, command?_ofSeen]
  split
  next => rfl
  next =>
    split
    next => rfl
    next hc =>
      cases hm : seen.find? (·.2 = entry.2) with
      | some other => rfl
      | none =>
          rw [Bool.not_eq_true, List.any_eq_false, ← List.find?_eq_none] at hc
          exact congrArg Except.ok (ofSeen_append hc hm).symm

theorem foldlM_enter_ofSeen (seen entries : List (Command × String)) :
    entries.foldlM enter (ofSeen seen) = (entries.foldlM MnemonicTable.enter seen).map ofSeen := by
  induction entries generalizing seen with
  | nil => rfl
  | cons entry entries ih =>
      rw [List.foldlM_cons, List.foldlM_cons, enter_ofSeen]
      cases MnemonicTable.enter seen entry with
      | error fault => rfl
      | ok seen => exact ih seen

theorem row_ofSeen (seen : List (Command × String)) :
    (ofSeen seen).row = MnemonicTable.named seen := by
  funext command
  rw [row, mnemonic?_ofSeen, MnemonicTable.named]
  cases h : seen.find? (·.1 = command) with
  | none => rfl
  | some entry =>
      obtain ⟨-, rfl⟩ := mem_of_find?_key h
      rfl

end MnemonicSlots

namespace MnemonicTable

variable {entries : List (Command × String)} {table : MnemonicTable}

/-- The entries fill the two structures, and then each command has to have its mnemonic. -/
theorem ofEntries_eq_slots (entries : List (Command × String)) : ofEntries entries = (do
    let slots ← entries.foldlM MnemonicSlots.enter .empty
    let rows ← Command.all.mapM slots.row
    .ok ⟨rows⟩) := by
  have hempty : MnemonicSlots.empty = .ofSeen [] := rfl
  rw [hempty, MnemonicSlots.foldlM_enter_ofSeen, ofEntries]
  cases entries.foldlM enter [] with
  | error fault => rfl
  | ok seen =>
      change _ = (Command.all.mapM (MnemonicSlots.ofSeen seen).row >>= _)
      rw [MnemonicSlots.row_ofSeen]
      rfl

/-- A table looks up what the two structures hold, which are inverse to each other. -/
theorem exists_slots (h : ofEntries entries = .ok table) : ∃ slots : MnemonicSlots,
    entries.foldlM MnemonicSlots.enter .empty = .ok slots ∧ slots.Inverse ∧
      (∀ command, slots.mnemonic? command = some (table.mnemonic command)) ∧
      ∀ mnemonic, slots.command? mnemonic = table.command? mnemonic := by
  obtain ⟨hfaultless, hperm, hcommands⟩ := ofEntries_eq_ok_iff.1 h
  have hmnemonics : (table.entries.map (·.2)).Nodup :=
    (hperm.map _).nodup_iff.1 hfaultless.mnemonics
  have hrun : entries.foldlM MnemonicSlots.enter .empty = .ok (.ofSeen entries) := by
    have hseen : entries.foldlM enter [] = .ok entries :=
      (foldlM_enter_eq_ok_iff faultless_nil).2 ⟨rfl, hfaultless⟩
    exact (MnemonicSlots.foldlM_enter_ofSeen [] entries).trans
      (congrArg (Except.map MnemonicSlots.ofSeen) hseen)
  refine ⟨_, hrun, MnemonicSlots.inverse_empty.foldlM hrun, fun command => ?_, fun mnemonic => ?_⟩
  · have hmem : (command, table.mnemonic command) ∈ entries :=
      hperm.mem_iff.2 ((mnemonic_eq_iff hcommands).1 rfl)
    rw [MnemonicSlots.mnemonic?_ofSeen, (find?_key_eq_some_iff hfaultless.commands).2 ⟨hmem, rfl⟩]
    rfl
  · ext command
    have hslots : (MnemonicSlots.ofSeen entries).command? mnemonic = some command ↔
        (command, mnemonic) ∈ entries := command?_eq_some_iff hfaultless.mnemonics
    rw [hslots, command?_eq_some_iff hmnemonics, hperm.mem_iff]

end MnemonicTable

end StoryCodec
