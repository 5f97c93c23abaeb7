import StoryCodec.Proofs.Building
import StoryCodec.Proofs.Collections
import Mathlib.Data.List.Induction

namespace StoryCodec.NamedHistory

/-- A change of the children that a container has by name. -/
inductive Change
  | insert (key : String) (o : Object)
  | remove (key : String)

namespace Change

def key : Change → String
  | insert key _ => key
  | remove key => key

/-- What comes back of a change, and the container after it. -/
def apply (c : Container) : Change → Option Object × Container
  | insert key o => (none, c.insertNamed key o)
  | remove key => (c.getNamed? key, c.eraseNamed key)

/-- The child that is under the key afterwards. -/
def child? : Change → Option Object
  | insert key o => some (o.renamed key)
  | remove _ => none

end Change

/-- The container that a history of changes leads to from the empty one. -/
def run (history : List Change) : Container :=
  history.foldl (fun c change => (change.apply c).2) .empty

def lastUnder? (history : List Change) (key : String) : Option Change :=
  history.reverse.find? fun change => change.key = key

/-- The child of the last change under a key, by the name that the key gives it. -/
def stored? (history : List Change) (key : String) : Option Object :=
  (lastUnder? history key).bind Change.child?

/-- The place of a history where a key came in for the last time. It is inserted there, it is not
removed later on, and where it was inserted earlier it was removed in between. -/
structure Introduced (history : List Change) (key : String) (i : Nat) : Prop where
  inserted : ∃ o, history[i]? = some (.insert key o)
  kept : ∀ j, i < j → history[j]? ≠ some (.remove key)
  first : ∀ j < i, ∀ o, history[j]? = some (.insert key o) →
    ∃ m, j < m ∧ m < i ∧ history[m]? = some (.remove key)

variable {history : List Change} {key k : String} {change : Change} {i j : Nat}

theorem getElem?_concat_eq_some_iff {last : Change} : (history ++ [last])[i]? = some change ↔
    history[i]? = some change ∨ i = history.length ∧ last = change := by
  grind

theorem run_concat (history : List Change) (change : Change) :
    run (history ++ [change]) = (change.apply (run history)).2 := by
  rw [run, List.foldl_append, ← run]
  rfl

theorem lastUnder?_concat (history : List Change) (change : Change) (key : String) :
    lastUnder? (history ++ [change]) key =
      if change.key = key then some change else lastUnder? history key := by
  rw [lastUnder?, List.reverse_concat, List.find?_cons]
  by_cases h : change.key = key <;> simp [h, lastUnder?]

theorem key_of_lastUnder? (h : lastUnder? history key = some change) : change.key = key := by
  simpa using List.find?_some h

theorem keyed_run (history : List Change) : (Object.container (run history)).Keyed := by
  induction history using List.reverseRecOn with
  | nil => exact ⟨List.nodup_nil, nofun⟩
  | append_singleton history change ih =>
      rw [run_concat]
      cases change with
      | insert key o => exact ih.insertNamed key o
      | remove key => exact ih.eraseNamed key

theorem getNamed?_run (history : List Change) (key : String) :
    (run history).getNamed? key = stored? history key := by
  induction history using List.reverseRecOn with
  | nil => rfl
  | append_singleton history change ih =>
      have hstored : stored? (history ++ [change]) key =
          if change.key = key then change.child? else stored? history key := by
        rw [stored?, lastUnder?_concat]
        split <;> rfl
      rw [hstored, run_concat, ← ih]
      cases change with
      | insert k o => exact Fields.get?_insert _ k key (o.renamed k)
      | remove k => exact Fields.get?_erase (keyed_run history).1 k key

theorem mem_keys_run_iff : key ∈ Fields.keys (run history).named ↔
    ∃ o, lastUnder? history key = some (.insert key o) := by
  have hget : Fields.get? key (run history).named = stored? history key := getNamed?_run history key
  rw [← not_iff_not, ← Fields.get?_eq_none_iff, hget, stored?]
  cases h : lastUnder? history key with
  | none => simp
  | some change =>
      obtain rfl := key_of_lastUnder? h
      cases change <;> simp [Change.child?, Change.key]

/-- A key that is not there was taken out after each time that it came in. -/
theorem exists_removal (h : ∀ o, lastUnder? history key ≠ some (.insert key o)) {o : Object}
    (hj : history[j]? = some (.insert key o)) : ∃ m, j < m ∧ history[m]? = some (.remove key) := by
  induction history using List.reverseRecOn with
  | nil => cases hj
  | append_singleton history change ih =>
      rw [lastUnder?_concat] at h
      split at h
      next hkey =>
        have hremove : change = .remove key := by
          cases change with
          | insert k o =>
              obtain rfl : k = key := hkey
              exact absurd rfl (h o)
          | remove k => exact congrArg Change.remove hkey
        subst hremove
        rcases getElem?_concat_eq_some_iff.1 hj with hj | ⟨-, ⟨⟩⟩
        exact ⟨_, (List.getElem?_eq_some_iff.1 hj).1, List.getElem?_concat_length⟩
      next hkey =>
        rcases getElem?_concat_eq_some_iff.1 hj with hj | ⟨-, rfl⟩
        · obtain ⟨m, hjm, hm⟩ := ih h hj
          exact ⟨m, hjm, getElem?_concat_eq_some_iff.2 (.inl hm)⟩
        · exact absurd rfl hkey

namespace Introduced

theorem lt_length (h : Introduced history key i) : i < history.length := by
  obtain ⟨o, ho⟩ := h.inserted
  exact (List.getElem?_eq_some_iff.1 ho).1

/-- A key does not come in twice without going out in between. -/
theorem unique (hi : Introduced history key i) (hj : Introduced history key j) : i = j := by
  have hnot {i j : Nat} (hi : Introduced history key i) (hj : Introduced history key j) :
      ¬i < j := by
    intro hlt
    obtain ⟨o, ho⟩ := hi.inserted
    obtain ⟨m, him, -, hm⟩ := hj.first i hlt o ho
    exact hi.kept m him hm
  exact Nat.le_antisymm (Nat.not_lt.1 (hnot hj hi)) (Nat.not_lt.1 (hnot hi hj))

theorem concat (h : Introduced history key i) (hne : change ≠ .remove key) :
    Introduced (history ++ [change]) key i := by
  have hi := h.lt_length
  have hbefore {j : Nat} (hj : j < i) : (history ++ [change])[j]? = history[j]? :=
    List.getElem?_append_left (Nat.lt_trans hj hi)
  refine ⟨?_, fun j hj hremove => ?_, fun j hj o ho => ?_⟩
  · rw [List.getElem?_append_left hi]
    exact h.inserted
  · rcases getElem?_concat_eq_some_iff.1 hremove with hremove | ⟨-, hremove⟩
    · exact h.kept j hj hremove
    · exact hne hremove
  · rw [hbefore hj] at ho
    obtain ⟨m, hjm, hmi, hm⟩ := h.first j hj o ho
    exact ⟨m, hjm, hmi, (hbefore hmi).trans hm⟩

/-- A key that is inserted last of all comes in there, if it was not there before. -/
theorem last (h : ∀ o, lastUnder? history key ≠ some (.insert key o)) (o : Object) :
    Introduced (history ++ [.insert key o]) key history.length := by
  refine ⟨⟨o, List.getElem?_concat_length⟩, fun j hj hremove => ?_, fun j hj o' ho => ?_⟩
  · rcases getElem?_concat_eq_some_iff.1 hremove with hremove | ⟨-, ⟨⟩⟩
    have hlt := (List.getElem?_eq_some_iff.1 hremove).1
    exact absurd hj (Nat.not_lt_of_gt hlt)
  · rw [List.getElem?_append_left hj] at ho
    obtain ⟨m, hjm, hm⟩ := exists_removal h ho
    have hlt := (List.getElem?_eq_some_iff.1 hm).1
    exact ⟨m, hjm, hlt, (List.getElem?_append_left hlt).trans hm⟩

end Introduced

/-- The keys stand in the order of the places where they came in. -/
theorem exists_places (history : List Change) : ∃ places : List (String × Nat),
    places.map (·.1) = Fields.keys (run history).named ∧ places.Pairwise (·.2 < ·.2) ∧
      ∀ e ∈ places, Introduced history e.1 e.2 := by
  induction history using List.reverseRecOn with
  | nil => exact ⟨[], rfl, .nil, nofun⟩
  | append_singleton history change ih =>
      obtain ⟨places, hkeys, hordered, hintroduced⟩ := ih
      rw [run_concat]
      cases change with
      | insert key o =>
          have hold : ∀ e ∈ places, Introduced (history ++ [.insert key o]) e.1 e.2 :=
            fun e he => (hintroduced e he).concat nofun
          have hinsert := Fields.keys_insert (run history).named key (o.renamed key)
          by_cases hmem : key ∈ Fields.keys (run history).named
          · refine ⟨places, ?_, hordered, hold⟩
            rw [hkeys]
            exact (hinsert.trans (if_pos hmem)).symm
          · have hnew := Introduced.last (fun o h => hmem (mem_keys_run_iff.2 ⟨o, h⟩)) o
            refine ⟨places ++ [(key, history.length)], ?_, ?_, ?_⟩
            · rw [List.map_append, hkeys]
              exact (hinsert.trans (if_neg hmem)).symm
            · refine List.pairwise_append.2 ⟨hordered, List.pairwise_singleton _ _, ?_⟩
              rintro e he _ hlast
              rw [List.mem_singleton.1 hlast]
              exact (hintroduced e he).lt_length
            · refine List.forall_mem_append.2 ⟨hold, ?_⟩
              rintro _ hlast
              rwa [List.mem_singleton.1 hlast]
      | remove key =>
          refine ⟨places.filter (fun e => e.1 != key), ?_, hordered.filter _, fun e he => ?_⟩
          · have herase := Fields.keys_erase (run history).named key
            rw [(keyed_run history).1.erase_eq_filter, ← hkeys] at herase
            rw [List.filter_map] at herase
            exact herase.symm
          · obtain ⟨he, hne⟩ := List.mem_filter.1 he
            refine (hintroduced e he).concat ?_
            rintro ⟨⟩
            simp at hne

theorem pairwise_introduced (history : List Change) :
    (Fields.keys (run history).named).Pairwise fun k l =>
      ∀ i j, Introduced history k i → Introduced history l j → i < j := by
  obtain ⟨places, hkeys, hordered, hintroduced⟩ := exists_places history
  rw [← hkeys, List.pairwise_map]
  refine hordered.imp_of_mem fun {e f} he hf hlt i j hi hj => ?_
  rwa [hi.unique (hintroduced e he), hj.unique (hintroduced f hf)]

theorem exists_introduced (h : key ∈ Fields.keys (run history).named) :
    ∃ i, Introduced history key i := by
  obtain ⟨places, hkeys, -, hintroduced⟩ := exists_places history
  rw [← hkeys] at h
  obtain ⟨e, he, rfl⟩ := List.mem_map.1 h
  exact ⟨e.2, hintroduced e he⟩

theorem keys_trailer (flags : CountFlags) (name : Option String) :
    Fields.keys (Encoding.trailer flags name) =
      (if flags.isEmpty then [] else ["#f"]) ++ if name.isNone then [] else ["#n"] := by
  cases name <;> by_cases h : flags.isEmpty <;> simp [Encoding.trailer, Fields.keys, h]

/-- A container whose children can be written ends with a record of those that have a name, in their
order, before its flags and its own name. -/
theorem exists_record {c : Container} (hf : "#f" ∉ Fields.keys c.named)
    (hn : "#n" ∉ Fields.keys c.named) (hcontent : ∀ o ∈ c.content, ∃ t, o.encode = .ok t)
    (hnamed : ∀ e ∈ c.named, ∃ t, e.2.encode = .ok t) :
    ∃ items fields, c.encode = .ok (.arr (items ++ [Json.ending fields])) ∧
      items.length = c.content.length ∧ Fields.keys fields = Fields.keys c.named ++
        ((if c.countFlags.isEmpty then [] else ["#f"]) ++ if c.name.isNone then [] else ["#n"]) := by
  obtain ⟨items, hitems⟩ := mapM_ok_of_forall hcontent
  obtain ⟨children, hchildren⟩ : ∃ children, c.named.mapM Encoding.entry = .ok children := by
    apply mapM_ok_of_forall
    intro e he
    obtain ⟨t, ht⟩ := hnamed e he
    exact ⟨(e.1, Encoding.nested e.2 t),
      Encoding.entry_eq_ok.2 ⟨Encoding.encode_unnamed ht, rfl⟩⟩
  have hkeys := Encoding.keys_of_mapM_entry hchildren
  refine ⟨items, children ++ Encoding.trailer c.countFlags c.name, ?_, ?_, ?_⟩
  · have hobject := (Container.encode_eq_ok_of_unreserved hf hn).2
      ⟨items, children, hitems, hchildren, hkeys, rfl⟩
    rwa [Object.encode] at hobject
  · exact (mapM_eq_ok_iff_forall₂.1 hitems).length_eq.symm
  · rw [← keys_trailer, ← hkeys]
    exact List.map_append

/-- Whatever was inserted and removed, the children that have a name are those last inserted under
theirs. A key that is there keeps its place, and goes to the end if it was out in between. -/
theorem named_of_history (history : List Change) :
    (Fields.keys (run history).named).Nodup ∧
    (∀ key, key ∈ Fields.keys (run history).named ↔
      ∃ o, lastUnder? history key = some (.insert key o)) ∧
    (∀ key ∈ Fields.keys (run history).named, ∃ i, Introduced history key i) ∧
    ((Fields.keys (run history).named).Pairwise fun k l =>
      ∀ i j, Introduced history k i → Introduced history l j → i < j) ∧
    (∀ key, (run history).getNamed? key = stored? history key ∧
      (Change.remove key).apply (run history) =
        (stored? history key, run (history ++ [.remove key]))) ∧
    ∀ content flags name, "#f" ∉ Fields.keys (run history).named →
      "#n" ∉ Fields.keys (run history).named →
      (∀ key o, stored? history key = some o → ∃ t, o.encode = .ok t) →
      (∀ o ∈ content, ∃ t, o.encode = .ok t) →
      ∃ items fields,
        Container.encode { run history with content, countFlags := flags, name } =
          .ok (.arr (items ++ [Json.ending fields])) ∧
        items.length = content.length ∧ Fields.keys fields = Fields.keys (run history).named ++
          ((if flags.isEmpty then [] else ["#f"]) ++ if name.isNone then [] else ["#n"]) := by
  have nodup := (keyed_run history).1
  refine ⟨nodup, fun key => mem_keys_run_iff, fun key => exists_introduced,
    pairwise_introduced history, fun key => ?_, fun content flags name hf hn hstored hcontent => ?_⟩
  · rw [run_concat, ← getNamed?_run]
    exact ⟨rfl, rfl⟩
  · refine exists_record (c := { run history with content, countFlags := flags, name }) hf hn
      hcontent fun e he => hstored e.1 e.2 ?_
    rw [← getNamed?_run]
    exact Fields.get?_of_mem nodup he

/-- The first key goes out and comes in again behind the others, the second is only overwritten. -/
theorem named_of_history_moved :
    let old := Object.container { Container.empty with name := some "old" }
    let history : List Change := [.insert "a" .void, .insert "b" .void, .insert "c" .void,
      .remove "a", .insert "b" old, .insert "a" old]
    let keys := Fields.keys (run history).named
    "#f" ∉ keys ∧ "#n" ∉ keys ∧
      (∀ key o, stored? history key = some o → ∃ t, o.encode = .ok t) ∧
      ∃ items fields,
        Container.encode { run history with content := [], countFlags := ⟨1⟩, name := none } =
          .ok (.arr (items ++ [Json.ending fields])) ∧
        items.length = 0 ∧ Fields.keys fields = ["b", "c", "a", "#f"] := by
  intro old history keys
  have hkeys : keys = ["b", "c", "a"] := rfl
  have hf : "#f" ∉ keys := by simp [hkeys]
  have hn : "#n" ∉ keys := by simp [hkeys]
  have hstored : ∀ key o, stored? history key = some o → ∃ t, o.encode = .ok t := by
    intro key o h
    rw [← getNamed?_run] at h
    have hmem : (key, o) ∈ [("b", old.renamed "b"), ("c", .void), ("a", old.renamed "a")] :=
      Fields.mem_of_get? h
    simp only [List.mem_cons, List.not_mem_nil, or_false, Prod.mk.injEq] at hmem
    rcases hmem with ⟨-, rfl⟩ | ⟨-, rfl⟩ | ⟨-, rfl⟩ <;> exact ⟨_, rfl⟩
  obtain ⟨-, -, -, -, -, hrecord⟩ := named_of_history history
  exact ⟨hf, hn, hstored, hrecord [] ⟨1⟩ none hf hn hstored nofun⟩

end StoryCodec.NamedHistory
