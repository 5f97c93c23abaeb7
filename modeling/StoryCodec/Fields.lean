namespace StoryCodec

/-- Values under text keys, in order. -/
abbrev Fields (α : Type) := List (String × α)

namespace Fields

variable {α : Type}

def keys (fields : Fields α) : List String :=
  fields.map (·.1)

def get? (key : String) : Fields α → Option α
  | [] => none
  | (k, value) :: rest => if k = key then some value else get? key rest

def has (fields : Fields α) (key : String) : Bool :=
  (fields.get? key).isSome

/-- A new key goes to the end; a key that is there keeps its place. -/
def insert (key : String) (value : α) : Fields α → Fields α
  | [] => [(key, value)]
  | (k, old) :: rest => if k = key then (k, value) :: rest else (k, old) :: insert key value rest

def erase (key : String) : Fields α → Fields α
  | [] => []
  | (k, value) :: rest => if k = key then rest else (k, value) :: erase key rest

/-- Entries taken one after the other, so that the last value of a repeated key stands in the first
place of that key. -/
def ofEntries (entries : List (String × α)) : Fields α :=
  entries.foldl (fun fields entry => fields.insert entry.1 entry.2) []

theorem get?_insert (fields : Fields α) (key k : String) (value : α) :
    (fields.insert key value).get? k = if key = k then some value else fields.get? k := by
  induction fields with
  | nil => rfl
  | cons entry rest ih => grind [insert, get?]

theorem keys_insert (fields : Fields α) (key : String) (value : α) :
    (fields.insert key value).keys =
      if key ∈ fields.keys then fields.keys else fields.keys ++ [key] := by
  induction fields with
  | nil => rfl
  | cons entry rest ih => grind [insert, keys]

theorem keys_erase (fields : Fields α) (key : String) :
    (fields.erase key).keys = fields.keys.erase key := by
  induction fields with
  | nil => rfl
  | cons entry rest ih => grind [erase, keys]

theorem get?_eq_none_iff {fields : Fields α} {key : String} :
    fields.get? key = none ↔ key ∉ fields.keys := by
  induction fields with
  | nil => simp [get?, keys]
  | cons entry rest ih => grind [get?, keys]

theorem get?_erase {fields : Fields α} (hn : fields.keys.Nodup) (key k : String) :
    (fields.erase key).get? k = if key = k then none else fields.get? k := by
  induction fields with
  | nil => simp [erase, get?]
  | cons entry rest ih => grind [erase, get?, keys, get?_eq_none_iff]

theorem get?_map {β : Type} (f : α → β) (fields : Fields α) (key : String) :
    Fields.get? key (fields.map fun entry => (entry.1, f entry.2)) = (fields.get? key).map f := by
  induction fields with
  | nil => rfl
  | cons entry rest ih => grind [get?]

theorem mem_keys {fields : Fields α} {entry : String × α} (h : entry ∈ fields) :
    entry.1 ∈ fields.keys :=
  List.mem_map_of_mem h

theorem mem_of_get? {fields : Fields α} {key : String} {value : α}
    (h : fields.get? key = some value) : (key, value) ∈ fields := by
  induction fields with
  | nil => simp [get?] at h
  | cons entry rest ih => grind [get?]

theorem get?_of_mem {fields : Fields α} {key : String} {value : α} (hn : fields.keys.Nodup)
    (h : (key, value) ∈ fields) : fields.get? key = some value := by
  induction fields with
  | nil => simp at h
  | cons entry rest ih => grind [get?, keys]

theorem get?_eq_of_perm {fields others : Fields α} (hn : fields.keys.Nodup)
    (h : fields.Perm others) (key : String) : fields.get? key = others.get? key := by
  have hkeys : fields.keys.Perm others.keys := List.Perm.map Prod.fst h
  have hn' : others.keys.Nodup := hkeys.nodup_iff.1 hn
  apply Option.ext
  intro value
  constructor
  · exact fun hv => get?_of_mem hn' (h.mem_iff.1 (mem_of_get? hv))
  · exact fun hv => get?_of_mem hn (h.mem_iff.2 (mem_of_get? hv))

theorem insert_of_notMem {fields : Fields α} {key : String} (value : α) (h : key ∉ fields.keys) :
    fields.insert key value = fields ++ [(key, value)] := by
  induction fields with
  | nil => rfl
  | cons entry rest ih => grind [insert, keys]

theorem foldl_insert {fields entries : Fields α} (h : (fields.keys ++ entries.keys).Nodup) :
    entries.foldl (fun fields entry => fields.insert entry.1 entry.2) fields = fields ++ entries := by
  induction entries generalizing fields with
  | nil => simp
  | cons entry entries ih =>
      have hkey : entry.1 ∉ fields.keys := by
        intro hmem
        exact (List.nodup_append.1 h).2.2 _ hmem _ (mem_keys List.mem_cons_self) rfl
      rw [List.foldl_cons, insert_of_notMem entry.2 hkey, ih, List.append_assoc]
      · rfl
      · simpa [keys] using h

theorem ofEntries_eq_self {fields : Fields α} (h : fields.keys.Nodup) : ofEntries fields = fields := by
  rw [ofEntries, foldl_insert (by simpa [keys] using h), List.nil_append]

theorem mem_insert {fields : Fields α} {key : String} {value : α} {entry : String × α}
    (h : entry ∈ fields.insert key value) : entry = (key, value) ∨ entry ∈ fields := by
  induction fields with
  | nil => simpa [insert] using h
  | cons first rest ih => grind [insert]

theorem nodup_keys_insert {fields : Fields α} (h : fields.keys.Nodup) (key : String) (value : α) :
    (fields.insert key value).keys.Nodup := by
  rw [keys_insert]
  split
  · exact h
  next hkey =>
    refine List.nodup_append.2 ⟨h, by simp, ?_⟩
    rintro k hk l hl rfl
    exact hkey (List.mem_singleton.1 hl ▸ hk)

theorem nodup_keys_ofEntries (entries : List (String × α)) : (ofEntries entries).keys.Nodup :=
  List.foldlRecOn entries _ (motive := fun fields => (keys fields).Nodup) List.nodup_nil
    fun _ h entry _ => nodup_keys_insert h entry.1 entry.2

theorem mem_of_mem_ofEntries {entries : List (String × α)} {e : String × α}
    (h : e ∈ ofEntries entries) : e ∈ entries := by
  refine List.foldlRecOn entries _ (motive := fun fields => ∀ e ∈ fields, e ∈ entries) (by simp) ?_ e h
  intro fields hfields entry hentry e he
  rcases mem_insert he with rfl | he
  · exact hentry
  · exact hfields e he

theorem mem_erase {fields : Fields α} {key : String} {entry : String × α}
    (h : entry ∈ fields.erase key) : entry ∈ fields := by
  induction fields with
  | nil => simp [erase] at h
  | cons first rest ih => grind [erase]

theorem insert_insert (fields : Fields α) (key : String) (value other : α) :
    (fields.insert key value).insert key other = fields.insert key other := by
  induction fields with
  | nil => simp [insert]
  | cons entry rest ih => grind [insert]

theorem insert_of_get? {fields : Fields α} {key : String} {value : α}
    (h : fields.get? key = some value) : fields.insert key value = fields := by
  induction fields with
  | nil => simp [get?] at h
  | cons entry rest ih => grind [insert, get?]

theorem erase_of_notMem {fields : Fields α} {key : String} (h : key ∉ fields.keys) :
    fields.erase key = fields := by
  induction fields with
  | nil => rfl
  | cons entry rest ih => grind [erase, keys]

theorem erase_insert {fields : Fields α} {key : String} (value : α) (h : key ∉ fields.keys) :
    (fields.insert key value).erase key = fields := by
  induction fields with
  | nil => simp [insert, erase]
  | cons entry rest ih => grind [insert, erase, keys]

end Fields

end StoryCodec
