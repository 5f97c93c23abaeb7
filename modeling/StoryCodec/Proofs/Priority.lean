import StoryCodec.Proofs.Leaves
import StoryCodec.Proofs.Reordering

namespace StoryCodec

namespace Record

/-- The kinds of records that have a mark, in the order in which the marks count. -/
inductive Kind
  | target
  | pointer
  | divert
  | choicePoint
  | named
  | readCount
  | global
  | temporary
deriving DecidableEq

/-- A record whose mark alone says what it stands for. -/
def labelled (key : String) (make : String → Object) : Shape := fun fields => do
  match ← string? fields key with
  | none => .ok none
  | some s => .ok (some (make s))

namespace Kind

def all : List Kind :=
  [target, pointer, divert, choicePoint, named, readCount, global, temporary]

def marks : Kind → List String
  | target => ["^->"]
  | pointer => ["^var"]
  | divert => ["->", "f()", "->t->", "x()"]
  | choicePoint => ["*"]
  | named => ["VAR?"]
  | readCount => ["CNT?"]
  | global => ["VAR="]
  | temporary => ["temp="]

/-- The keys of what is read besides the mark. Only a call to the game has arguments. -/
def details (fields : Fields Json) : Kind → List String
  | pointer => ["ci"]
  | divert => if fields.has "x()" then ["exArgs"] else []
  | choicePoint => ["flg"]
  | _ => []

/-- The keys that are not read but make a difference by being there. -/
def flags : Kind → List String
  | divert => ["var"]
  | global => ["re"]
  | temporary => ["re"]
  | _ => []

/-- The kind of the first mark that a record has. -/
def of? (fields : Fields Json) : Option Kind :=
  all.find? fun kind => kind.marks.any fields.has

/-- Two records with the same in all places that a kind of record is read from. -/
structure Alike (kind : Kind) (fields others : Fields Json) : Prop where
  marks : ∀ key ∈ kind.marks, fields.get? key = others.get? key
  details : ∀ key ∈ kind.details fields, fields.get? key = others.get? key
  flags : ∀ key ∈ kind.flags, fields.has key = others.has key

def read : Kind → Shape
  | target => targetValue
  | pointer => pointerValue
  | divert => Record.divert
  | choicePoint => Record.choicePoint
  | named => labelled "VAR?" fun name => .reference (.named name)
  | readCount => labelled "CNT?" fun path => .reference (.readCount (.parse path))
  | global => fun fields =>
    labelled "VAR=" (fun name => .assignment ⟨name, true, !fields.has "re"⟩) fields
  | temporary => fun fields =>
    labelled "temp=" (fun name => .assignment ⟨name, false, !fields.has "re"⟩) fields

end Kind

variable {fields others : Fields Json} {key : String}

theorem string?_eq_none_iff : string? fields key = .ok none ↔ fields.has key = false := by
  rw [string?, Fields.has]
  split <;> simp_all

theorem string?_congr (h : fields.get? key = others.get? key) :
    string? fields key = string? others key := by
  rw [string?, string?, h]

theorem narrowed?_congr {α : Type} {narrow : Int → Option α} {fault : Reason}
    (h : fields.get? key = others.get? key) :
    narrowed? narrow fault fields key = narrowed? narrow fault others key := by
  rw [narrowed?, narrowed?, integer?, integer?, h]

theorem has_congr (h : fields.get? key = others.get? key) : fields.has key = others.has key := by
  rw [Fields.has, Fields.has, h]

theorem labelled_congr {make : String → Object} (h : fields.get? key = others.get? key) :
    labelled key make fields = labelled key make others := by
  rw [labelled, labelled, string?_congr h]

/-- A record is left to another shape only for want of the mark. -/
theorem bind_string?_eq_none_iff {read : String → Except Reason (Option Object)}
    (hread : ∀ s, read s ≠ .ok none) :
    (do
      match ← string? fields key with
      | none => .ok none
      | some s => read s) = Except.ok none ↔ fields.has key = false := by
  rw [← string?_eq_none_iff]
  rcases string? fields key with reason | _ | s <;> simp [bind, Except.bind, hread]

theorem labelled_eq_none_iff {make : String → Object} :
    labelled key make fields = .ok none ↔ fields.has key = false := by
  apply bind_string?_eq_none_iff
  intro s h
  cases h

theorem pointerValue_eq_none_iff : pointerValue fields = .ok none ↔ fields.has "^var" = false := by
  apply bind_string?_eq_none_iff
  intro name h
  obtain ⟨context, -, h⟩ := bind_eq_ok.1 h
  cases h

theorem choicePoint_eq_none_iff :
    Record.choicePoint fields = .ok none ↔ fields.has "*" = false := by
  apply bind_string?_eq_none_iff
  intro path h
  obtain ⟨bits, -, h⟩ := bind_eq_ok.1 h
  cases h

theorem mem_all_of_filter {p : Departure → Bool} {departure : Departure}
    (h : Departure.all.filter p = [departure]) : departure ∈ Departure.all ∧ p departure := by
  apply List.mem_filter.1
  rw [h]
  exact List.mem_singleton_self departure

/-- One departure is enough for a record to be read as a divert or not at all. -/
theorem divert_eq_none_iff : Record.divert fields = .ok none ↔
    ∀ departure ∈ Departure.all, fields.has departure.key = false := by
  rw [Record.divert]
  split
  next h => simpa using h
  next departure h =>
    have hmem := mem_all_of_filter h
    refine iff_of_false (fun hnone => ?_) fun hall => by simp [hall _ hmem.1] at hmem
    obtain ⟨target, -, hnone⟩ := bind_eq_ok.1 hnone
    cases departure with
    | external =>
        obtain ⟨args, -, hnone⟩ := bind_eq_ok.1 hnone
        cases hnone
    | _ => cases hnone
  next hnil _ =>
    refine iff_of_false (by simp) fun hall => hnil ?_
    rw [List.filter_eq_nil_iff]
    intro departure hmem
    simp [hall departure hmem]

theorem divert_congr (h : Kind.divert.Alike fields others) :
    Record.divert fields = Record.divert others := by
  have hkey (departure : Departure) : fields.get? departure.key = others.get? departure.key :=
    h.marks _ (by cases departure <;> simp [Kind.marks, Departure.key])
  have hpresent : (Departure.all.filter fun departure => fields.has departure.key) =
      Departure.all.filter fun departure => others.has departure.key :=
    List.filter_congr fun departure _ => has_congr (hkey departure)
  rw [Record.divert, Record.divert, ← hpresent]
  split
  next => rfl
  next departure hone =>
    simp only [string?_congr (hkey departure), h.flags "var" (by simp [Kind.flags])]
    cases departure with
    | external =>
        -- The arguments are among the details because the key of a call is there.
        have hcall : fields.has "x()" := (mem_all_of_filter hone).2
        rw [narrowed?_congr (h.details "exArgs" (by simp [Kind.details, hcall]))]
    | _ => rfl
  next => rfl

namespace Kind

theorem read_eq_none_iff (kind : Kind) :
    kind.read fields = .ok none ↔ kind.marks.any fields.has = false := by
  cases kind <;> simp only [marks, List.any_cons, List.any_nil, Bool.or_false]
  case pointer => exact pointerValue_eq_none_iff
  case divert => simp [read, divert_eq_none_iff, Departure.all, Departure.key]
  case choicePoint => exact choicePoint_eq_none_iff
  all_goals exact labelled_eq_none_iff

theorem read_congr {kind : Kind} (h : kind.Alike fields others) :
    kind.read fields = kind.read others := by
  have hmarks := h.marks
  have hdetails := h.details
  have hflags := h.flags
  cases kind
  case divert => exact divert_congr h
  all_goals simp only [marks, details, flags, List.forall_mem_singleton] at hmarks hdetails hflags
  case pointer => simp only [read, pointerValue, string?_congr hmarks, narrowed?_congr hdetails]
  case choicePoint =>
    simp only [read, Record.choicePoint, string?_congr hmarks, narrowed?_congr hdetails]
  case global | temporary => simp only [read, hflags, labelled_congr hmarks]
  all_goals exact labelled_congr hmarks

end Kind

theorem firstOf_singleton (shape : Shape) : firstOf [shape] = shape := by
  funext fields
  rw [firstOf]
  rcases shape fields with reason | _ | o <;> rfl

theorem firstOf_append (shapes more : List Shape) :
    firstOf (shapes ++ more) = firstOf [firstOf shapes, firstOf more] := by
  induction shapes with
  | nil => exact (firstOf_singleton (firstOf more)).symm
  | cons shape shapes ih =>
      funext fields
      rw [List.cons_append, firstOf, ih]
      simp only [firstOf]
      rcases shape fields with reason | _ | o <;> rfl

theorem firstOf_eq_none {shapes : List Shape} (h : ∀ shape ∈ shapes, shape fields = .ok none) :
    firstOf shapes fields = .ok none := by
  induction shapes with
  | nil => rfl
  | cons shape shapes ih =>
      rw [firstOf, h shape List.mem_cons_self]
      exact ih fun shape hmem => h shape (.tail _ hmem)

theorem firstOf_labelled (first second : String) (make other : String → Object) :
    firstOf [labelled first make, labelled second other] fields = (do
      match ← string? fields first with
      | some s => .ok (some (make s))
      | none =>
        match ← string? fields second with
        | some s => .ok (some (other s))
        | none => .ok none) := by
  simp only [firstOf, labelled]
  rcases string? fields first with reason | _ | s
  · rfl
  · rcases string? fields second with reason | _ | s <;> rfl
  · rfl

theorem reference_eq : reference = firstOf [Kind.named.read, Kind.readCount.read] := by
  funext fields
  exact (firstOf_labelled "VAR?" "CNT?" _ _).symm

theorem assignment_eq : assignment = firstOf [Kind.global.read, Kind.temporary.read] := by
  funext fields
  exact (firstOf_labelled "VAR=" "temp=" _ _).symm

theorem firstOf_append_cons {before after : List Shape} {shape : Shape}
    (hbefore : ∀ earlier ∈ before, earlier fields = .ok none) (h : shape fields ≠ .ok none) :
    firstOf (before ++ shape :: after) fields = shape fields := by
  rw [firstOf_append, firstOf, firstOf_eq_none hbefore]
  simp only [bind, Except.bind, firstOf]
  rcases hshape : shape fields with reason | _ | o
  · rfl
  · exact absurd hshape h
  · rfl

/-- Trying the shapes is trying the kinds, where references and assignments are two each. -/
theorem firstOf_marked : firstOf marked = firstOf (Kind.all.map Kind.read) := by
  have hmarked : marked =
      [targetValue, pointerValue, Record.divert, Record.choicePoint] ++
        ([reference] ++ [assignment]) := rfl
  have hkinds : Kind.all.map Kind.read =
      [targetValue, pointerValue, Record.divert, Record.choicePoint] ++
        ([Kind.named.read, Kind.readCount.read] ++ [Kind.global.read, Kind.temporary.read]) := rfl
  rw [hmarked, hkinds, firstOf_append, firstOf_append, firstOf_singleton, firstOf_singleton,
    firstOf_append _ (_ ++ _), firstOf_append [_, _] [_, _], reference_eq, assignment_eq]

namespace Kind

theorem firstOf_marked_eq_none (h : of? fields = none) : firstOf marked fields = .ok none := by
  rw [firstOf_marked]
  apply firstOf_eq_none
  intro shape hmem
  obtain ⟨kind, hkind, rfl⟩ := List.mem_map.1 hmem
  simpa [read_eq_none_iff] using List.find?_eq_none.1 h kind hkind

theorem read_ne_none {kind : Kind} (h : of? fields = some kind) : kind.read fields ≠ .ok none := by
  obtain ⟨hmark, -⟩ := List.find?_eq_some_iff_append.1 h
  rw [Ne, read_eq_none_iff, hmark]
  exact Bool.noConfusion

theorem exists_read_eq {kind : Kind} (h : of? fields = some kind) :
    ∃ r : Except Reason Object, kind.read fields = r.map some := by
  rcases hread : kind.read fields with reason | _ | o
  · exact ⟨.error reason, rfl⟩
  · exact absurd hread (read_ne_none h)
  · exact ⟨.ok o, rfl⟩

theorem firstOf_marked_eq_read {kind : Kind} (h : of? fields = some kind) :
    firstOf marked fields = kind.read fields := by
  obtain ⟨-, before, after, hall, hbefore⟩ := List.find?_eq_some_iff_append.1 h
  have hdeclined : ∀ shape ∈ before.map read, shape fields = .ok none := by
    intro shape hmem
    obtain ⟨earlier, hearlier, rfl⟩ := List.mem_map.1 hmem
    simpa [read_eq_none_iff] using hbefore earlier hearlier
  rw [firstOf_marked, hall, List.map_append, List.map_cons]
  exact firstOf_append_cons hdeclined (read_ne_none h)

end Kind

/-- What is read under a key, where nothing there stands for a default. -/
def readOr {α : Type} (read : Json → Option α) (default : α) (fields : Fields Json)
    (key : String) : Option α :=
  (fields.get? key).elim (some default) read

/-- A record without marks has all that a choice is read from. -/
structure Offers (fields : Fields Json) (c : Choice) : Prop where
  path : fields.get? "originalChoicePath" = some (.str c.path)
  text : readOr Json.string? "" fields "text" = some c.text
  index : readOr Json.integer? 0 fields "index" = some c.index
  thread : readOr Json.integer? 0 fields "originalThreadIndex" = some c.thread

theorem string?_eq_some_iff {s : String} :
    string? fields key = .ok (some s) ↔ fields.get? key = some (.str s) := by
  rw [string?]
  split <;> simp_all

theorem readOr_string?_iff {s : String} :
    readOr Json.string? "" fields key = some s ↔
      ∃ found, string? fields key = .ok found ∧ found.getD "" = s := by
  rw [readOr, string?]
  rcases fields.get? key with _ | token
  · simp
  · cases token <;> simp [Json.string?]

theorem readOr_integer?_iff {n : Int64} :
    readOr Json.integer? 0 fields key = some n ↔
      ∃ found, integer? fields key = .ok found ∧ found.getD 0 = n := by
  rw [readOr, integer?]
  rcases fields.get? key with _ | token
  · simp
  · cases h : token.integer? <;> simp [h]

theorem choice_eq_some_iff {o : Object} :
    Record.choice fields = .ok (some o) ↔ ∃ c, Offers fields c ∧ o = .choice c := by
  rw [Record.choice]
  split
  next hnone =>
    refine iff_of_false (by simp) ?_
    rintro ⟨c, hc, -⟩
    simp [hc.path] at hnone
  next hnull =>
    refine iff_of_false (by simp) ?_
    rintro ⟨c, hc, -⟩
    simp [hc.path] at hnull
  next hpath =>
    simp only [bind_eq_ok]
    constructor
    · rintro ⟨path, hp, text, ht, index, hi, thread, hth, ⟨⟩⟩
      cases path with
      | none => simp [string?_eq_none_iff, Fields.has, hpath] at hp
      | some path =>
          exact ⟨_, ⟨string?_eq_some_iff.1 hp, readOr_string?_iff.2 ⟨text, ht, rfl⟩,
            readOr_integer?_iff.2 ⟨index, hi, rfl⟩, readOr_integer?_iff.2 ⟨thread, hth, rfl⟩⟩, rfl⟩
    · rintro ⟨c, hc, rfl⟩
      obtain ⟨text, ht, htext⟩ := readOr_string?_iff.1 hc.text
      obtain ⟨index, hi, hindex⟩ := readOr_integer?_iff.1 hc.index
      obtain ⟨thread, hth, hthread⟩ := readOr_integer?_iff.1 hc.thread
      exact ⟨_, string?_eq_some_iff.2 hc.path, text, ht, index, hi, thread, hth,
        by rw [htext, hindex, hthread]; rfl⟩

end Record

namespace Object

open Record (Kind Offers)

/-- Nothing is under a key but what can be read. -/
def ReadsUnder (fields : Fields Json) (key : String) : Prop :=
  ∀ side, fields.get? key = some side → ∃ o, decode side = .ok o

def divertUnder? (fields : Fields Json) (key : String) : Option Divert :=
  match (fields.get? key).map decode with
  | some (.ok (some (.divert d))) => some d
  | _ => none

variable {fields : Fields Json} {key : String}

theorem readsUnder_iff : ReadsUnder fields key ↔ ∃ o, Decoding.side key fields = .ok o := by
  rw [ReadsUnder, Decoding.side_eq]
  cases fields.get? key <;> simp

theorem bind_divert?_of_side {o : Option Object} (h : Decoding.side key fields = .ok o) :
    o.bind divert? = divertUnder? fields key := by
  rw [Decoding.side_eq] at h
  cases hside : fields.get? key with
  | none =>
      rw [hside] at h
      cases h
      simp [divertUnder?, hside]
  | some side =>
      simp only [hside] at h
      rw [divertUnder?, hside, Option.map_some, h]
      rcases o with _ | o
      · rfl
      · cases o <;> rfl

theorem decode_of_kind {kind : Kind} (h : Kind.of? fields = some kind) :
    decode (.obj fields) = Decoding.atToken (.obj fields) (kind.read fields) := by
  obtain ⟨r, hr⟩ := Kind.exists_read_eq h
  rw [decode, Decoding.record, Kind.firstOf_marked_eq_read h, hr]
  cases r <;> rfl

theorem readsUnder_of_decode {o : Option Object} (h : decode (.obj fields) = .ok o)
    (unmarked : Kind.of? fields = none) : ReadsUnder fields "t?" ∧ ReadsUnder fields "f?" := by
  simp only [decode, Decoding.record, Kind.firstOf_marked_eq_none unmarked, Decoding.atToken,
    bind_eq_ok, Except.ok.injEq, exists_eq_left'] at h
  obtain ⟨onTrue, ht, onFalse, hf, -⟩ := h
  exact ⟨readsUnder_iff.2 ⟨onTrue, ht⟩, readsUnder_iff.2 ⟨onFalse, hf⟩⟩

theorem decode_without_divert {onTrue onFalse o : Option Object}
    (unmarked : Kind.of? fields = none) (ht : Decoding.side "t?" fields = .ok onTrue)
    (hf : Decoding.side "f?" fields = .ok onFalse) (hTrue : onTrue.bind divert? = none)
    (hFalse : onFalse.bind divert? = none) :
    decode (.obj fields) = .ok o ↔ ∃ c, Offers fields c ∧ o = some (.choice c) := by
  have hchoice (c : Choice) : Record.choice fields = .ok (some (.choice c)) ↔ Offers fields c := by
    simp [Record.choice_eq_some_iff]
  rw [decode, Decoding.record, Kind.firstOf_marked_eq_none unmarked, ht, hf]
  simp only [Decoding.atToken, bind, Except.bind, hTrue, hFalse, ← hchoice]
  rcases hfound : Record.choice fields with reason | _ | found
  · simp
  · simp
  · obtain ⟨c, -, rfl⟩ := Record.choice_eq_some_iff.1 hfound
    simp [eq_comm]

/-- The first mark of a record says what it is read as, and nothing else in it counts but what
belongs to that mark. A record without marks is a branch if a side of it is a divert, else a choice
if it has all of one, and cannot be read if a side cannot. -/
theorem decode_by_first_mark :
    (∀ (kind : Kind) (fields others : Fields Json), Kind.of? fields = some kind →
      Kind.of? others = some kind → kind.Alike fields others →
      ∃ r : Except Reason Object,
        decode (.obj fields) = Decoding.atToken (.obj fields) (r.map some) ∧
        decode (.obj others) = Decoding.atToken (.obj others) (r.map some)) ∧
    ∀ fields : Fields Json, Kind.of? fields = none →
      (¬(ReadsUnder fields "t?" ∧ ReadsUnder fields "f?") →
        ∃ fault, decode (.obj fields) = .error fault) ∧
      (ReadsUnder fields "t?" → ReadsUnder fields "f?" →
        ((divertUnder? fields "t?").isSome ∨ (divertUnder? fields "f?").isSome →
          decode (.obj fields) =
            .ok (some (.branch ⟨divertUnder? fields "t?", divertUnder? fields "f?"⟩))) ∧
        (divertUnder? fields "t?" = none → divertUnder? fields "f?" = none →
          ∀ o, decode (.obj fields) = .ok o ↔ ∃ c, Offers fields c ∧ o = some (.choice c))) := by
  refine ⟨fun kind fields others h h' alike => ?_, fun fields unmarked => ⟨fun hsides => ?_, ?_⟩⟩
  · obtain ⟨r, hr⟩ := Kind.exists_read_eq h
    refine ⟨r, ?_, ?_⟩
    · rw [decode_of_kind h, hr]
    · rw [decode_of_kind h', ← Kind.read_congr alike, hr]
  · cases hdecode : decode (.obj fields) with
    | error fault => exact ⟨fault, rfl⟩
    | ok o => exact absurd (readsUnder_of_decode hdecode unmarked) hsides
  · intro hTrue hFalse
    obtain ⟨onTrue, ht⟩ := readsUnder_iff.1 hTrue
    obtain ⟨onFalse, hf⟩ := readsUnder_iff.1 hFalse
    rw [← bind_divert?_of_side ht, ← bind_divert?_of_side hf]
    exact ⟨decode_of_sides (Kind.firstOf_marked_eq_none unmarked) ht hf rfl,
      fun hnt hnf o => decode_without_divert unmarked ht hf hnt hnf⟩

/-- Sides that cannot be read spoil a record without a mark only. -/
theorem decode_by_first_mark_crowded :
    let jump : Fields Json := [("->", .str "knot")]
    let crowded : Fields Json :=
      [("t?", .bool true), ("re", .null), ("->", .str "knot"), ("VAR=", .null)]
    let spoilt : Fields Json := [("t?", .bool true), ("f?", .obj jump)]
    let branch : Fields Json := [("t?", .str "^no divert"), ("f?", .obj crowded)]
    let choice : Fields Json := [("index", .str " 7 "), ("originalChoicePath", .str "knot.0")]
    (∃ r : Except Reason Object,
      decode (.obj jump) = Decoding.atToken (.obj jump) (r.map some) ∧
      decode (.obj crowded) = Decoding.atToken (.obj crowded) (r.map some)) ∧
    (∃ fault, decode (.obj spoilt) = .error fault) ∧
    decode (.obj branch) = .ok (some (.branch ⟨none, some (.toPath (.parse "knot"))⟩)) ∧
    decode (.obj choice) = .ok (some (.choice ⟨"", 7, "knot.0", 0⟩)) := by
  intro jump crowded spoilt branch choice
  obtain ⟨marked, unmarked⟩ := decode_by_first_mark
  have alike : Kind.divert.Alike jump crowded :=
    ⟨by simp [Kind.marks, jump, crowded, Fields.get?],
      by simp [Kind.details, jump, Fields.has, Fields.get?], by decide⟩
  have read {fields : Fields Json} {key : String} {o : Option Object}
      (h : Decoding.side key fields = .ok o) : ReadsUnder fields key := readsUnder_iff.2 ⟨o, h⟩
  refine ⟨marked .divert jump crowded rfl rfl alike, ?_, ?_, ?_⟩
  · refine (unmarked spoilt rfl).1 fun h => ?_
    obtain ⟨o, ho⟩ := h.1 (.bool true) rfl
    cases ho
  · exact ((unmarked branch rfl).2 (read rfl) (read rfl)).1 (.inr rfl)
  · have offers : Offers choice ⟨"", 7, "knot.0", 0⟩ := ⟨rfl, rfl, by decide, rfl⟩
    exact (((unmarked choice rfl).2 (read rfl) (read rfl)).2 rfl rfl _).2 ⟨_, offers, rfl⟩

end Object

end StoryCodec
