import StoryCodec.Proofs.Arrays
import StoryCodec.Proofs.WellFormed

namespace StoryCodec

namespace Json

def Integral (lower upper : Int) (t : Json) : Prop :=
  ∃ n hl hu, t = .num (.int n hl hu) ∧ lower ≤ n ∧ n < upper

/-- No field, or one field of the given key and kind. -/
def Optional (key : String) (P : Json → Prop) (fields : Fields Json) : Prop :=
  fields = [] ∨ ∃ t, fields = [(key, t)] ∧ P t

inductive CanonicalDivert : Json → Prop
  | toStory {key : String} (hkey : key ∈ ["->", "f()", "->t->"]) (s : String) {byName : Fields Json}
      (hname : Optional "var" (· = .bool true) byName) :
      CanonicalDivert (.obj ((key, .str s) :: byName))
  | toGame (s : String) {byName args : Fields Json}
      (hname : Optional "var" (· = .bool true) byName)
      (hargs : Optional "exArgs" (Integral 1 0x8000000000000000) args) :
      CanonicalDivert (.obj (("x()", .str s) :: (byName ++ args)))

/-- The token is no array that ends in a record with a name. -/
def Nameless (t : Json) : Prop :=
  ∀ items fields, t = .arr (items ++ [.obj fields]) → "#n" ∉ Fields.keys fields

/-- The tokens that are written, with their keys in the order in which they are written. -/
inductive Canonical : Json → Prop
  | int {n : Int} {lower : -0x8000000000000000 ≤ n} {upper : n < 0x10000000000000000}
      (h : n < 0x8000000000000000) : Canonical (.num (.int n lower upper))
  | float (x : FiniteBinary64) : Canonical (.num (.float x))
  | newline : Canonical (.str "\n")
  | text {s : String} (h : s ≠ "\n") : Canonical (.str ("^" ++ s))
  | word {s : String} (h : s ∈ ["<>", "G<", "G>", "void"]) : Canonical (.str s)
  | command (c : Command) : Canonical (.str c.mnemonic)
  | operator (op : Operator) : Canonical (.str op.symbol)
  | target (s : String) : Canonical (.obj [("^->", .str s)])
  | pointer (s : String) {context : Fields Json}
      (h : Optional "ci" (Integral (-0x80000000) 0x80000000) context) :
      Canonical (.obj (("^var", .str s) :: context))
  | divert {t : Json} (h : CanonicalDivert t) : Canonical t
  | choicePoint (s : String) {flags : Json} (h : Integral 0 0x100000000 flags) :
      Canonical (.obj [("*", .str s), ("flg", flags)])
  | reference {key : String} (hkey : key ∈ ["VAR?", "CNT?"]) (s : String) :
      Canonical (.obj [(key, .str s)])
  | assignment {key : String} (hkey : key ∈ ["VAR=", "temp="]) (s : String) {again : Fields Json}
      (h : Optional "re" (· = .bool true) again) : Canonical (.obj ((key, .str s) :: again))
  | branch {onTrue onFalse : Fields Json} (ht : Optional "t?" CanonicalDivert onTrue)
      (hf : Optional "f?" CanonicalDivert onFalse) (h : onTrue ++ onFalse ≠ []) :
      Canonical (.obj (onTrue ++ onFalse))
  | choice (s path : String) {index thread : Json}
      (hi : Integral (-0x8000000000000000) 0x8000000000000000 index)
      (ht : Integral (-0x8000000000000000) 0x8000000000000000 thread) :
      Canonical (.obj [("text", .str s), ("index", index), ("originalChoicePath", .str path),
        ("originalThreadIndex", thread)])
  | array {items : List Json} {named flags name : Fields Json} (hitems : ∀ t ∈ items, Canonical t)
      (hkeys : (Fields.keys named).Nodup) (hreserved : ∀ key ∈ Fields.keys named, key ∉ ["#f", "#n"])
      (hnamed : ∀ e ∈ named, Canonical e.2) (hnameless : ∀ e ∈ named, Nameless e.2)
      (hflags : Optional "#f" (Integral 1 0x100000000) flags)
      (hname : Optional "#n" (∃ s, · = .str s) name) :
      Canonical (.arr (items ++ [ending (named ++ flags ++ name)]))

section

variable {t : Json}

theorem integral_int64 :
    t.Integral (-0x8000000000000000) 0x8000000000000000 ↔ ∃ n : Int64, t = .num (.ofInt64 n) := by
  constructor
  · rintro ⟨n, _, _, rfl, lower, upper⟩
    have hn := Int64.toInt_ofInt_of_le lower upper
    exact ⟨Int64.ofInt n, by simp only [Number.ofInt64, hn]⟩
  · rintro ⟨n, rfl⟩
    exact ⟨n.toInt, _, _, rfl, n.le_toInt, n.toInt_lt⟩

theorem integral_int32 :
    t.Integral (-0x80000000) 0x80000000 ↔ ∃ n : Int32, t = .num (.ofInt32 n) := by
  constructor
  · rintro ⟨n, _, _, rfl, lower, upper⟩
    have hn := Int32.toInt_ofInt_of_le lower upper
    exact ⟨Int32.ofInt n, by simp only [Number.ofInt32, hn]⟩
  · rintro ⟨n, rfl⟩
    exact ⟨n.toInt, _, _, rfl, n.le_toInt, n.toInt_lt⟩

theorem integral_uint32 {least : Nat} :
    t.Integral least 0x100000000 ↔ ∃ n : UInt32, least ≤ n.toNat ∧ t = .num (.ofUInt32 n) := by
  constructor
  · rintro ⟨n, _, _, rfl, lower, upper⟩
    have hn : (UInt32.ofNat n.toNat).toNat = n.toNat :=
      UInt32.toNat_ofNat_of_lt' (by change _ < 2 ^ 32; omega)
    have hcast : (n.toNat : Int) = n := Int.toNat_of_nonneg (by omega)
    exact ⟨UInt32.ofNat n.toNat, by omega, by simp only [Number.ofUInt32, hn, hcast]⟩
  · rintro ⟨n, lower, rfl⟩
    have upper := n.toNat_lt
    exact ⟨n.toNat, _, _, rfl, by omega, by omega⟩

theorem integral_uint64 {least limit : Nat} :
    t.Integral least limit ↔
      ∃ n : UInt64, least ≤ n.toNat ∧ n.toNat < limit ∧ t = .num (.ofUInt64 n) := by
  constructor
  · rintro ⟨n, _, _, rfl, lower, upper⟩
    have hn : (UInt64.ofNat n.toNat).toNat = n.toNat :=
      UInt64.toNat_ofNat_of_lt' (by change _ < 2 ^ 64; omega)
    have hcast : (n.toNat : Int) = n := Int.toNat_of_nonneg (by omega)
    exact ⟨UInt64.ofNat n.toNat, by omega, by omega, by simp only [Number.ofUInt64, hn, hcast]⟩
  · rintro ⟨n, lower, upper, rfl⟩
    exact ⟨n.toNat, _, _, rfl, by omega, by omega⟩

end

end Json

end StoryCodec
