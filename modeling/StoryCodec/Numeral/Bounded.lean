namespace StoryCodec

/-- The 64-bit integer `n`, if there is one. -/
def int64? (n : Int) : Option Int64 :=
  if -0x8000000000000000 ≤ n ∧ n < 0x8000000000000000 then some (Int64.ofInt n) else none

def int32? (n : Int) : Option Int32 :=
  if -0x80000000 ≤ n ∧ n < 0x80000000 then some (Int32.ofInt n) else none

def uint32? (n : Int) : Option UInt32 :=
  if 0 ≤ n ∧ n < 0x100000000 then some (UInt32.ofNat n.toNat) else none

def uint64? (n : Int) : Option UInt64 :=
  if 0 ≤ n ∧ n < 0x10000000000000000 then some (UInt64.ofNat n.toNat) else none

/-- The 64-bit integer nearest to `n`. -/
def clampInt64 (n : Int) : Int64 :=
  Int64.ofInt (max (-0x8000000000000000) (min n 0x7fffffffffffffff))

theorem int64?_toInt (n : Int64) : int64? n.toInt = some n := by
  rw [int64?, if_pos ⟨n.le_toInt, n.toInt_lt⟩, Int64.ofInt_toInt]

theorem int64?_eq_some_iff {m : Int} {n : Int64} : int64? m = some n ↔ n.toInt = m := by
  constructor
  · intro h
    obtain ⟨hbound, ⟨⟩⟩ := Option.ite_none_right_eq_some.1 h
    exact Int64.toInt_ofInt_of_le (by omega) (by omega)
  · rintro rfl
    exact int64?_toInt n

theorem int32?_toInt (n : Int32) : int32? n.toInt = some n := by
  rw [int32?, if_pos ⟨n.le_toInt, n.toInt_lt⟩, Int32.ofInt_toInt]

theorem uint32?_toNat (n : UInt32) : uint32? n.toNat = some n := by
  have upper := n.toNat_lt
  rw [uint32?, if_pos (by omega), Int.toNat_natCast, UInt32.ofNat_toNat]

theorem uint64?_toNat (n : UInt64) : uint64? n.toNat = some n := by
  have upper := n.toNat_lt
  rw [uint64?, if_pos (by omega), Int.toNat_natCast, UInt64.ofNat_toNat]

theorem clampInt64_toInt (n : Int) :
    (clampInt64 n).toInt = max (-0x8000000000000000) (min n 0x7fffffffffffffff) :=
  Int64.toInt_ofInt_of_le (by omega) (by omega)

end StoryCodec
