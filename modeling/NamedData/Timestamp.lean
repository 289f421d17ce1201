namespace NamedData

/-- A point in time, in ticks since the epoch. -/
structure Timestamp where
  ticks : UInt64
  deriving DecidableEq, Inhabited

namespace Timestamp

def ticksPerSecond : Nat := 4096

def epoch : Timestamp := ⟨0⟩

instance : LT Timestamp := ⟨fun a b => a.ticks < b.ticks⟩
instance : LE Timestamp := ⟨fun a b => a.ticks ≤ b.ticks⟩
instance (a b : Timestamp) : Decidable (a < b) := inferInstanceAs (Decidable (a.ticks < b.ticks))
instance (a b : Timestamp) : Decidable (a ≤ b) := inferInstanceAs (Decidable (a.ticks ≤ b.ticks))

/-- The last tick at or before a millisecond, or the largest timestamp if that does not fit. -/
def ofMillis (millis : UInt64) : Timestamp :=
  ⟨UInt64.ofNat (min (millis.toNat*ticksPerSecond/1000) (UInt64.size-1))⟩

def toMillis (t : Timestamp) : UInt64 := UInt64.ofNat (t.ticks.toNat*1000/ticksPerSecond)

/-- Whole seconds and the ticks that are left over. -/
def toText (t : Timestamp) : String :=
  toString (t.ticks.toNat/ticksPerSecond) ++ "+" ++ toString (t.ticks.toNat%ticksPerSecond) ++ "/4096"

end Timestamp

end NamedData
