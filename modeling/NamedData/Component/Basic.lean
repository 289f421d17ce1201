import NamedData.Bytes

namespace NamedData

/-- The empty byte string is a value of this type, although no URI denotes it. -/
structure Component where
  bytes : Bytes
  deriving DecidableEq, Inhabited

namespace Component

instance : LT Component := ⟨fun a b => a.bytes < b.bytes⟩
instance (a b : Component) : Decidable (a < b) := inferInstanceAs (Decidable (a.bytes < b.bytes))
instance : Ord Component := ⟨fun a b => compareOfLessAndEq a b⟩

def length (c : Component) : Nat := c.bytes.length

def isEmpty (c : Component) : Bool := c.bytes.isEmpty

def ofDigest (d : Vector UInt8 32) : Component := ⟨d.toList⟩

end Component

end NamedData
