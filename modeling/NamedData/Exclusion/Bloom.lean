import NamedData.Component.Basic
import NamedData.Fnv
import NamedData.Violation

namespace NamedData

/-- A seeded set of components that may hold more than was put in, and never holds less. -/
structure Bloom where
  lgBits : UInt8
  /-- Positions per component. -/
  hashes : UInt8
  seed : Vector UInt8 4
  /-- The low bit of a byte is its first; a position beyond the end is never set. -/
  bits : Bytes
  deriving DecidableEq

namespace Bloom

/-- Ten bits for each expected member, rounded up to a power of two between 2^6 and 2^16. -/
def lgSize (expected : Nat) : Nat :=
  ((List.range' 6 10).find? fun lg => 10*max expected 1 ≤ 1 <<< lg).getD 16

def withCapacity (expected : Nat) (seed : Vector UInt8 4) : Bloom :=
  ⟨UInt8.ofNat (lgSize expected), 7, seed, List.replicate (1 <<< (lgSize expected-3)) 0⟩

def mask (lg : UInt8) : UInt32 := ((1 : UInt32) <<< lg.toUInt32)-1

def spread (h : UInt64) (m : UInt32) (n : Nat) : List Nat :=
  let first : UInt32 := h.toUInt32
  let stride : UInt32 := (h >>> 32).toUInt32 ||| 1
  (List.range n).map fun i => ((first+UInt32.ofNat i*stride) &&& m).toNat

/-- The positions of a component. A mask of thirty-two bits or more cannot be formed. -/
def positions (f : Bloom) (c : Component) : Except Violation (List Nat) :=
  if f.lgBits < 32 then
    .ok (spread (Fnv.hash (f.seed.toList ++ c.bytes)) (mask f.lgBits) f.hashes.toNat)
  else .error .maskOverflow

def flag (p : Nat) : UInt8 := 1 <<< UInt8.ofNat (p%8)

def testBit (bits : Bytes) (p : Nat) : Bool := (bits.getD (p/8) 0 &&& flag p) != 0

def setBit (bits : Bytes) (p : Nat) : Bytes := bits.modify (p/8) (· ||| flag p)

def insert (f : Bloom) (c : Component) : Except Violation Bloom :=
  (f.positions c).map fun ps => { f with bits := ps.foldl setBit f.bits }

def contains (f : Bloom) (c : Component) : Except Violation Bool :=
  (f.positions c).map fun ps => ps.all (testBit f.bits)

end Bloom

end NamedData
