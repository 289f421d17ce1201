import NamedData.Component.Basic
import NamedData.Timestamp

namespace NamedData.Component

def versionMarker : UInt8 := 0xFD

def segmentMarker : UInt8 := 0x00

/-- The command that introduces a one-level listing. -/
def enumeration : Component := ⟨[0xC1, 0x2E, 0x45, 0x2E, 0x62, 0x65]⟩

/-- The version of a point in time. Six bytes hold every tick count below 2^48, and byte order is
time order among these; larger counts take eight bytes. -/
def version (t : Timestamp) : Component :=
  ⟨versionMarker :: Bytes.ofNat (if t.ticks.toNat < 1 <<< 48 then 6 else 8) t.ticks.toNat⟩

/-- The segment of a number, without leading zero bytes: segment zero is the bare marker. -/
def segment (n : UInt64) : Component :=
  ⟨segmentMarker :: (Bytes.ofWord n).dropWhile (· == 0)⟩

/-- The number after a marker byte, if at most eight bytes follow it. -/
def number? (marker : UInt8) (c : Component) : Option UInt64 :=
  match c.bytes with
  | [] => none
  | b :: digits =>
    if b = marker ∧ digits.length ≤ 8 then some (UInt64.ofNat (Bytes.toNat digits)) else none

def version? (c : Component) : Option Timestamp := (c.number? versionMarker).map Timestamp.mk

def segment? (c : Component) : Option UInt64 := c.number? segmentMarker

def isEnumeration (c : Component) : Bool := c == enumeration

end NamedData.Component
