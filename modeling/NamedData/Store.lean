import NamedData.Content

namespace NamedData

/-- A handle to a stored content. -/
structure Slot where
  number : UInt64
  deriving DecidableEq

def Slot.describe (s : Slot) : String := "SlotRef(" ++ toString s.number.toNat ++ ")"

structure Store where
  entries : List (Slot × Content)
  next : Slot

namespace Store

def empty : Store := ⟨[], ⟨0⟩⟩

def size (s : Store) : Nat := s.entries.length

def isEmpty (s : Store) : Bool := s.entries.isEmpty

def get? (s : Store) (slot : Slot) : Option Content := s.entries.lookup slot

def without (s : Store) (slot : Slot) : List (Slot × Content) :=
  s.entries.filter fun e => e.1 != slot

def put (s : Store) (o : Content) : Store :=
  ⟨(s.next, o) :: s.without s.next, ⟨s.next.number+1⟩⟩

def evict (s : Store) (slot : Slot) : Store := { s with entries := s.without slot }

end Store

end NamedData
