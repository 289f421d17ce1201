namespace NamedData

inductive Violation
  /-- The components of an exclusion do not ascend. -/
  | exclusionOutOfOrder
  /-- A name to be stored has a component without bytes. -/
  | emptyComponent
  /-- A Bloom filter claims more bits than a 32-bit mask can address. -/
  | maskOverflow
  /-- The root of an index has a component. -/
  | rootComponent
  deriving DecidableEq

def Violation.message : Violation → String
  | exclusionOutOfOrder => "exclude filter components out of order"
  | emptyComponent => "non-root node with empty component"
  | maskOverflow => "attempt to shift left with overflow"
  | rootComponent => "content index root carries a component"

end NamedData
