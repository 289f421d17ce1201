namespace NamedData

/-- The parts of telemetry that are in place. -/
structure Installation where
  collectors : Bool
  logging : Bool
  sink : Bool
  deriving DecidableEq

namespace Installation

def none : Installation := ⟨false, false, false⟩

def registerCollectors (s : Installation) : Option Installation :=
  if s.collectors then .none else some { s with collectors := true }

/-- Starts logging and, if metrics are asked for, registers the collectors and makes them the sink
of all events. -/
def start (s : Installation) (metrics : Bool) : Option Installation :=
  if s.logging then .none
  else if metrics then
    (registerCollectors { s with logging := true }).bind fun t =>
      if t.sink then .none else some { t with sink := true }
  else some { s with logging := true }

def complete : Installation := (none.start true).getD none

end Installation

end NamedData
