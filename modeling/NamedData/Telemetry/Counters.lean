import NamedData.Telemetry.Event

namespace NamedData

structure Counter where
  first : Event
  count : Nat
  deriving DecidableEq

/-- The counters that have grown, no two of which have the same key. -/
structure Counters where
  counters : List Counter
  deriving DecidableEq

namespace Counters

def zero : Counters := ⟨[]⟩

def value (c : Counters) (e : Event) : Nat :=
  match c.counters.find? fun k => k.first.key == e.key with
  | none => 0
  | some k => k.count

def bump (e : Event) : List Counter → List Counter
  | [] => [⟨e, 1⟩]
  | k :: rest =>
    if k.first.key = e.key then { k with count := k.count+1 } :: rest else k :: bump e rest

def record (c : Counters) (e : Event) : Counters := ⟨bump e c.counters⟩

def recordAll (c : Counters) (es : List Event) : Counters := es.foldl record c

/-- Whether a counter has the same written form as another one and smaller labels. -/
def shadowed (k other : Counter) : Bool :=
  k.first.toText == other.first.toText &&
    k.first.sortedLabels.map Prod.snd < other.first.sortedLabels.map Prod.snd

/-- The counts by written form. Of counters that are written alike, the one with the greatest labels
is read. -/
def readings (c : Counters) : List (String × Nat) :=
  (c.counters.filter fun k => !c.counters.any (shadowed k)).map fun k => (k.first.toText, k.count)

end Counters

/-- Where events go: to counters, or nowhere. -/
inductive Sink
  | counting (counters : Counters)
  | idle
  deriving DecidableEq

namespace Sink

def record (s : Sink) (e : Event) : Sink :=
  match s with
  | counting c => counting (c.record e)
  | idle => idle

def counters : Sink → Counters
  | counting c => c
  | idle => .zero

end Sink

end NamedData
