import NamedData.Fnv

namespace NamedData

inductive Event
  | inserted
  | duplicate
  /-- A reference did not lead to a content. -/
  | stale
  | search (selector : String) (hit : Bool)
  | duration
  | answered
  | deferred
  | error (kind variant : String)
  deriving DecidableEq

namespace Event

def family : Event → String
  | inserted => "nrepo_index_inserts_total"
  | duplicate => "nrepo_index_duplicates_total"
  | stale => "nrepo_index_stale_refs_total"
  | search _ _ => "nrepo_index_searches_total"
  | duration => "nrepo_index_search_duration_seconds"
  | answered | deferred => "nrepo_index_enumerations_total"
  | error _ _ => "nrepo_errors_total"

/-- The labels in the order in which their family declares them. -/
def labels : Event → List (String × String)
  | search selector hit => [("selector", selector), ("outcome", if hit then "hit" else "miss")]
  | answered => [("result", "answered")]
  | deferred => [("result", "deferred")]
  | error kind variant => [("kind", kind), ("variant", variant)]
  | _ => []

/-- What events of one counter have in common. The values of the labels are hashed one after the
other with nothing in between, so a family does not tell apart values that spell the same. -/
def key (e : Event) : String × UInt64 :=
  (e.family, Fnv.hash (e.labels.flatMap fun l => Bytes.ofText l.2))

def sortedLabels (e : Event) : List (String × String) :=
  e.labels.mergeSort fun a b => !decide (b.1 < a.1)

def toText (e : Event) : String :=
  if e.labels.isEmpty then e.family
  else e.family ++ "\x7b" ++
    String.intercalate "," (e.sortedLabels.map fun l => l.1 ++ "=" ++ l.2) ++ "\x7d"

end Event

/-- What the observation of one search reports: its end, if it came to one, and in any case the
time that it took. -/
def searchEvents (selector : String) (hit : Option Bool) : List Event :=
  (hit.map (Event.search selector)).toList ++ [.duration]

end NamedData
