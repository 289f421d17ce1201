import NamedData.Settings
import NamedData.Index.Enumerate
import NamedData.Index.Get
import NamedData.Index.Insert
import NamedData.Store
import NamedData.Telemetry.Counters

namespace NamedData

structure Repository where
  index : Index Slot
  store : Store
  responder : Component
  counters : Counters

namespace Repository

def ofSettings (s : IndexSettings) : Except SettingsError Repository :=
  s.responderComponent.map fun c => ⟨.empty s.selector, .empty, c, .zero⟩

/-- Stores a content without indexing it; the answer is its slot. -/
def put (x : Repository) (o : Content) : Repository × Slot :=
  ({ x with store := x.store.put o }, x.store.next)

def absorb {α : Type} (x : Repository) (o : Outcome Slot α) : Repository × Except Violation α :=
  ({ x with index := o.index, counters := x.counters.recordAll o.events }, o.result)

/-- Indexes a content under a slot that is already there. -/
def insertAt (x : Repository) (o : Content) (slot : Slot) (now : Timestamp) :
    Repository × Except Violation Insertion :=
  x.absorb (x.index.insert x.store.get? o slot now)

/-- Stores a content and indexes it under its slot, which stays in use even if the index refuses
the content. -/
def insert (x : Repository) (o : Content) (now : Timestamp) :
    Repository × Except Violation Insertion :=
  (x.put o).1.insertAt o (x.put o).2 now

/-- Drops a content; the answer is whether it was there. -/
def evict (x : Repository) (slot : Slot) : Repository × Bool :=
  ({ x with store := x.store.evict slot }, (x.store.get? slot).isSome)

def get (x : Repository) (i : Interest) : Repository × Except Violation (Option (Match Slot)) :=
  x.absorb (x.index.get x.store.get? i)

/-- Searches from the node of an Interest's name, if there is one. Nothing but stale references is
reported. -/
def search (x : Repository) (i : Interest) (selector : Selector) :
    Repository × Option (Except Violation (Option (Match Slot))) :=
  match x.index.lookupNode i.name i.name.length with
  | .error v => (x, some (.error v))
  | .ok none => (x, none)
  | .ok (some n) =>
    let s := n.search x.store.get? i selector
    ({ x with counters := x.counters.recordAll (staleEvents x.store.get? s.probed) }, some s.result)

def enumerate (x : Repository) (i : Interest) (responder : Component) :
    Repository × Except Violation (Option Listing) :=
  x.absorb (x.index.enumerate i responder)

def pending? (x : Repository) (i : Interest) : Except Violation (Option Bool) :=
  match i.name.before? .enumeration with
  | none => .ok none
  | some n => (x.index.lookupNode n n.length).map fun m => m.map (·.state.pending)

end Repository

end NamedData
