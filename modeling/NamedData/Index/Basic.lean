import NamedData.Index.Node
import NamedData.Interest.Basic
import NamedData.Telemetry.Event
import NamedData.Violation

namespace NamedData

/-- How references lead to contents. A reference that leads nowhere is stale. -/
abbrev Resolver (R : Type) := R → Option Content

/-- The index keeps references and never looks at what they stand for. -/
structure Index (R : Type) where
  root : Node R
  /-- The end preferred by Interests that name none. -/
  defaultSelector : Selector
  objects : Nat
  nodes : Nat

/-- What an operation leaves behind: the index, the events that it reported, and its result. -/
structure Outcome (R α : Type) where
  index : Index R
  events : List Event
  result : Except Violation α

variable {R : Type}

def staleEvents (resolve : Resolver R) (rs : List R) : List Event :=
  (rs.filter fun r => (resolve r).isNone).map fun _ => .stale

namespace Index

def empty (selector : Selector) : Index R := ⟨.root, selector, 0, 1⟩

def isEmpty (x : Index R) : Bool := x.objects == 0

/-- The node that the first `depth` components of a name lead to, if there are as many. -/
def node? (x : Index R) (n : Name) (depth : Nat) : Option (Node R) :=
  if depth ≤ n.length then x.root.descend? (n.components.take depth) else none

/-- Looks a node up, in an index whose root is one. -/
def lookupNode (x : Index R) (n : Name) (depth : Nat) : Except Violation (Option (Node R)) :=
  if x.root.component.isNone then .ok (x.node? n depth) else .error .rootComponent

/-- The references at a name. A name without any has no entry. -/
def lookup (x : Index R) (n : Name) : Except Violation (Option (List R)) :=
  (x.lookupNode n n.length).map fun m =>
    m.bind fun m => if m.state.content.isEmpty then none else some m.state.content

end Index

end NamedData
