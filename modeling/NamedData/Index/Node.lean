import NamedData.Component.Basic
import NamedData.Name.Basic
import NamedData.Timestamp

namespace NamedData

structure NodeState (R : Type) where
  /-- References to the contents of this name, in order of insertion. -/
  content : List R
  /-- When the last child was added. -/
  lastModified : Timestamp
  /-- Whether a request for a listing waits for the next child. -/
  pending : Bool
  deriving DecidableEq

/-- Trees side by side: the key that leads to the first one, what its node carries and holds, the
trees below it, and the others. -/
inductive Forest (R : Type)
  | nil
  | cons (key : Component) (component : Option Component) (state : NodeState R)
    (below next : Forest R)
  deriving DecidableEq

structure Node (R : Type) where
  /-- The component that the node stands for. The root has none. -/
  component : Option Component
  state : NodeState R
  children : Forest R
  deriving DecidableEq

variable {R : Type}

def NodeState.fresh : NodeState R := ⟨[], .epoch, false⟩

def Node.root : Node R := ⟨none, .fresh, .nil⟩

def Node.child (c : Component) : Node R := ⟨some c, .fresh, .nil⟩

namespace Forest

def components : Forest R → List Component
  | nil => []
  | cons c _ _ _ next => c :: next.components

def find? (c : Component) : Forest R → Option (Node R)
  | nil => none
  | cons d own s below next => if c = d then some ⟨own, s, below⟩ else next.find? c

/-- Puts a node at the place of a key, in exchange for the one that has the same key. -/
def put (c : Component) (n : Node R) : Forest R → Forest R
  | nil => cons c n.component n.state n.children nil
  | cons d own s below next =>
    match compare c d with
    | .lt => cons c n.component n.state n.children (cons d own s below next)
    | .eq => cons c n.component n.state n.children next
    | .gt => cons d own s below (next.put c n)

def above (bound : Component) : Forest R → Forest R
  | nil => nil
  | cons c own s below next => if bound < c then cons c own s below next else next.above bound

def walk (path : List Component) : Forest R → List (List Component × Node R)
  | nil => []
  | cons c own s below next =>
    (path ++ [c], ⟨own, s, below⟩) :: (below.walk (path ++ [c]) ++ next.walk path)

end Forest

namespace Node

def descend? : List Component → Node R → Option (Node R)
  | [], n => some n
  | c :: path, n => (n.children.find? c).bind (descend? path)

def modify (f : NodeState R → NodeState R) : List Component → Node R → Node R
  | [], n => { n with state := f n.state }
  | c :: path, n =>
    match n.children.find? c with
    | none => n
    | some child => { n with children := n.children.put c (child.modify f path) }

/-- The node and all below it with their names, parents before their children and children in
ascending order. -/
def walk (n : Node R) : List (Name × Node R) :=
  (.root, n) :: (n.children.walk []).map fun e => (⟨e.1⟩, e.2)

end Node

end NamedData
