import NamedData.Index.Basic
import NamedData.Index.Listing

namespace NamedData

variable {R : Type}

/-- A node after the path below it has grown. -/
structure Growth (R : Type) where
  node : Node R
  added : Nat
  /-- The listing for the request that was waiting, if the growth answered one. -/
  listing : Option Listing
  /-- What stopped the growth before the end of the path. -/
  fault : Option Violation

namespace Node

def sprout (now : Timestamp) (own : Component) : List Component → Growth R
  | [] => ⟨child own, 0, none, none⟩
  | c :: path =>
    if c.isEmpty then ⟨child own, 0, none, some .emptyComponent⟩
    else
      let g := sprout now c path
      let m : Node R :=
        ⟨some own, { NodeState.fresh with lastModified := now }, Forest.nil.put c g.node⟩
      ⟨m, g.added+1, none, g.fault⟩

/-- Adds the child `c`, which leads to a new path. A waiting request is answered. -/
def branch (now : Timestamp) (here : List Component) (c : Component) (path : List Component)
    (n : Node R) : Growth R :=
  let g := sprout now c path
  let m : Node R :=
    { n with
      state := { n.state with lastModified := now, pending := false }
      children := n.children.put c g.node }
  ⟨m, g.added+1, if n.state.pending then some (.ofNode ⟨here⟩ m) else none, g.fault⟩

/-- Makes sure that a path exists below the node whose own path is `here`. Components that lead to
a node are followed; at the first one that does not, a new path begins. -/
def grow (now : Timestamp) (here : List Component) : List Component → Node R → Growth R
  | [], n => ⟨n, 0, none, none⟩
  | c :: path, n =>
    match n.children.find? c with
    | some child =>
      let g := child.grow now (here ++ [c]) path
      { g with node := { n with children := n.children.put c g.node } }
    | none =>
      if c.isEmpty then ⟨n, 0, none, some .emptyComponent⟩ else n.branch now here c path

end Node

/-- Resolves references until one leads to an equal content: those that were resolved, and whether
there was one. -/
def seekEqual (resolve : Resolver R) (o : Content) : List R → List R × Bool
  | [] => ([], false)
  | r :: rs =>
    if resolve r = some o then ([r], true)
    else (r :: (seekEqual resolve o rs).1, (seekEqual resolve o rs).2)

structure Insertion where
  inserted : Bool
  listing : Option Listing
  deriving DecidableEq

namespace Index

/-- Adds a reference at the end of a path that exists, unless an equal content is there. -/
def attach (x : Index R) (resolve : Resolver R) (o : Content) (r : R) : Outcome R Bool :=
  let path := o.name.components
  let content := ((x.root.descend? path).map (·.state.content)).getD []
  let check := seekEqual resolve o content
  let stale := staleEvents resolve check.1
  if check.2 then ⟨x, stale ++ [.duplicate], .ok false⟩
  else
    let root := x.root.modify (fun s => { s with content := s.content ++ [r] }) path
    ⟨{ x with root := root, objects := x.objects+1 }, stale ++ [.inserted], .ok true⟩

/-- Registers a content under its name. The root takes no content. -/
def insert (x : Index R) (resolve : Resolver R) (o : Content) (r : R) (now : Timestamp) :
    Outcome R Insertion :=
  if o.name.isRoot then ⟨x, [], .ok ⟨false, none⟩⟩
  else
    let g := x.root.grow now [] o.name.components
    let y := { x with root := g.node, nodes := x.nodes+g.added }
    match g.fault with
    | some v => ⟨y, [], .error v⟩
    | none =>
      let answered := if g.listing.isSome then [Event.answered] else []
      let a := y.attach resolve o r
      ⟨a.index, answered ++ a.events, a.result.map fun inserted => ⟨inserted, g.listing⟩⟩

end Index

end NamedData
