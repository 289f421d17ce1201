import NamedData.Component.Marker
import NamedData.Index.Node

namespace NamedData

structure Listing where
  /-- The name of the node, followed by the command. -/
  name : Name
  /-- The components of the children, ascending. -/
  children : List Component
  version : Timestamp
  deriving DecidableEq

def responseName (command : Name) (responder : Component) (version : Timestamp) : Name :=
  ((command.push responder).push (.version version)).push (.segment 0)

namespace Listing

def ofNode {R : Type} (n : Name) (m : Node R) : Listing :=
  ⟨n.push .enumeration, m.children.components, m.state.lastModified⟩

def responseName (l : Listing) (responder : Component) : Name :=
  NamedData.responseName l.name responder l.version

def childNames (l : Listing) : List Name := l.children.map fun c => ⟨[c]⟩

end Listing

end NamedData
