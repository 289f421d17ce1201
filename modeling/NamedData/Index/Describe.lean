import NamedData.Index.Basic
import NamedData.Name.Uri

namespace NamedData

def describeRecord (name : String) (fields : List (String × String)) : String :=
  name ++ " \x7b " ++ String.intercalate ", " (fields.map fun f => f.1 ++ ": " ++ f.2) ++ " \x7d"

def Selector.describe : Selector → String
  | leftmost => "Leftmost"
  | rightmost => "Rightmost"

def Timestamp.describe (t : Timestamp) : String := "Timestamp(" ++ toString t.ticks.toNat ++ ")"

variable {R : Type}

namespace Index

def describe (x : Index R) : String :=
  describeRecord "ContentIndex"
    [("default_selector", x.defaultSelector.describe), ("objects", toString x.objects),
     ("nodes", toString x.nodes)]

end Index

/-- Describes a node, given how references are described. -/
def Node.describe (ref : R → String) (n : Node R) : String :=
  describeRecord "TrieNode"
    [("component", match n.component with
        | none => "None"
        | some c => "Some(" ++ c.describe ++ ")"),
     ("children", toString n.children.components.length),
     ("content", "[" ++ String.intercalate ", " (n.state.content.map ref) ++ "]"),
     ("last_modified", n.state.lastModified.describe),
     ("pending_enumeration", toString n.state.pending)]

end NamedData
