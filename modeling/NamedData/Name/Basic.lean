import NamedData.Component.Basic

namespace NamedData

structure Name where
  components : List Component
  deriving DecidableEq, Inhabited

namespace Name

instance : LT Name := ⟨fun a b => a.components < b.components⟩
instance (a b : Name) : Decidable (a < b) :=
  inferInstanceAs (Decidable (a.components < b.components))
instance : Ord Name := ⟨fun a b => compareOfLessAndEq a b⟩

def root : Name := ⟨[]⟩

def length (n : Name) : Nat := n.components.length

def isRoot (n : Name) : Bool := n.components.isEmpty

def get? (n : Name) (i : Nat) : Option Component := n.components[i]?

def last? (n : Name) : Option Component := n.components.getLast?

def take (n : Name) (k : Nat) : Name := ⟨n.components.take k⟩

def push (n : Name) (c : Component) : Name := ⟨n.components ++ [c]⟩

def isPrefixOf (n m : Name) : Bool := n.components.isPrefixOf m.components

def idxOf? (n : Name) (c : Component) : Option Nat := n.components.idxOf? c

/-- The part before the first component equal to `c`. -/
def before? (n : Name) (c : Component) : Option Name := (n.idxOf? c).map n.take

end Name

end NamedData
