import NamedData.Content
import NamedData.Exclusion.Basic

namespace NamedData

/-- The end of the order of names that a search prefers. -/
inductive Selector
  | leftmost
  | rightmost
  deriving DecidableEq

def Selector.label : Selector → String
  | leftmost => "leftmost"
  | rightmost => "rightmost"

/-- A question for one content at or below a name. -/
structure Interest where
  name : Name
  minSuffix : Option Nat
  maxSuffix : Option Nat
  selector : Option Selector
  exclusion : Option Exclusion
  publisher : Option Publisher
  deriving DecidableEq

namespace Interest

def ofName (n : Name) : Interest := ⟨n, none, none, none, none, none⟩

def isExact (i : Interest) : Bool := i.maxSuffix == some 0

def prefersRightmost (i : Interest) : Bool := i.selector == some .rightmost

def withinMax (i : Interest) (count : Nat) : Bool := i.maxSuffix.all (count ≤ ·)

def withinMin (i : Interest) (count : Nat) : Bool := i.minSuffix.all (· ≤ count)

def excludes (i : Interest) (c : Component) : Except Violation Bool :=
  match i.exclusion with
  | none => .ok false
  | some x => x.excludes c

/-- Whether the component of `n` after the Interest's name, if there is one, is excluded. -/
def excludesNext (i : Interest) (n : Name) : Except Violation Bool :=
  match n.get? i.name.length with
  | none => .ok false
  | some c => i.excludes c

/-- Whether a content by this publisher is asked for; an unknown one satisfies no constraint. -/
def accepts (i : Interest) (publisher : Option Publisher) : Bool :=
  i.publisher.isNone || i.publisher == publisher

def matchesName (i : Interest) (n : Name) (publisher : Option Publisher) : Except Violation Bool :=
  if !i.name.isPrefixOf n then .ok false
  else if !i.withinMax (n.length-i.name.length) then .ok false
  else if !i.withinMin (n.length-i.name.length) then .ok false
  else (i.excludesNext n).map fun excluded => !excluded && i.accepts publisher

/-- The name under which a content takes part in matching: its full name if the Interest names the
digest, or names the content and has an exclusion, which then applies to the digest. -/
def candidate (i : Interest) (o : Content) : Name :=
  if (i.exclusion.isSome && i.name.length == o.name.length) || i.name.length == o.name.length+1
  then o.fullName else o.name

/-- Whether a content answers the Interest. -/
def matchesContent (i : Interest) (o : Content) : Except Violation Bool :=
  i.matchesName (i.candidate o) (some o.publisher)

end Interest

end NamedData
