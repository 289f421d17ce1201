import NamedData.Exclusion.Bloom

namespace NamedData

inductive Exclusion.Element
  | component (c : Component)
  /-- Excludes all of the surrounding range. -/
  | any
  /-- Excludes the members of a filter in the surrounding range. -/
  | bloom (f : Bloom)
  deriving DecidableEq

/-- Components in ascending order, and ranges that reach from one of them to the next. -/
structure Exclusion where
  elements : List Exclusion.Element
  deriving DecidableEq

namespace Exclusion

def Element.component? : Element → Option Component
  | component c => some c
  | _ => none

/-- Whether a range covers a component between its neighbours. A component is no range. -/
def Element.covers (e : Element) (c : Component) : Except Violation Bool :=
  match e with
  | component _ => .ok false
  | any => .ok true
  | bloom f => f.contains c

def components (x : Exclusion) : List Component := x.elements.filterMap Element.component?

def WellFormed (x : Exclusion) : Prop := x.components.Pairwise (· < ·)

instance (x : Exclusion) : Decidable x.WellFormed :=
  inferInstanceAs (Decidable (x.components.Pairwise (· < ·)))

def ofComponents (cs : List Component) : Exclusion :=
  ⟨(cs.mergeSort fun a b => !decide (b < a)).eraseReps.map .component⟩

def anyUpTo (c : Component) : Exclusion := ⟨[.any, .component c]⟩

def anyCovers (c : Component) : List Element → Except Violation Bool
  | [] => .ok false
  | e :: es =>
    match e.covers c with
    | .error v => .error v
    | .ok true => .ok true
    | .ok false => anyCovers c es

/-- Reads elements up to the first listed component that is not below `c`. The ranges since the
last listed component are kept in `ranges`. -/
def excludesFrom (c : Component) (ranges : List Element) : List Element → Except Violation Bool
  | [] => anyCovers c ranges
  | .component b :: es =>
    match compare c b with
    | .eq => .ok true
    | .lt => anyCovers c ranges
    | .gt => excludesFrom c [] es
  | e :: es => excludesFrom c (ranges ++ [e]) es

def excludes (x : Exclusion) (c : Component) : Except Violation Bool := excludesFrom c [] x.elements

/-- A component up to which everything is excluded, if the exclusion says so at its start. -/
def floor? (x : Exclusion) : Option Component :=
  match x.elements with
  | .any :: .component c :: _ => some c
  | _ => none

end Exclusion

end NamedData
