import NamedData.Interest.Basic

namespace NamedData

inductive Verdict
  /-- Its content is tested and its children are visited. -/
  | keep
  /-- Only its children are visited. -/
  | skip
  /-- The node and everything below it are left out. -/
  | prune
  deriving DecidableEq

namespace Interest

def WellFormed (i : Interest) : Prop := ∀ x ∈ i.exclusion, x.WellFormed

instance (i : Interest) : Decidable i.WellFormed :=
  match h : i.exclusion with
  | none => isTrue fun x hx => by simp [h] at hx
  | some x =>
    if hx : x.WellFormed then isTrue fun y hy => by
      rw [h] at hy
      cases hy
      exact hx
    else isFalse fun hall => hx (hall x (by simp [h]))

def mayDescend (i : Interest) (depth : Nat) : Bool := i.maxSuffix.all (depth < ·)

/-- Everything up to this component is excluded after the Interest's name. -/
def floor? (i : Interest) : Option Component := i.exclusion.bind Exclusion.floor?

/-- The number of components that content at this depth is taken to have after the Interest's
name: with an exclusion, content at the name itself counts its digest. -/
def suffixCount (i : Interest) (depth : Nat) : Nat :=
  if depth = 0 ∧ i.exclusion.isSome then 1 else depth

/-- Whether a node with this component, at this depth, is excluded. Only the first component after
the name can be. -/
def bars (i : Interest) (component : Option Component) (depth : Nat) : Except Violation Bool :=
  match component with
  | none => .ok false
  | some c => if depth = 1 then i.excludes c else .ok false

def screen (i : Interest) (component : Option Component) (depth : Nat) : Except Violation Verdict :=
  if !i.withinMax depth then .ok .prune
  else (i.bars component depth).map fun barred =>
    if barred then .prune else if i.withinMin (i.suffixCount depth) then .keep else .skip

end Interest

/-- An Interest that nodes can be screened for. -/
structure Screener extends Interest where
  wellFormed : toInterest.WellFormed

/-- Refuses an exclusion that is out of order. -/
def Interest.screener (i : Interest) : Except Violation Screener :=
  if h : i.WellFormed then .ok ⟨i, h⟩ else .error .exclusionOutOfOrder

end NamedData
