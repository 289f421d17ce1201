import NamedData.Index.Scan
import NamedData.Interest.Screening

namespace NamedData

variable {R : Type}

/-- The trees that can hold answers below the node of the Interest's name. -/
def Forest.clip (i : Interest) (f : Forest R) : Forest R :=
  match i.floor? with
  | none => f
  | some bound => f.above bound

/-- Tests the content of a node and then what is below it, as far as the verdict allows. -/
def Scan.visit (resolve : Resolver R) (i : Interest) (verdict : Except Violation Verdict)
    (content : List R) (below : Unit → Scan R) : Scan R :=
  match verdict with
  | .error v => .fault v
  | .ok .prune => .nothing
  | .ok .skip => below ()
  | .ok .keep => (Scan.first resolve i content).orElse below

def Forest.leftmost (resolve : Resolver R) (i : Interest) (depth : Nat) : Forest R → Scan R
  | .nil => .nothing
  | .cons _ own s below next =>
    (Scan.visit resolve i (i.screen own depth) s.content fun _ =>
      if i.mayDescend depth then below.leftmost resolve i (depth+1) else .nothing).orElse fun _ =>
        next.leftmost resolve i depth

/-- The references of a node and then those below it, as far as the verdict allows. -/
def gather (verdict : Except Violation Verdict) (content : List R)
    (below : Except Violation (List R)) : Except Violation (List R) :=
  match verdict with
  | .error v => .error v
  | .ok .prune => .ok []
  | .ok .skip => below
  | .ok .keep => below.map (content ++ ·)

def Forest.candidates (i : Interest) (depth : Nat) : Forest R → Except Violation (List R)
  | .nil => .ok []
  | .cons _ own s below next =>
    match gather (i.screen own depth) s.content
        (if i.mayDescend depth then below.candidates i (depth+1) else .ok []) with
    | .error v => .error v
    | .ok rs => (next.candidates i depth).map (rs ++ ·)

namespace Node

/-- The first answer at or below the node of the Interest's name. -/
def leftmost (resolve : Resolver R) (i : Interest) (n : Node R) : Scan R :=
  match i.screener with
  | .error v => .fault v
  | .ok ⟨i, _⟩ =>
    Scan.visit resolve i (i.screen n.component 0) n.state.content fun _ =>
      if i.mayDescend 0 then (n.children.clip i).leftmost resolve i 1 else .nothing

def candidates (i : Interest) (n : Node R) : Except Violation (List R) :=
  gather (i.screen n.component 0) n.state.content
    (if i.mayDescend 0 then (n.children.clip i).candidates i 1 else .ok [])

/-- The last answer at or below the node of the Interest's name. -/
def rightmost (resolve : Resolver R) (i : Interest) (n : Node R) : Scan R :=
  match i.screener with
  | .error v => .fault v
  | .ok ⟨i, _⟩ =>
    match n.candidates i with
    | .error v => .fault v
    | .ok rs => Scan.first resolve i rs.reverse

def search (resolve : Resolver R) (i : Interest) (selector : Selector) (n : Node R) : Scan R :=
  match selector with
  | .leftmost => n.leftmost resolve i
  | .rightmost => n.rightmost resolve i

end Node

end NamedData
