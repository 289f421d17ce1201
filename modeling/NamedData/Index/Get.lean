import NamedData.Index.Search

namespace NamedData.Index

variable {R : Type}

def selector (x : Index R) (i : Interest) : Selector := i.selector.getD x.defaultSelector

def searchLabel (x : Index R) (i : Interest) : String :=
  if i.isExact then "exact" else (x.selector i).label

/-- Tests the contents whose full names have the length of the Interest's name. -/
def byDigest (x : Index R) (resolve : Resolver R) (i : Interest) : Scan R :=
  match i.name.length with
  | 0 => .nothing
  | depth+1 =>
    match x.lookupNode i.name depth with
    | .error v => .fault v
    | .ok none => .nothing
    | .ok (some parent) => Scan.first resolve i parent.state.content

def scan (x : Index R) (resolve : Resolver R) (i : Interest) : Scan R :=
  if i.isExact then
    match x.lookup i.name with
    | .error v => .fault v
    | .ok (some rs) => Scan.first resolve i rs
    | .ok none => x.byDigest resolve i
  else
    match x.lookupNode i.name i.name.length with
    | .error v => .fault v
    | .ok (some n) => n.search resolve i (x.selector i)
    | .ok none => x.byDigest resolve i

/-- What a scan for an Interest reports. One that is stopped has no end to be counted. -/
def scanEvents (x : Index R) (resolve : Resolver R) (i : Interest) (s : Scan R) : List Event :=
  staleEvents resolve s.probed ++ searchEvents (x.searchLabel i) (s.result.toOption.map Option.isSome)

/-- Answers an Interest. The index stays as it is. -/
def get (x : Index R) (resolve : Resolver R) (i : Interest) : Outcome R (Option (Match R)) :=
  let s := x.scan resolve i
  ⟨x, x.scanEvents resolve i s, s.result⟩

end NamedData.Index
