import NamedData.Index.Basic

namespace NamedData

/-- A reference and the content it led to. -/
structure Match (R : Type) where
  ref : R
  content : Content
  deriving DecidableEq

/-- Which references were resolved, in order, and what was found. -/
structure Scan (R : Type) where
  probed : List R
  result : Except Violation (Option (Match R))

variable {R : Type}

namespace Scan

def nothing : Scan R := ⟨[], .ok none⟩

def fault (v : Violation) : Scan R := ⟨[], .error v⟩

/-- Goes on with a second scan if the first one finds nothing. -/
def orElse (s : Scan R) (t : Unit → Scan R) : Scan R :=
  match s.result with
  | .ok none => ⟨s.probed ++ (t ()).probed, (t ()).result⟩
  | _ => s

/-- Resolves one reference and compares its content with an Interest. -/
def probe (resolve : Resolver R) (i : Interest) (r : R) : Scan R :=
  ⟨[r], match resolve r with
    | none => .ok none
    | some o => (i.matchesContent o).map fun hit => if hit then some ⟨r, o⟩ else none⟩

/-- The first reference that leads to an answer; stale ones are passed over. -/
def first (resolve : Resolver R) (i : Interest) : List R → Scan R
  | [] => nothing
  | r :: rs => (probe resolve i r).orElse fun _ => first resolve i rs

end Scan

end NamedData
