import NamedData.Serial.Value

namespace NamedData.Toml

open Serial

structure Origin where
  /-- Only a longer path has named it so far. -/
  implicit : Bool
  dotted : Bool
  deriving DecidableEq

/-- A table that has its own header, or is an element of an array, or is the document. -/
def Origin.defined : Origin := ⟨false, false⟩

inductive Item
  | value (v : Value)
  | table (origin : Origin) (entries : List (String × Item))
  /-- An array of tables, each with a header of its own. -/
  | tables (elements : List (List (String × Item)))

abbrev Entries := List (String × Item)

namespace Entries

def put (key : String) (item : Item) : Entries → Entries
  | [] => [(key, item)]
  | (k, i) :: rest => if k = key then (k, item) :: rest else (k, i) :: put key item rest

/-- Changes the table that a path leads to. Missing tables on the way are begun, and an array of
tables leads to its last element. A dotted key does not enter what a header has defined. -/
def within (dotted : Bool) (change : Origin → Entries → Option Entries) :
    List String → Origin → Entries → Option Entries
  | [], origin, entries => change origin entries
  | key :: path, _, entries =>
    match entries.lookup key with
    | none =>
      let origin : Origin := ⟨true, dotted⟩
      (within dotted change path origin []).map fun inner => entries ++ [(key, .table origin inner)]
    | some (.value _) => none
    | some (.table origin inner) =>
      if dotted && !origin.implicit then none
      else (within dotted change path origin inner).map fun inner =>
        put key (.table origin inner) entries
    | some (.tables elements) =>
      (within dotted change path .defined (elements.getLast?.getD [])).map fun inner =>
        put key (.tables (elements.dropLast ++ [inner])) entries

def assign (path : List String) (key : String) (v : Value) (entries : Entries) : Option Entries :=
  within true
    (fun origin inner =>
      if origin.dotted == path.isEmpty || (inner.lookup key).isSome then none
      else some (inner ++ [(key, .value v)]))
    path .defined entries

def assignAll (pairs : List ((List String × String) × Value)) (entries : Entries) : Option Entries :=
  pairs.foldlM (fun es p => assign p.1.1 p.1.2 p.2 es) entries

/-- Defines the table at the end of a path by some values. It may have been begun by a header. -/
def defineTable (path : List String) (key : String)
    (pairs : List ((List String × String) × Value)) (entries : Entries) : Option Entries :=
  within false
    (fun _ parent => do
      let start ← match parent.lookup key with
        | none => some []
        | some (.table ⟨true, false⟩ begun) => some begun
        | _ => none
      return put key (.table .defined (← assignAll pairs start)) parent)
    path .defined entries

def appendTable (path : List String) (key : String)
    (pairs : List ((List String × String) × Value)) (entries : Entries) : Option Entries :=
  within false
    (fun _ parent => do
      let elements ← match parent.lookup key with
        | none => some []
        | some (.tables elements) => some elements
        | _ => none
      return put key (.tables (elements ++ [← assignAll pairs []])) parent)
    path .defined entries

end Entries

mutual

/-- The value of an item, when nothing can be added any more. -/
def Item.freeze : Item → Value
  | .value v => v
  | .table _ entries => .record (freezeEntries entries)
  | .tables elements => .list (freezeElements elements)

def freezeEntries : List (String × Item) → List (String × Value)
  | [] => []
  | (k, i) :: rest => (k, i.freeze) :: freezeEntries rest

def freezeElements : List (List (String × Item)) → List Value
  | [] => []
  | e :: rest => .record (freezeEntries e) :: freezeElements rest

end

end NamedData.Toml
