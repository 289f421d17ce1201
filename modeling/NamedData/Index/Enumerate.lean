import NamedData.Index.Basic
import NamedData.Index.Listing

namespace NamedData.Index

variable {R : Type}

def setPending (x : Index R) (n : Name) (pending : Bool) : Index R :=
  { x with root := x.root.modify (fun s => { s with pending := pending }) n.components }

/-- Whether the listing of a node, named `n` and at hand now, is what a request asks for. -/
def wants (i : Interest) (responder : Component) (n : Name) (m : Node R) : Except Violation Bool :=
  i.matchesName (NamedData.responseName (n.push .enumeration) responder m.state.lastModified)
    i.publisher

/-- Answers a request for a listing, or lets it wait. Requests without the command, or for names
without a node, are dropped. -/
def enumerate (x : Index R) (i : Interest) (responder : Component) : Outcome R (Option Listing) :=
  match i.name.before? .enumeration with
  | none => ⟨x, [], .ok none⟩
  | some n =>
    match x.lookupNode n n.length with
    | .error v => ⟨x, [], .error v⟩
    | .ok none => ⟨x, [], .ok none⟩
    | .ok (some m) =>
      match wants i responder n m with
      | .error v => ⟨x, [], .error v⟩
      | .ok wanted =>
        if m.children.components.isEmpty || !wanted then
          ⟨x.setPending n true, [.deferred], .ok none⟩
        else ⟨x.setPending n false, [.answered], .ok (some (.ofNode n m))⟩

end NamedData.Index
