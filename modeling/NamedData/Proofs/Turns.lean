import NamedData.Proofs.History

namespace NamedData

variable {R : Type}

/-- What can happen at a node. -/
inductive Turn
  | deferred
  | answered
  | gained (now : Timestamp)
  deriving DecidableEq

namespace Turn

def time? : Turn → Option Timestamp
  | gained now => some now
  | _ => none

/-- The time of the last modification, and whether a request waits, after a turn. -/
def mark (s : Timestamp × Bool) (t : Turn) : Timestamp × Bool :=
  (t.time?.getD s.1, t == deferred)

theorem foldl_mark (ts : List Turn) (s : Timestamp × Bool) :
    ts.foldl mark s =
      ((ts.filterMap time?).getLast?.getD s.1, (ts.getLast?.map (· == deferred)).getD s.2) := by
  induction ts generalizing s with
  | nil => rfl
  | cons t ts ih =>
    rw [List.foldl_cons, ih, List.getLast?_cons]
    cases ts.getLast? <;> cases t <;> simp [mark, time?, List.getLast?_cons]

end Turn

def Operation.time? : Operation R → Option Timestamp
  | insert _ _ _ now => some now
  | _ => none

namespace Index

/-- What stands at a name. A name without a node has the state of a new one. -/
def stateAt (x : Index R) (n : Name) : NodeState R := (x.root.state? n.components).getD .fresh

def standing (x : Index R) (n : Name) : Timestamp × Bool :=
  ((x.stateAt n).lastModified, (x.stateAt n).pending)

def childrenAt (x : Index R) (n : Name) : List Component := x.root.branches n.components

def listingAt (x : Index R) (n : Name) : Listing :=
  ⟨n.push .enumeration, x.childrenAt n, (x.stateAt n).lastModified⟩

def Gains (x y : Index R) (n : Name) : Prop := ∃ c ∈ y.childrenAt n, c ∉ x.childrenAt n

instance (x y : Index R) (n : Name) : Decidable (x.Gains y n) :=
  inferInstanceAs (Decidable (∃ c ∈ y.childrenAt n, c ∉ x.childrenAt n))

/-- What an operation does at the node of a name. -/
def turn? (x : Index R) (n : Name) : Operation R → Option Turn
  | .insert resolve o r now =>
    if x.Gains (x.insert resolve o r now).index n then some (.gained now) else none
  | .enumerate i responder =>
    if i.name.before? .enumeration = some n ∧ (x.node? n n.length).isSome then
      match (x.enumerate i responder).result with
      | .ok none => some .deferred
      | .ok (some _) => some .answered
      | .error _ => none
    else none
  | .get _ _ => none

section Insertion

variable {x : Index R} {resolve : Resolver R} {o : Content} {r : R} {now : Timestamp}

theorem not_mem_childrenAt_iff {n : Name} {c : Component} :
    c ∉ x.childrenAt n ↔ (x.root.descend? (n.components ++ [c])).isNone := by
  rw [childrenAt, Node.mem_branches_iff, Node.state?, Option.isSome_map]
  simp

theorem mem_childrenAt_insert (hx : x.root.children.WellFormed) {n : Name} {c : Component} :
    c ∈ (x.insert resolve o r now).index.childrenAt n ↔
      c ∈ x.childrenAt n ∨ Node.Reaches o.name.components (n.components ++ [c]) := by
  rw [childrenAt, childrenAt, Node.mem_branches_iff, Node.mem_branches_iff, isSome_insert hx]

theorem gains_insert_iff (hx : x.root.children.WellFormed) (n : Name) :
    x.Gains (x.insert resolve o r now).index n ↔
      x.root.Gains o.name.components n.components := by
  simp only [Gains, mem_childrenAt_insert hx]
  constructor
  · rintro ⟨c, hc, hno⟩
    have hreach : Node.Reaches o.name.components (n.components ++ [c]) := hc.resolve_left hno
    obtain ⟨rest, hrest⟩ := hreach.1
    refine ⟨c, ?_, hreach, not_mem_childrenAt_iff.mp hno⟩
    simp [← hrest]
  · rintro ⟨c, _, hreach, hno⟩
    exact ⟨c, Or.inr hreach, not_mem_childrenAt_iff.mpr hno⟩

/-- Insertion touches a node if it gains a child, and else leaves it as it stands. -/
theorem standing_insert (hx : x.root.children.WellFormed) (n : Name) :
    (x.insert resolve o r now).index.standing n =
      if x.root.Gains o.name.components n.components then (now, false) else x.standing n := by
  have hgrow : (x.grown o.name now).standing n =
      if x.root.Gains o.name.components n.components then (now, false) else x.standing n := by
    rw [standing, stateAt, grown, growth, Node.getD_state?_grow now [] _ _ hx]
    split <;> rfl
  rw [← hgrow, standing, standing, stateAt, stateAt, state?_insert hx, grown]
  cases (x.growth o.name now).node.state? n.components with
  | none => rfl
  | some s =>
    rw [Option.map_some, Option.getD_some, Option.getD_some]
    split <;> rfl

end Insertion

section Requests

variable {x : Index R}

theorem listingAt_of_node? {n : Name} {m : Node R} (hm : x.node? n n.length = some m) :
    Listing.ofNode n m = x.listingAt n := by
  rw [node?_length] at hm
  simp [Listing.ofNode, listingAt, childrenAt, stateAt, Node.branches, Node.state?, hm]

theorem childrenAt_setPending (hx : x.root.children.WellFormed) (n k : Name) (pending : Bool) :
    (x.setPending n pending).childrenAt k = x.childrenAt k :=
  Node.branches_modify _ _ _ hx

theorem standing_setPending {n : Name} (hn : (x.node? n n.length).isSome) (k : Name)
    (pending : Bool) :
    (x.setPending n pending).standing k =
      if k = n then ((x.standing k).1, pending) else x.standing k := by
  have hname : k.components = n.components ↔ k = n :=
    ⟨Name.eq_of_components, fun h => by rw [h]⟩
  simp only [standing, stateAt, setPending, Node.state?_modify, hname]
  split
  next hk =>
    rw [node?_length] at hn
    obtain ⟨m, hm⟩ := Option.isSome_iff_exists.mp hn
    simp [hk, Node.state?, hm]
  · rfl

end Requests

end Index

namespace History

variable {h : History R}

theorem Recorded.standing_step (hh : h.Recorded) (n : Name) (op : Operation R) :
    (h.step op).index.standing n =
      (h.index.turn? n op).toList.foldl Turn.mark (h.index.standing n) := by
  cases op with
  | insert resolve o r now =>
    simp only [History.step, Index.standing_insert hh.wellFormed, Index.turn?,
      Index.gains_insert_iff hh.wellFormed]
    split <;> rfl
  | enumerate i responder =>
    rcases h.index.enumerate_cases i responder with ⟨result, hx, _, hfault⟩ | ⟨k, m, hk, hm, hx⟩
    · have hturn : h.index.turn? n (.enumerate i responder) = none := by
        rw [Index.turn?, hx]
        split
        next hnode =>
          obtain ⟨v, hv⟩ := hfault n hnode.1 hnode.2
          rw [hv]
        · rfl
      rw [History.step, hx, hturn]
      rfl
    · have hnode : (h.index.node? k k.length).isSome := by rw [hm, Option.isSome_some]
      rcases hx with hx | hx <;>
        simp only [History.step, hx, Index.standing_setPending hnode, Index.turn?, hk,
          Option.some.injEq]
      all_goals
        by_cases hn : n = k
        · simp [hn, hnode, Turn.mark, Turn.time?]
        · simp [hn, Ne.symm hn]
  | get resolve i => rfl

def turns (h : History R) (n : Name) : List (Operation R) → List Turn
  | [] => []
  | op :: ops => (h.index.turn? n op).toList ++ (h.step op).turns n ops

/-- How a node stands after operations follows from the turns that were taken at it. -/
theorem Recorded.standing_foldl (hh : h.Recorded) (n : Name) (ops : List (Operation R)) :
    (ops.foldl History.step h).index.standing n =
      (h.turns n ops).foldl Turn.mark (h.index.standing n) := by
  induction ops generalizing h with
  | nil => rfl
  | cons op ops ih =>
    rw [List.foldl_cons, ih (hh.step op), turns, List.foldl_append, hh.standing_step]

theorem standing_start (selector : Selector) (n : Name) :
    (start selector : History R).index.standing n = (.epoch, false) := by
  cases n with
  | mk q => cases q <;> rfl

theorem standing_run (selector : Selector) (ops : List (Operation R)) (n : Name) :
    (run selector ops).index.standing n =
      ((start selector).turns n ops).foldl Turn.mark (.epoch, false) := by
  rw [run, (recorded_start selector).standing_foldl, standing_start]

end History

end NamedData
