import NamedData.Index.Insert
import NamedData.Proofs.Trie

namespace NamedData

variable {R : Type}

namespace Node

def state? (n : Node R) (q : List Component) : Option (NodeState R) :=
  (n.descend? q).map (·.state)

def contents (n : Node R) (q : List Component) : List R :=
  ((n.state? q).map (·.content)).getD []

@[simp] theorem state?_nil (n : Node R) : n.state? [] = some n.state := rfl

theorem state?_cons (n : Node R) (c : Component) (q : List Component) :
    n.state? (c :: q) = (n.children.find? c).bind (·.state? q) := by
  rw [state?, descend?]
  cases n.children.find? c <;> rfl

theorem contents_of_descend? {n m : Node R} {q : List Component} (h : n.descend? q = some m) :
    n.contents q = m.state.content := by
  rw [contents, state?, h]
  rfl

theorem state?_modify (f : NodeState R → NodeState R) (p q : List Component) (n : Node R) :
    (n.modify f p).state? q = if q = p then (n.state? q).map f else n.state? q := by
  induction p generalizing n q with
  | nil =>
    cases q with
    | nil => rfl
    | cons d q => rfl
  | cons c p ih =>
    cases hc : n.children.find? c with
    | none =>
      have hsame : n.modify f (c :: p) = n := by simp [modify, hc]
      rw [hsame]
      split
      next h =>
        rw [h, state?_cons, hc]
        rfl
      · rfl
    | some child =>
      have hput : n.modify f (c :: p) =
          { n with children := n.children.put c (child.modify f p) } := by
        simp [modify, hc]
      rw [hput]
      cases q with
      | nil => rfl
      | cons d q =>
        rw [state?_cons, state?_cons, Forest.find?_put]
        by_cases hd : d = c
        · subst hd
          simp [hc, ih]
        · simp [hd]

theorem modify_component (f : NodeState R → NodeState R) (p : List Component) (n : Node R) :
    (n.modify f p).component = n.component := by
  cases p with
  | nil => rfl
  | cons c p =>
    rw [modify]
    cases n.children.find? c <;> rfl

theorem wellFormed_modify (f : NodeState R → NodeState R) (p : List Component) {n : Node R}
    (hn : n.children.WellFormed) : (n.modify f p).children.WellFormed := by
  induction p generalizing n with
  | nil => exact hn
  | cons c p ih =>
    cases hc : n.children.find? c with
    | none => simpa [modify, hc] using hn
    | some child =>
      have hchild := hn.find? hc
      have hown : (child.modify f p).component = some c := by
        rw [modify_component, hn.component_of_find? hc]
      simpa [modify, hc] using hn.put hown hchild.2 (ih hchild.1)

/-- A path that growth goes along: a beginning of the new path, up to its first empty component. -/
def Reaches (path q : List Component) : Prop := q <+: path ∧ ∀ c ∈ q, c.isEmpty = false

instance (path q : List Component) : Decidable (Reaches path q) :=
  inferInstanceAs (Decidable (q <+: path ∧ ∀ c ∈ q, c.isEmpty = false))

/-- Growth adds a child to the node at the end of `q`: the next component of the new path. -/
def Gains (n : Node R) (path q : List Component) : Prop :=
  ∃ c ∈ path[q.length]?, Reaches path (q ++ [c]) ∧ (n.descend? (q ++ [c])).isNone

instance (n : Node R) (path q : List Component) : Decidable (n.Gains path q) :=
  inferInstanceAs (Decidable (∃ c ∈ path[q.length]?, _ ∧ _))

theorem reaches_nil (path : List Component) : Reaches path [] :=
  And.intro List.nil_prefix (by simp)

theorem reaches_cons {c d : Component} {path q : List Component} :
    Reaches (c :: path) (d :: q) ↔ d = c ∧ c.isEmpty = false ∧ Reaches path q := by
  rw [Reaches, Reaches, List.cons_prefix_cons, List.forall_mem_cons]
  constructor
  · rintro ⟨⟨rfl, hq⟩, hd, hall⟩
    exact ⟨rfl, hd, hq, hall⟩
  · rintro ⟨rfl, hd, hq, hall⟩
    exact ⟨⟨rfl, hq⟩, hd, hall⟩

def heir (n : Node R) (c : Component) : Node R := (n.children.find? c).getD (.child c)

theorem state?_root_cons (c : Component) (q : List Component) :
    (root : Node R).state? (c :: q) = none := rfl

theorem state?_cons_heir (n : Node R) (c : Component) (q : List Component) :
    (n.state? (c :: q)).getD .fresh = ((n.heir c).state? q).getD .fresh := by
  rw [state?_cons, heir]
  cases n.children.find? c with
  | some child => rfl
  | none => cases q <;> rfl

theorem state?_cons_heir_of_cons (n : Node R) (c d : Component) (q : List Component) :
    n.state? (c :: d :: q) = (n.heir c).state? (d :: q) := by
  rw [state?_cons, heir]
  cases n.children.find? c <;> rfl

theorem gains_cons {n : Node R} {c d : Component} {path q : List Component} :
    n.Gains (c :: path) (d :: q) ↔ d = c ∧ c.isEmpty = false ∧ (n.heir c).Gains path q := by
  have hnone (b : Component) : n.descend? (c :: (q ++ [b])) = (n.heir c).descend? (q ++ [b]) := by
    rw [descend?, heir]
    cases n.children.find? c with
    | some child => rfl
    | none => cases q <;> rfl
  simp only [Gains, List.length_cons, List.getElem?_cons_succ, List.cons_append, reaches_cons]
  constructor
  · rintro ⟨b, hb, ⟨rfl, hd, hq⟩, hn⟩
    rw [hnone] at hn
    exact ⟨rfl, hd, b, hb, hq, hn⟩
  · rintro ⟨rfl, hd, b, hb, hq, hn⟩
    rw [← hnone] at hn
    exact ⟨b, hb, ⟨rfl, hd, hq⟩, hn⟩

theorem gains_nil {n : Node R} {c : Component} {path : List Component} :
    n.Gains (c :: path) [] ↔ c.isEmpty = false ∧ n.children.find? c = none := by
  simp [Gains, reaches_cons, reaches_nil, descend?_singleton]

theorem Gains.reaches {n : Node R} {path q : List Component} (h : n.Gains path q) :
    Reaches path q := by
  obtain ⟨c, _, hq, _⟩ := h
  exact ⟨(List.prefix_append q [c]).trans hq.1, fun d hd => hq.2 d (List.mem_append_left _ hd)⟩

theorem grow_child (now : Timestamp) (here : List Component) (c : Component)
    (path : List Component) : (child c : Node R).grow now here path = sprout now c path := by
  cases path with
  | nil => rfl
  | cons d path =>
    simp only [grow, sprout, child, Forest.find?, branch, NodeState.fresh]
    rfl

theorem grow_component (now : Timestamp) (here path : List Component) (n : Node R) :
    (n.grow now here path).node.component = n.component := by
  cases path with
  | nil => rfl
  | cons c path =>
    rw [grow]
    cases n.children.find? c with
    | some child => rfl
    | none => cases c.isEmpty <;> rfl

theorem grow_state (now : Timestamp) (here path : List Component) (n : Node R) :
    (n.grow now here path).node.state =
      if n.Gains path [] then { n.state with lastModified := now, pending := false }
      else n.state := by
  cases path with
  | nil => rfl
  | cons c path =>
    rw [grow]
    cases hc : n.children.find? c with
    | some child => simp [gains_nil, hc]
    | none =>
      cases he : c.isEmpty <;> simp [gains_nil, hc, he, branch]

theorem grow_children (now : Timestamp) (here path : List Component) (c : Component)
    {n : Node R} (hn : n.children.WellFormed) :
    (n.grow now here (c :: path)).node.children =
      if c.isEmpty then n.children
      else n.children.put c ((n.heir c).grow now (here ++ [c]) path).node := by
  rw [grow, heir]
  cases hc : n.children.find? c with
  | some child => simp [(hn.find? hc).2]
  | none =>
    cases he : c.isEmpty <;> simp [branch, grow_child]

theorem heir_component {n : Node R} (hn : n.children.WellFormed) (c : Component) :
    (n.heir c).component = some c := by
  rw [heir]
  cases hc : n.children.find? c with
  | some child => exact hn.component_of_find? hc
  | none => rfl

theorem heir_wellFormed {n : Node R} (hn : n.children.WellFormed) (c : Component) :
    (n.heir c).children.WellFormed := by
  rw [heir]
  cases hc : n.children.find? c with
  | some child => exact (hn.find? hc).1
  | none => trivial

theorem wellFormed_grow (now : Timestamp) (here path : List Component) {n : Node R}
    (hn : n.children.WellFormed) : (n.grow now here path).node.children.WellFormed := by
  induction path generalizing here n with
  | nil => exact hn
  | cons c path ih =>
    rw [grow_children now here path c hn]
    cases he : c.isEmpty with
    | true => simpa using hn
    | false =>
      have hown : ((n.heir c).grow now (here ++ [c]) path).node.component = some c := by
        rw [grow_component, heir_component hn]
      simpa using hn.put hown he (ih (here ++ [c]) (heir_wellFormed hn c))

/-- Growth gives every node on the new path a state, and marks those that gain a child; all other
states stay as they are. -/
theorem state?_grow (now : Timestamp) (here path q : List Component) {n : Node R}
    (hn : n.children.WellFormed) :
    (n.grow now here path).node.state? q =
      if n.Gains path q then
        some { (n.state? q).getD .fresh with lastModified := now, pending := false }
      else if Reaches path q then some ((n.state? q).getD .fresh)
      else n.state? q := by
  induction path generalizing here n q with
  | nil =>
    cases q with
    | nil => rfl
    | cons d q => simp [grow, Gains, Reaches]
  | cons c path ih =>
    cases q with
    | nil =>
      rw [state?_nil, grow_state]
      simp only [reaches_nil, if_true, state?_nil, Option.getD_some]
      split <;> rfl
    | cons d q =>
      rw [state?_cons, grow_children now here path c hn]
      cases he : c.isEmpty with
      | true =>
        simp [gains_cons, reaches_cons, he, state?_cons]
      | false =>
        simp only [Bool.false_eq_true, if_false, Forest.find?_put, gains_cons, reaches_cons, he,
          true_and]
        by_cases hd : d = c
        · subst hd
          simp only [if_true, true_and, Option.bind_some, ih _ _ (heir_wellFormed hn d),
            state?_cons_heir]
          split
          · rfl
          split
          · rfl
          next hq =>
            cases q with
            | nil => exact absurd (reaches_nil path) hq
            | cons b q => exact (state?_cons_heir_of_cons n d b q).symm
        · simp [hd, state?_cons]

theorem contents_grow (now : Timestamp) (here path q : List Component) {n : Node R}
    (hn : n.children.WellFormed) : (n.grow now here path).node.contents q = n.contents q := by
  rw [contents, contents, state?_grow now here path q hn]
  split
  · cases n.state? q <;> rfl
  split
  · cases n.state? q <;> rfl
  · rfl

theorem isSome_grow (now : Timestamp) (here path q : List Component) {n : Node R}
    (hn : n.children.WellFormed) :
    ((n.grow now here path).node.state? q).isSome ↔ (n.state? q).isSome ∨ Reaches path q := by
  rw [state?_grow now here path q hn]
  split
  next h => simp [h.reaches]
  split
  next h => simp [h]
  next h => simp [h]

/-- Growth is stopped by an empty component, and by nothing else. -/
theorem grow_fault (now : Timestamp) (here path : List Component) {n : Node R}
    (hn : n.children.WellFormed) :
    (n.grow now here path).fault =
      if ∀ c ∈ path, c.isEmpty = false then none else some .emptyComponent := by
  induction path generalizing here n with
  | nil => simp [grow]
  | cons c path ih =>
    have hstep : (n.grow now here (c :: path)).fault =
        if c.isEmpty then some .emptyComponent
        else ((n.heir c).grow now (here ++ [c]) path).fault := by
      rw [grow, heir]
      cases hc : n.children.find? c with
      | some child => simp [(hn.find? hc).2]
      | none => cases he : c.isEmpty <;> simp [branch, grow_child]
    rw [hstep, ih (here ++ [c]) (heir_wellFormed hn c)]
    cases he : c.isEmpty <;> simp [he]

theorem contents_modify_append (r : R) (p q : List Component) {n : Node R}
    (hp : (n.state? p).isSome) :
    (n.modify (fun s => { s with content := s.content ++ [r] }) p).contents q =
      n.contents q ++ if q = p then [r] else [] := by
  rw [contents, contents, state?_modify]
  split
  next hq =>
    subst hq
    obtain ⟨s, hs⟩ := Option.isSome_iff_exists.mp hp
    simp [hs]
  · simp

def branches (n : Node R) (q : List Component) : List Component :=
  ((n.descend? q).map (·.children.components)).getD []

theorem branches_cons (n : Node R) (c : Component) (q : List Component) :
    n.branches (c :: q) = ((n.children.find? c).map (·.branches q)).getD [] := by
  rw [branches, descend?]
  cases n.children.find? c <;> rfl

theorem mem_branches_iff {n : Node R} {q : List Component} {c : Component} :
    c ∈ n.branches q ↔ (n.state? (q ++ [c])).isSome := by
  rw [branches, state?, Option.isSome_map, descend?_append]
  cases n.descend? q with
  | none => simp
  | some m =>
    rw [Option.bind_some, descend?_singleton, ← Option.ne_none_iff_isSome, ne_eq,
      Forest.find?_eq_none_iff]
    simp

theorem branches_modify (f : NodeState R → NodeState R) (p q : List Component) {n : Node R}
    (hn : n.children.WellFormed) : (n.modify f p).branches q = n.branches q := by
  induction p generalizing n q with
  | nil => cases q <;> rfl
  | cons c p ih =>
    cases hc : n.children.find? c with
    | none =>
      have hsame : n.modify f (c :: p) = n := by simp [modify, hc]
      rw [hsame]
    | some child =>
      have hput : n.modify f (c :: p) =
          { n with children := n.children.put c (child.modify f p) } := by
        simp [modify, hc]
      rw [hput]
      cases q with
      | nil => exact Forest.components_put_of_mem hn (Forest.mem_components_of_find? hc)
      | cons d q =>
        rw [branches_cons, branches_cons, Forest.find?_put]
        by_cases hd : d = c
        · subst hd
          simp [hc, ih _ (hn.find? hc).1]
        · simp [hd]

theorem getD_state?_grow (now : Timestamp) (here path q : List Component) {n : Node R}
    (hn : n.children.WellFormed) :
    ((n.grow now here path).node.state? q).getD .fresh =
      if n.Gains path q then
        { (n.state? q).getD .fresh with lastModified := now, pending := false }
      else (n.state? q).getD .fresh := by
  rw [state?_grow now here path q hn]
  split
  · rfl
  split <;> rfl

/-- Growth answers the request that waits at a node which gains a child, with the children that the
node has then. -/
theorem grow_listing (now : Timestamp) (here path : List Component) {n : Node R} {l : Listing}
    (hn : n.children.WellFormed) :
    (n.grow now here path).listing = some l ↔
      ∃ q, n.Gains path q ∧ ((n.state? q).getD .fresh).pending = true ∧
        l = ⟨(⟨here ++ q⟩ : Name).push .enumeration, (n.grow now here path).node.branches q, now⟩ := by
  induction path generalizing here n with
  | nil => simp [grow, Gains]
  | cons c path ih =>
    cases hc : n.children.find? c with
    | some child =>
      have hheir : n.heir c = child := by simp [heir, hc]
      have hnone : ¬n.Gains (c :: path) [] := by simp [gains_nil, hc]
      have hgrow : n.grow now here (c :: path) =
          { child.grow now (here ++ [c]) path with
            node := { n with
              children := n.children.put c (child.grow now (here ++ [c]) path).node } } := by
        simp [grow, hc]
      have hbranches (q : List Component) : (n.grow now here (c :: path)).node.branches (c :: q) =
          (child.grow now (here ++ [c]) path).node.branches q := by
        simp [hgrow, branches_cons, Forest.find?_put]
      have hlisting : (n.grow now here (c :: path)).listing =
          (child.grow now (here ++ [c]) path).listing := by rw [hgrow]
      rw [hlisting, ih (here ++ [c]) (hn.find? hc).1]
      constructor
      · rintro ⟨q, hgains, hpending, rfl⟩
        refine ⟨c :: q, gains_cons.mpr ⟨rfl, (hn.find? hc).2, ?_⟩, ?_, ?_⟩
        · rwa [hheir]
        · rwa [state?_cons_heir, hheir]
        · rw [hbranches, List.append_assoc, List.singleton_append]
      · rintro ⟨q, hgains, hpending, rfl⟩
        cases q with
        | nil => exact absurd hgains hnone
        | cons d q =>
          obtain ⟨rfl, _, hgains⟩ := gains_cons.mp hgains
          rw [hheir] at hgains
          rw [state?_cons_heir, hheir] at hpending
          refine ⟨q, hgains, hpending, ?_⟩
          rw [hbranches, List.append_assoc, List.singleton_append]
    | none =>
      cases he : c.isEmpty with
      | true =>
        have hno (q : List Component) : ¬n.Gains (c :: path) q := by
          cases q <;> simp [gains_nil, gains_cons, he]
        simp [grow, hc, he, hno]
      | false =>
        -- only the node at hand can have a request: everything below it is new
        have hgains : n.Gains (c :: path) [] := gains_nil.mpr ⟨he, hc⟩
        have hfresh (d : Component) (q : List Component) (hd : n.Gains (c :: path) (d :: q)) :
            ((n.state? (d :: q)).getD .fresh).pending = false := by
          obtain ⟨rfl, _, _⟩ := gains_cons.mp hd
          simp [state?_cons, hc, NodeState.fresh]
        have hgrow : n.grow now here (c :: path) = n.branch now here c path := by
          simp [grow, hc, he]
        constructor
        · intro hl
          cases hp : n.state.pending with
          | false => simp [hgrow, branch, hp] at hl
          | true =>
            refine ⟨[], hgains, hp, ?_⟩
            simp only [hgrow, branch, hp, if_true, Option.some.injEq] at hl ⊢
            rw [← hl, List.append_nil]
            rfl
        · rintro ⟨q, hq, hpending, rfl⟩
          cases q with
          | nil =>
            have hp : n.state.pending = true := hpending
            simp only [hgrow, branch, hp, if_true, List.append_nil]
            rfl
          | cons d q => cases hpending.symm.trans (hfresh d q hq)

end Node

end NamedData
