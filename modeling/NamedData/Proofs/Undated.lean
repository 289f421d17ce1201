import NamedData.Proofs.Census
import NamedData.Proofs.Turns

namespace NamedData

variable {R : Type}

namespace Forest

def state? (f : Forest R) (c : Component) (q : List Component) : Option (NodeState R) :=
  (f.find? c).bind fun n => n.state? q

theorem mem_components_iff {f : Forest R} {c : Component} :
    c ∈ f.components ↔ (f.state? c []).isSome := by
  rw [state?, ← not_iff_not, ← find?_eq_none_iff]
  cases f.find? c <;> simp

variable (own : Option Component) (s : NodeState R) (below next : Forest R) (q : List Component)

theorem state?_cons_self (c : Component) :
    (cons c own s below next).state? c q = Node.state? ⟨own, s, below⟩ q := by
  simp [state?, find?]

theorem state?_cons_of_ne {b c : Component} (hb : b ≠ c) :
    (cons c own s below next).state? b q = next.state? b q := by
  simp [state?, find?, hb]

theorem state?_of_not_mem {f : Forest R} {c : Component} (hc : c ∉ f.components)
    (q : List Component) : f.state? c q = none := by
  rw [state?, (find?_eq_none_iff c f).mpr hc]
  rfl

/-- The key tells what a node carries, so that the states are all that is left to compare. -/
theorem WellFormed.ext {f g : Forest R} (hf : f.WellFormed) (hg : g.WellFormed)
    (h : ∀ c q, f.state? c q = g.state? c q) : f = g := by
  induction f generalizing g with
  | nil =>
    cases g with
    | nil => rfl
    | cons d own t below next =>
      have hd := h d []
      rw [state?_cons_self] at hd
      cases hd
  | cons c own s below next ihb ihn =>
    cases g with
    | nil =>
      have hc := h c []
      rw [state?_cons_self] at hc
      cases hc
    | cons d own' t below' next' =>
      obtain ⟨rfl, _, hlt, hbelow, hnext⟩ := hf
      obtain ⟨rfl, _, hlt', hbelow', hnext'⟩ := hg
      -- of two different first components the other forest would not have the lesser one
      have hcd : c = d := by
        by_contra hne
        have hc : c ∈ next'.components := by
          rw [mem_components_iff, ← state?_cons_of_ne _ t below' next' _ hne, ← h, state?_cons_self]
          rfl
        have hd : d ∈ next.components := by
          rw [mem_components_iff, ← state?_cons_of_ne _ s below next _ (Ne.symm hne), h,
            state?_cons_self]
          rfl
        exact lt_asymm (hlt d hd) (hlt' c hc)
      subst hcd
      have hhere (q : List Component) :
          Node.state? ⟨some c, s, below⟩ q = Node.state? ⟨some c, t, below'⟩ q := by
        rw [← state?_cons_self _ s below next, ← state?_cons_self _ t below' next', h]
      have hstate : s = t := Option.some.inj (hhere [])
      have hb (b : Component) (q : List Component) : below.state? b q = below'.state? b q := by
        have hq := hhere (b :: q)
        rwa [Node.state?_cons, Node.state?_cons] at hq
      have hn (b : Component) (q : List Component) : next.state? b q = next'.state? b q := by
        by_cases hbc : b = c
        · have hc : b ∉ next.components := fun hb => lt_irrefl c (hbc ▸ hlt b hb)
          have hc' : b ∉ next'.components := fun hb => lt_irrefl c (hbc ▸ hlt' b hb)
          rw [state?_of_not_mem hc, state?_of_not_mem hc']
        · rw [← state?_cons_of_ne _ s below next _ hbc, ← state?_cons_of_ne _ t below' next' _ hbc, h]
      rw [hstate, ihb hbelow hbelow' hb, ihn hnext hnext' hn]

end Forest

theorem Node.ext_state? {n m : Node R} (hown : n.component = m.component)
    (hn : n.children.WellFormed) (hm : m.children.WellFormed)
    (h : ∀ q, n.state? q = m.state? q) : n = m := by
  have hstate : n.state = m.state := Option.some.inj (h [])
  have hchildren : n.children = m.children := by
    apply hn.ext hm
    intro c q
    have hq := h (c :: q)
    rwa [state?_cons, state?_cons] at hq
  cases n
  cases m
  simp_all

def NodeState.undated (s : NodeState R) : NodeState R :=
  { s with lastModified := .epoch, pending := false }

@[simp] theorem NodeState.undated_content (s : NodeState R) : s.undated.content = s.content := rfl

namespace Forest

def undated : Forest R → Forest R
  | nil => nil
  | cons c own s below next => cons c own s.undated below.undated next.undated

end Forest

namespace Node

def undated (n : Node R) : Node R := ⟨n.component, n.state.undated, n.children.undated⟩

@[simp] theorem undated_component (n : Node R) : n.undated.component = n.component := rfl

@[simp] theorem undated_state (n : Node R) : n.undated.state = n.state.undated := rfl

@[simp] theorem undated_children (n : Node R) : n.undated.children = n.children.undated := rfl

end Node

namespace Forest

@[simp] theorem components_undated (f : Forest R) : f.undated.components = f.components := by
  induction f with
  | nil => rfl
  | cons c own s below next _ ih => simp [undated, components, ih]

@[simp] theorem find?_undated (c : Component) (f : Forest R) :
    f.undated.find? c = (f.find? c).map Node.undated := by
  induction f with
  | nil => rfl
  | cons d own s below next _ ih =>
    by_cases hc : c = d
    · simp [undated, find?, hc, Node.undated]
    · simp [undated, find?, hc, ih]

theorem WellFormed.undated {f : Forest R} (hf : f.WellFormed) : f.undated.WellFormed := by
  induction f with
  | nil => trivial
  | cons c own s below next ihb ihn =>
    obtain ⟨hown, hc, hlt, hbelow, hnext⟩ := hf
    refine ⟨hown, hc, ?_, ihb hbelow, ihn hnext⟩
    rwa [components_undated]

theorem total_undated {weight : NodeState R → Nat} (hweight : ∀ s, weight s.undated = weight s)
    (f : Forest R) : f.undated.total weight = f.total weight := by
  induction f with
  | nil => rfl
  | cons c own s below next ihb ihn => simp [undated, total, hweight, ihb, ihn]

theorem walk_undated (f : Forest R) (path : List Component) :
    f.undated.walk path = (f.walk path).map fun e => (e.1, e.2.undated) := by
  induction f generalizing path with
  | nil => rfl
  | cons c own s below next ihb ihn => simp [undated, walk, ihb, ihn, Node.undated]

theorem clip_undated (i : Interest) (f : Forest R) : f.undated.clip i = (f.clip i).undated := by
  rw [clip, clip]
  cases i.floor? with
  | none => rfl
  | some bound =>
    induction f with
    | nil => rfl
    | cons c own s below next _ ih =>
      change above bound next.undated = (above bound next).undated at ih
      simp only [undated, above, ih]
      split <;> rfl

variable {resolve : Resolver R} {i : Interest}

theorem leftmost_undated (f : Forest R) (depth : Nat) :
    f.undated.leftmost resolve i depth = f.leftmost resolve i depth := by
  induction f generalizing depth with
  | nil => rfl
  | cons c own s below next ihb ihn => simp [undated, leftmost, ihb, ihn]

theorem candidates_undated (f : Forest R) (depth : Nat) :
    f.undated.candidates i depth = f.candidates i depth := by
  induction f generalizing depth with
  | nil => rfl
  | cons c own s below next ihb ihn => simp [undated, candidates, ihb, ihn]

end Forest

namespace Node

variable (n : Node R) (q : List Component)

theorem descend?_undated : n.undated.descend? q = (n.descend? q).map undated := by
  induction q generalizing n with
  | nil => rfl
  | cons c q ih =>
    rw [descend?, descend?, undated_children, Forest.find?_undated]
    cases n.children.find? c with
    | none => rfl
    | some child => exact ih child

theorem state?_undated : n.undated.state? q = (n.state? q).map NodeState.undated := by
  rw [state?, state?, descend?_undated, Option.map_map, Option.map_map]
  rfl

theorem branches_undated : n.undated.branches q = n.branches q := by
  rw [branches, branches, descend?_undated]
  cases n.descend? q <;> simp

theorem walk_undated : n.undated.walk = n.walk.map fun e => (e.1, e.2.undated) := by
  simp [walk, Forest.walk_undated]

theorem search_undated (resolve : Resolver R) (i : Interest) (selector : Selector) :
    n.undated.search resolve i selector = n.search resolve i selector := by
  cases selector with
  | leftmost => simp [search, leftmost, Forest.clip_undated, Forest.leftmost_undated]
  | rightmost => simp [search, rightmost, candidates, Forest.clip_undated, Forest.candidates_undated]

end Node

namespace Index

def undated (x : Index R) : Index R := { x with root := x.root.undated }

variable {x y : Index R}

theorem node?_undated (x : Index R) (n : Name) (depth : Nat) :
    x.undated.node? n depth = (x.node? n depth).map Node.undated := by
  rw [node?, node?]
  split
  · exact x.root.descend?_undated _
  · rfl

theorem lookupNode_undated (x : Index R) (n : Name) (depth : Nat) :
    x.undated.lookupNode n depth = (x.lookupNode n depth).map (Option.map Node.undated) := by
  rw [lookupNode, lookupNode, node?_undated]
  change (if x.root.component.isNone then _ else _) = _
  split <;> rfl

theorem lookup_undated (x : Index R) (n : Name) : x.undated.lookup n = x.lookup n := by
  rw [lookup, lookup, lookupNode_undated]
  rcases x.lookupNode n n.length with v | (_ | m) <;> rfl

theorem byDigest_undated (x : Index R) (resolve : Resolver R) (i : Interest) :
    x.undated.byDigest resolve i = x.byDigest resolve i := by
  rw [byDigest, byDigest]
  cases i.name.length with
  | zero => rfl
  | succ depth =>
    simp only [lookupNode_undated]
    rcases x.lookupNode i.name depth with v | (_ | m) <;> rfl

theorem scan_undated (x : Index R) (resolve : Resolver R) (i : Interest) :
    x.undated.scan resolve i = x.scan resolve i := by
  rw [scan, scan, lookup_undated, byDigest_undated, lookupNode_undated]
  rcases x.lookupNode i.name i.name.length with v | (_ | n)
  · rfl
  · rfl
  · exact congrArg (fun s => if i.isExact then _ else s) (n.search_undated resolve i (x.selector i))

/-- Indexes whose trees agree but for the dates agree in everything else if their counts are right. -/
theorem Counted.undated_eq (hx : x.Counted) (hy : y.Counted)
    (hroot : x.root.undated = y.root.undated) (hselector : x.defaultSelector = y.defaultSelector) :
    x.undated = y.undated := by
  have htotal (weight : NodeState R → Nat) (hweight : ∀ s, weight s.undated = weight s) :
      x.root.total weight = y.root.total weight := by
    have hundated := congrArg (Node.total weight) hroot
    simpa [Node.total, hweight, Forest.total_undated] using hundated
  have hnodes : x.nodes = y.nodes := by
    rw [hx.nodes, hy.nodes, htotal _ fun _ => rfl]
  have hobjects : x.objects = y.objects := by
    rw [hx.objects, hy.objects, htotal _ fun _ => rfl]
  rw [undated, undated, hroot, hselector, hnodes, hobjects]

theorem eq_of_undated_eq (hx : x.root.children.WellFormed) (hy : y.root.children.WellFormed)
    (h : x.undated = y.undated) (hstanding : ∀ n, x.standing n = y.standing n) : x = y := by
  have hroot : x.root = y.root := by
    have hown : x.root.component = y.root.component :=
      (congrArg (fun z : Index R => z.root.component) h :)
    apply Node.ext_state? hown hx hy
    intro q
    have hstate := congrArg (fun z : Index R => z.root.state? q) h
    have hmarks := hstanding ⟨q⟩
    simp only [undated, Node.state?_undated] at hstate
    simp only [standing, stateAt] at hmarks
    cases hs : x.root.state? q with
    | none => simpa [hs, eq_comm] using hstate
    | some s =>
      cases ht : y.root.state? q with
      | none => simp [hs, ht] at hstate
      | some t =>
        cases s
        cases t
        simp_all [NodeState.undated]
  cases x
  cases y
  simp_all [undated]

end Index

end NamedData
