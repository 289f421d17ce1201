import Mathlib.Data.List.Sort
import NamedData.Proofs.Census
import NamedData.Proofs.Search

namespace NamedData

namespace Name

theorem le_of_isPrefixOf {p n : Name} (h : p.isPrefixOf n = true) : p ≤ n := by
  rw [isPrefixOf, List.isPrefixOf_iff_prefix] at h
  exact not_lt.mp (List.not_lt.mpr h.le)

/-- By induction on what both bounds begin with: they have the same head, and so has what lies
between them. -/
theorem prefix_of_between {p a b c : List Component} (hab : ¬b < a) (hbc : ¬c < b) (ha : p <+: a)
    (hc : p <+: c) : p <+: b := by
  induction p generalizing a b c with
  | nil => exact List.nil_prefix
  | cons d p ih =>
    obtain ⟨q, rfl⟩ := ha
    obtain ⟨r, rfl⟩ := hc
    cases b with
    | nil => exact absurd (List.nil_lt_cons d (p ++ q)) hab
    | cons e b =>
      rw [List.cons_append, List.cons_lt_cons_iff, not_or] at hab hbc
      have hde : d = e := le_antisymm (not_lt.mp hab.1) (not_lt.mp hbc.1)
      subst hde
      have hlow : ¬b < p ++ q := fun h => hab.2 ⟨rfl, h⟩
      have hhigh : ¬p ++ r < b := fun h => hbc.2 ⟨rfl, h⟩
      exact (List.prefix_cons_inj d).mpr (ih hlow hhigh ⟨q, rfl⟩ ⟨r, rfl⟩)

/-- The names that begin with `p` stand side by side. -/
theorem isPrefixOf_of_between {p a b c : Name} (hab : a ≤ b) (hbc : b ≤ c)
    (ha : p.isPrefixOf a = true) (hc : p.isPrefixOf c = true) : p.isPrefixOf b = true := by
  rw [isPrefixOf, List.isPrefixOf_iff_prefix] at *
  have hlow : ¬b < a := not_lt.mpr hab
  have hhigh : ¬c < b := not_lt.mpr hbc
  exact prefix_of_between hlow hhigh ha hc

theorem push_append (p : Name) (c : Component) (q : Name) :
    p.push c ++ q = p ++ ⟨c :: q.components⟩ := by
  apply eq_of_components
  simp [push]

end Name

variable {R : Type}

/-- A tour of a node named `p` and all below it: the node comes first, and then come tours of the
children, in ascending order of the components that lead to them. -/
inductive Node.Tour : Name → Node R → List (Name × Node R) → Prop
  | visit (p : Name) (n : Node R) (below : List (Component × List (Name × Node R)))
      (ascending : (below.map (·.1)).Pairwise (· < ·))
      (children : ∀ c, c ∈ below.map (·.1) ↔ ∃ m, n.children.find? c = some m)
      (tours : ∀ e ∈ below, ∀ m, n.children.find? e.1 = some m → Tour (p.push e.1) m e.2) :
      Tour p n ((p, n) :: below.flatMap (·.2))

namespace Node.Tour

variable {p : Name} {c : Component} {n m : Node R} {l k : List (Name × Node R)}

theorem exists_child {below : List (Component × List (Name × Node R))}
    (children : ∀ c, c ∈ below.map (·.1) ↔ ∃ m, n.children.find? c = some m)
    {b : Component × List (Name × Node R)} (hb : b ∈ below) :
    ∃ m, n.children.find? b.1 = some m :=
  (children b.1).mp (List.mem_map_of_mem hb)

theorem begins (h : Tour p n l) : ∀ e ∈ l, ∃ q, e.1 = p ++ q := by
  induction h with
  | visit p n below _ children _ ih =>
    intro e he
    rcases List.mem_cons.mp he with rfl | he
    · exact ⟨.root, p.append_root.symm⟩
    · obtain ⟨b, hb, he⟩ := List.mem_flatMap.mp he
      obtain ⟨child, hchild⟩ := exists_child children hb
      obtain ⟨q, hq⟩ := ih b hb child hchild e he
      exact ⟨⟨b.1 :: q.components⟩, hq.trans (p.push_append b.1 q)⟩

theorem begins_push (h : Tour (p.push c) m l) :
    ∀ e ∈ l, ∃ q, e.1.components = p.components ++ c :: q := by
  intro e he
  obtain ⟨q, hq⟩ := h.begins e he
  exact ⟨q.components, by rw [hq, Name.push_append, Name.components_append]⟩

/-- The tour of a node comes before its next sibling, however deep it goes. -/
theorem ascending (h : Tour p n l) : (l.map (·.1)).Pairwise (· < ·) := by
  induction h with
  | visit p n below hasc children tours ih =>
    have hbelow : ∀ b ∈ below, ∀ e ∈ b.2, ∃ q, e.1.components = p.components ++ b.1 :: q := by
      intro b hb
      obtain ⟨child, hchild⟩ := exists_child children hb
      exact (tours b hb child hchild).begins_push
    rw [List.map_cons, List.pairwise_cons, List.pairwise_map, List.pairwise_flatMap]
    refine ⟨?_, ?_, ?_⟩
    · intro q hq
      obtain ⟨e, he, rfl⟩ := List.mem_map.mp hq
      obtain ⟨b, hb, he⟩ := List.mem_flatMap.mp he
      obtain ⟨r, hr⟩ := hbelow b hb e he
      change p.components < e.1.components
      rw [hr]
      exact lt_append_cons _ _ _
    · intro b hb
      obtain ⟨child, hchild⟩ := exists_child children hb
      exact List.pairwise_map.mp (ih b hb child hchild)
    · rw [List.pairwise_map] at hasc
      refine hasc.imp_of_mem ?_
      intro b d hb hd hlt e he f hf
      obtain ⟨q, hq⟩ := hbelow b hb e he
      obtain ⟨r, hr⟩ := hbelow d hd f hf
      change e.1.components < f.1.components
      rw [hq, hr]
      exact append_cons_lt _ hlt q r

/-- A tour meets exactly the nodes that paths lead to. -/
theorem mem_iff (h : Tour p n l) (q : Name) (m : Node R) :
    (p ++ q, m) ∈ l ↔ n.descend? q.components = some m := by
  induction h generalizing q m with
  | visit p n below _ children tours ih =>
    have hhead : ∀ b ∈ below, (p ++ q, m) ∈ b.2 → ∃ r, q.components = b.1 :: r := by
      intro b hb he
      obtain ⟨child, hchild⟩ := exists_child children hb
      obtain ⟨r, hr⟩ := (tours b hb child hchild).begins_push _ he
      exact ⟨r, List.append_cancel_left hr⟩
    rw [List.mem_cons, List.mem_flatMap]
    cases hq : q.components with
    | nil =>
      have hroot : q = .root := Name.eq_of_components hq
      have hno : ¬∃ b ∈ below, (p ++ q, m) ∈ b.2 := by
        intro hin
        obtain ⟨b, hb, he⟩ := hin
        obtain ⟨r, hr⟩ := hhead b hb he
        cases hq.symm.trans hr
      rw [or_iff_left hno, hroot, Name.append_root, descend?]
      simp [eq_comm]
    | cons c r =>
      have hcons : q = ⟨c :: r⟩ := Name.eq_of_components hq
      have hpush : p ++ q = p.push c ++ ⟨r⟩ := by rw [hcons, Name.push_append]
      have hno : (p ++ q, m) ≠ (p, n) := by
        intro heq
        have hself : p.components ++ q.components = p.components ++ [] := by
          rw [List.append_nil]
          exact congrArg (·.1.components) heq
        cases hq.symm.trans (List.append_cancel_left hself)
      rw [or_iff_right hno, descend?, Option.bind_eq_some_iff]
      constructor
      · intro hin
        obtain ⟨b, hb, he⟩ := hin
        obtain ⟨_, hr⟩ := hhead b hb he
        have hc : c = b.1 := (List.cons.inj (hq.symm.trans hr)).1
        obtain ⟨child, hchild⟩ := exists_child children hb
        rw [hpush, hc] at he
        rw [hc]
        exact ⟨child, hchild, (ih b hb child hchild ⟨r⟩ m).mp he⟩
      · intro hdown
        obtain ⟨child, hchild, hm⟩ := hdown
        obtain ⟨b, hb, rfl⟩ := List.mem_map.mp ((children c).mpr ⟨child, hchild⟩)
        refine ⟨b, hb, ?_⟩
        rw [hpush]
        exact (ih b hb child hchild ⟨r⟩ m).mpr hm

theorem unique (hl : Tour p n l) (hk : Tour p n k) : l = k := by
  have hirrefl : Std.Irrefl fun a b : Name × Node R => a.1 < b.1 := ⟨fun a => lt_irrefl a.1⟩
  have hantisymm : Std.Antisymm fun a b : Name × Node R => a.1 < b.1 :=
    ⟨fun _ _ hab hba => absurd hba hab.asymm⟩
  have hmem {l k : List (Name × Node R)} (hl : Tour p n l) (hk : Tour p n k) :
      ∀ e ∈ l, e ∈ k := by
    intro e he
    obtain ⟨q, m⟩ := e
    obtain ⟨r, rfl⟩ := hl.begins _ he
    exact (hk.mem_iff r m).mpr ((hl.mem_iff r m).mp he)
  exact List.Pairwise.eq_of_mem_iff (List.pairwise_map.mp hl.ascending)
    (List.pairwise_map.mp hk.ascending) fun e => ⟨hmem hl hk e, hmem hk hl e⟩

end Node.Tour

theorem Forest.exists_find?_iff {c : Component} {f : Forest R} :
    (∃ m, f.find? c = some m) ↔ c ∈ f.components := by
  rw [← Option.ne_none_iff_exists', ne_eq, find?_eq_none_iff, not_not]

theorem Forest.WellFormed.exists_tours {f : Forest R} (hf : f.WellFormed) (path : List Component) :
    ∃ tours : List (Component × List (Name × Node R)), tours.map (·.1) = f.components ∧
      (∀ e ∈ tours, ∀ m, f.find? e.1 = some m → Node.Tour ⟨path ++ [e.1]⟩ m e.2) ∧
      tours.flatMap (·.2) = (f.walk path).map fun e => (⟨e.1⟩, e.2) := by
  induction f generalizing path with
  | nil => exact ⟨[], rfl, by simp, rfl⟩
  | cons c own s below next ihb ihn =>
    obtain ⟨_, _, hlt, hbelow, hnext⟩ := hf
    obtain ⟨inner, hinner, htours, hflat⟩ := ihb hbelow (path ++ [c])
    obtain ⟨others, hothers, hafter, hrest⟩ := ihn hnext path
    have hchildren (d : Component) : d ∈ inner.map (·.1) ↔ ∃ m, below.find? d = some m := by
      rw [hinner, exists_find?_iff]
    have hfirst : Node.Tour ⟨path ++ [c]⟩ ⟨own, s, below⟩
        ((⟨path ++ [c]⟩, ⟨own, s, below⟩) :: inner.flatMap (·.2)) := by
      refine .visit _ ⟨own, s, below⟩ inner ?_ hchildren htours
      rw [hinner]
      exact hbelow.components_ascending
    refine ⟨(c, (⟨path ++ [c]⟩, ⟨own, s, below⟩) :: inner.flatMap (·.2)) :: others, ?_, ?_, ?_⟩
    · rw [List.map_cons, hothers, components]
    · intro e he m hm
      rcases List.mem_cons.mp he with rfl | he
      · have hself : (⟨own, s, below⟩ : Node R) = m := by simpa [Forest.find?] using hm
        rw [← hself]
        exact hfirst
      · have hne : e.1 ≠ c := by
          have hmem : e.1 ∈ next.components := by
            rw [← hothers]
            exact List.mem_map_of_mem he
          exact (hlt e.1 hmem).ne'
        exact hafter e he m (by simpa [Forest.find?, hne] using hm)
    · simp [walk, hflat, hrest]

namespace Node

variable {n : Node R}

theorem tour_walk (hn : n.children.WellFormed) : Tour .root n n.walk := by
  obtain ⟨tours, hcomponents, hbelow, hflat⟩ := hn.exists_tours []
  rw [walk, ← hflat]
  refine .visit .root n tours ?_ ?_ hbelow
  · rw [hcomponents]
    exact hn.components_ascending
  · intro c
    rw [hcomponents, Forest.exists_find?_iff]

theorem tour_iff (hn : n.children.WellFormed) {l : List (Name × Node R)} :
    Tour .root n l ↔ l = n.walk := by
  constructor
  · intro hl
    exact hl.unique (tour_walk hn)
  · intro hl
    rw [hl]
    exact tour_walk hn

/-- Without constraints, a search goes through the references as a tour meets them. -/
theorem candidates_ofName (hn : n.children.WellFormed) (p : Name) :
    n.candidates (.ofName p) = .ok (n.walk.flatMap (·.2.state.content)) := by
  have hpasses (q : Name) : (Interest.ofName p).passes q.components = true := by
    cases q.components <;> simp [Interest.passes, Interest.ofName, Interest.withinMax,
      Interest.withinMin, Interest.admitsHead, Interest.admits, Interest.excludes]
  rw [candidates_eq hn fun _ _ _ => ⟨false, rfl⟩, List.filter_eq_self.mpr fun e _ => hpasses e.1]

end Node

namespace History

/-- The order of names is total and tells different names apart; it puts a name before those that it
begins and these side by side; and after every run it is the order in which the one tour of the tree
meets the nodes, each once, and a search without constraints the references. -/
theorem tour_run :
    IsStrictTotalOrder Name (· < ·) ∧
    (∀ a b : Name, (compare a b = .lt ↔ a < b) ∧ (compare a b = .eq ↔ a = b) ∧
      (compare a b = .gt ↔ b < a) ∧ (compare a b ≠ .gt ↔ a ≤ b)) ∧
    (∀ p n : Name, p.isPrefixOf n = true → p ≤ n) ∧
    (∀ p a b c : Name, a ≤ b → b ≤ c → p.isPrefixOf a = true → p.isPrefixOf c = true →
      p.isPrefixOf b = true) ∧
    ∀ (R : Type) (selector : Selector) (ops : List (Operation R)),
      ∃ l : List (Name × Node R),
        (∀ k, Node.Tour .root (run selector ops).index.root k ↔ k = l) ∧
        (l.map (·.1)).Pairwise (· < ·) ∧
        (∀ p m, (p, m) ∈ l ↔ (run selector ops).index.node? p p.length = some m) ∧
        (run selector ops).index.root.candidates (.ofName .root) =
          .ok (l.flatMap (·.2.state.content)) := by
  refine ⟨inferInstance, ?_, fun p n => Name.le_of_isPrefixOf,
    fun p a b c => Name.isPrefixOf_of_between, ?_⟩
  · intro a b
    exact ⟨Name.compare_eq_lt, Name.compare_eq_eq, Name.compare_eq_gt, Name.compare_ne_gt⟩
  · intro R selector ops
    have hwf := (recorded_run selector ops).wellFormed
    refine ⟨(run selector ops).index.root.walk, fun k => Node.tour_iff hwf,
      (Node.tour_walk hwf).ascending, ?_, Node.candidates_ofName hwf _⟩
    intro p m
    rw [Index.node?_length]
    exact Node.mem_walk_iff hwf p m

/-- The names /ab and /a/c. Their bytes, without the slashes, come in this order. -/
def forks : List (Operation Unit) :=
  [⟨[⟨[97, 98]⟩]⟩, ⟨[⟨[97]⟩, ⟨[99]⟩]⟩].map fun n => .insert (fun _ => none) (.blank n) () ⟨1⟩

/-- The component a comes before ab, and takes what is below it along. -/
theorem tour_run_forks :
    let a : Name := ⟨[⟨[97]⟩]⟩
    let ac : Name := ⟨[⟨[97]⟩, ⟨[99]⟩]⟩
    let ad : Name := ⟨[⟨[97]⟩, ⟨[100]⟩]⟩
    (a.isPrefixOf ac = true ∧ a ≤ ac) ∧
    (a ≤ ac ∧ ac ≤ ad ∧ a.isPrefixOf a = true ∧ a.isPrefixOf ad = true ∧ a.isPrefixOf ac = true) ∧
    ∃ l, Node.Tour .root (run .leftmost forks).index.root l ∧
      l.map (·.1) = [.root, a, ac, ⟨[⟨[97, 98]⟩]⟩] ∧ (l.map (·.1)).Pairwise (· < ·) := by
  intro a ac ad
  obtain ⟨_, _, hprefix, hbetween, htour⟩ := tour_run
  obtain ⟨l, honly, hascending, _⟩ := htour Unit .leftmost forks
  have hbegins : a.isPrefixOf ac = true := by decide
  have hbegun : a.isPrefixOf ad = true := by decide
  have hself : a.isPrefixOf a = true := by decide
  have hle : a ≤ ac := hprefix a ac hbegins
  have hnext : ac ≤ ad := by decide
  have hl : l = (run .leftmost forks).index.root.walk :=
    (Node.tour_iff (recorded_run _ _).wellFormed).mp ((honly l).mpr rfl)
  refine ⟨⟨hbegins, hle⟩, ⟨hle, hnext, hself, hbegun, hbetween a a ac ad hle hnext hself hbegun⟩,
    l, (honly l).mpr rfl, ?_, hascending⟩
  rw [hl]
  decide

end History

end NamedData
