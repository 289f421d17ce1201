import Mathlib.Algebra.GroupWithZero.Nat
import Mathlib.Data.Finset.Card
import NamedData.Proofs.Canonical

namespace NamedData

variable {R : Type}

namespace Forest

def total (weight : NodeState R → Nat) : Forest R → Nat
  | nil => 0
  | cons _ _ s below next => weight s + below.total weight + next.total weight

end Forest

namespace Node

def total (weight : NodeState R → Nat) (n : Node R) : Nat := weight n.state + n.children.total weight

end Node

namespace Forest

theorem sum_walk (weight : NodeState R → Nat) (f : Forest R) (path : List Component) :
    ((f.walk path).map fun e => weight e.2.state).sum = f.total weight := by
  induction f generalizing path with
  | nil => rfl
  | cons d own s below next ihb ihn =>
    simp only [walk, List.map_cons, List.sum_cons, List.map_append, List.sum_append, ihb, ihn, total]
    omega

/-- A node that is put adds its weight, in exchange for that of the node with the same component. -/
theorem total_put (weight : NodeState R → Nat) (c : Component) (n : Node R) {f : Forest R}
    (hf : f.WellFormed) :
    (f.put c n).total weight + ((f.find? c).map (·.total weight)).getD 0 =
      f.total weight + n.total weight := by
  induction f with
  | nil => simp [put, find?, total, Node.total]
  | cons d own s below next _ ih =>
    obtain ⟨_, _, hlt, _, hnext⟩ := hf
    cases h : compare c d with
    | lt =>
      have hcd : c < d := Component.compare_eq_lt.mp h
      have hnone : (cons d own s below next).find? c = none := by
        rw [find?_eq_none_iff, components, List.mem_cons, not_or]
        exact ⟨hcd.ne, fun hc => lt_asymm hcd (hlt c hc)⟩
      simp only [put, h, hnone, total, Node.total, Option.map_none, Option.getD_none]
      omega
    | eq =>
      have hcd : c = d := Component.compare_eq_eq.mp h
      simp only [put, h, find?, if_pos hcd, total, Node.total, Option.map_some, Option.getD_some]
      omega
    | gt =>
      have hcd : c ≠ d := (Component.compare_eq_gt.mp h).ne'
      have hrest := ih hnext
      simp only [put, h, find?, if_neg hcd, total]
      omega

theorem WellFormed.components_ascending {f : Forest R} (hf : f.WellFormed) :
    f.components.Pairwise (· < ·) := by
  induction f with
  | nil => exact List.Pairwise.nil
  | cons d own s below next _ ih => exact List.pairwise_cons.mpr ⟨hf.2.2.1, ih hf.2.2.2.2⟩

end Forest

namespace Node

theorem sum_walk (weight : NodeState R → Nat) (n : Node R) :
    (n.walk.map fun e => weight e.2.state).sum = n.total weight := by
  rw [walk, List.map_cons, List.sum_cons, List.map_map, total, ← Forest.sum_walk weight _ []]
  rfl

theorem length_walk (n : Node R) : n.walk.length = n.total fun _ => 1 := by
  rw [← sum_walk]
  simp

theorem total_modify (weight : NodeState R → Nat) {f : NodeState R → NodeState R} {k : Nat}
    (hf : ∀ s, weight (f s) = weight s + k) (p : List Component) {n : Node R}
    (hn : n.children.WellFormed) :
    (n.modify f p).total weight = n.total weight + if (n.state? p).isSome then k else 0 := by
  induction p generalizing n with
  | nil =>
    simp only [modify, total, hf, state?_nil, Option.isSome_some, if_true]
    omega
  | cons c p ih =>
    cases hc : n.children.find? c with
    | none => simp [modify, state?_cons, hc]
    | some child =>
      have hchild := ih (hn.find? hc).1
      have hput := Forest.total_put weight c (child.modify f p) hn
      simp only [hc, Option.map_some, Option.getD_some] at hput
      simp only [modify, state?_cons, hc, Option.bind_some, total]
      omega

theorem grow_added (now : Timestamp) (here path : List Component) (c : Component) {n : Node R}
    (hn : n.children.WellFormed) :
    (n.grow now here (c :: path)).added =
      if c.isEmpty then 0
      else (if (n.children.find? c).isNone then 1 else 0) +
        ((n.heir c).grow now (here ++ [c]) path).added := by
  rw [grow, heir]
  cases hc : n.children.find? c with
  | some child => simp [(hn.find? hc).2]
  | none => cases he : c.isEmpty <;> simp [branch, grow_child, Nat.add_comm]

/-- The nodes that growth adds are fresh, also where it is stopped before the end of the path. -/
theorem total_grow (weight : NodeState R → Nat)
    (hweight : ∀ s now pending,
      weight { s with lastModified := now, pending := pending } = weight s)
    (now : Timestamp) (here path : List Component) {n : Node R} (hn : n.children.WellFormed) :
    (n.grow now here path).node.total weight =
      n.total weight + (n.grow now here path).added*weight .fresh := by
  induction path generalizing here n with
  | nil => simp [grow]
  | cons c path ih =>
    have hstate : weight (n.grow now here (c :: path)).node.state = weight n.state := by
      rw [grow_state]
      split
      · exact hweight _ _ _
      · rfl
    rw [total, hstate, grow_children now here path c hn, grow_added now here path c hn]
    cases he : c.isEmpty with
    | true => simp [total]
    | false =>
      have hchild := ih (here ++ [c]) (heir_wellFormed hn c)
      have hput := Forest.total_put weight c ((n.heir c).grow now (here ++ [c]) path).node hn
      have hheir : (n.heir c).total weight = ((n.children.find? c).map (·.total weight)).getD 0 +
          (if (n.children.find? c).isNone then 1 else 0)*weight .fresh := by
        rw [heir]
        cases n.children.find? c <;> simp [total, child, Forest.total]
      simp only [Bool.false_eq_true, if_false, total, Nat.add_mul] at hchild hheir hput ⊢
      omega

theorem exists_parent {n m : Node R} {q : List Component} {c : Component}
    (h : n.descend? (q ++ [c]) = some m) :
    ∃ parent, n.descend? q = some parent ∧ parent.children.find? c = some m := by
  rw [descend?_append] at h
  obtain ⟨parent, hparent, hm⟩ := Option.bind_eq_some_iff.mp h
  rw [descend?_singleton] at hm
  exact ⟨parent, hparent, hm⟩

end Node

namespace Index

variable {x : Index R} {resolve : Resolver R} {o : Content} {r : R} {now : Timestamp}

structure Counted (x : Index R) : Prop where
  nodes : x.nodes = x.root.total fun _ => 1
  objects : x.objects = x.root.total fun s => s.content.length

theorem Counted.grown (hc : x.Counted) (hx : x.root.children.WellFormed) (n : Name)
    (now : Timestamp) : (x.grown n now).Counted where
  nodes := by
    have hgrow := Node.total_grow (fun _ => 1) (fun _ _ _ => rfl) now [] n.components hx
    rw [Nat.mul_one, ← hc.nodes] at hgrow
    exact hgrow.symm
  objects := by
    have hgrow := Node.total_grow (fun s => s.content.length) (fun _ _ _ => rfl) now []
      n.components hx
    rw [NodeState.fresh, List.length_nil, Nat.mul_zero, Nat.add_zero, ← hc.objects] at hgrow
    exact hgrow.symm

theorem Counted.insert (hc : x.Counted) (hx : x.root.children.WellFormed) :
    (x.insert resolve o r now).index.Counted := by
  have hgrown := hc.grown hx o.name now
  have hwf : (x.growth o.name now).node.children.WellFormed :=
    Node.wellFormed_grow now [] o.name.components hx
  rcases insert_cases hx resolve o r now with
    ⟨_, h⟩ | ⟨_, v, _, h⟩ | ⟨_, _, _, h⟩ | ⟨_, hfault, _, h⟩ <;> rw [h]
  · exact hc
  · exact hgrown
  · exact hgrown
  · have hend := isSome_of_growth hx hfault
    have hmore (weight : NodeState R → Nat) (k : Nat)
        (hweight : ∀ s, weight { s with content := s.content ++ [r] } = weight s + k) :
        ((x.growth o.name now).node.modify (fun s => { s with content := s.content ++ [r] })
          o.name.components).total weight = (x.grown o.name now).root.total weight+k := by
      rw [Node.total_modify weight hweight o.name.components hwf, if_pos hend]
      rfl
    constructor
    · exact hgrown.nodes.trans (hmore (fun _ => 1) 0 fun _ => rfl).symm
    · have hobjects := hmore (fun s => s.content.length) 1 fun _ => List.length_append
      exact (congrArg (· + 1) hgrown.objects).trans hobjects.symm

theorem Counted.setPending (hc : x.Counted) (hx : x.root.children.WellFormed) (n : Name)
    (pending : Bool) : (x.setPending n pending).Counted := by
  have hsame (weight : NodeState R → Nat)
      (hweight : ∀ s, weight { s with pending := pending } = weight s) :
      (x.setPending n pending).root.total weight = x.root.total weight := by
    rw [Index.setPending, Node.total_modify weight (k := 0) hweight n.components hx, ite_self,
      Nat.add_zero]
  exact ⟨hc.nodes.trans (hsame _ fun _ => rfl).symm, hc.objects.trans (hsame _ fun _ => rfl).symm⟩

/-- The tree of an index is in order and its counts are right. The walk meets every node once, under
the name that it is looked up by. The root carries no component and no content; any other node
carries the component that its parent has it under. -/
structure Coherent (x : Index R) : Prop where
  reached : ∀ n m, (n, m) ∈ x.root.walk ↔ x.lookupNode n n.length = .ok (some m)
  once : (x.root.walk.map (·.1)).Nodup
  first : x.root.walk.head? = some (.root, x.root)
  root : x.root.component = none ∧ x.root.state.content = []
  keyed : ∀ n m, (n, m) ∈ x.root.walk → n ≠ .root → ∃ p parent c, n = p.push c ∧
    (p, parent) ∈ x.root.walk ∧ parent.children.find? c = some m ∧
    m.component = some c ∧ c.isEmpty = false
  ascending : ∀ e ∈ x.root.walk, e.2.children.components.Pairwise (· < ·)
  objects : x.objects = (x.root.walk.map fun e => e.2.state.content.length).sum
  nodes : x.nodes = x.root.walk.length

theorem Counted.coherent (hc : x.Counted) (hx : x.root.children.WellFormed)
    (hown : x.root.component = none) (hroot : x.root.state.content = []) : x.Coherent where
  reached := by
    intro n m
    rw [Node.mem_walk_iff hx, lookupNode_length hown, Except.ok.injEq]
  once := (Node.walk_ascending hx).imp ne_of_lt
  first := rfl
  root := ⟨hown, hroot⟩
  keyed := by
    intro n m hm hn
    rw [Node.mem_walk_iff hx] at hm
    rcases List.eq_nil_or_concat' n.components with hnil | ⟨q, c, hq⟩
    · exact absurd (Name.eq_of_components hnil) hn
    · rw [hq] at hm
      obtain ⟨parent, hparent, hfind⟩ := Node.exists_parent hm
      have hwf := (Node.descend?_wellFormed hx hparent).1
      refine ⟨⟨q⟩, parent, c, Name.eq_of_components hq, ?_, hfind, ?_, ?_⟩
      · exact (Node.mem_walk_iff hx _ _).mpr hparent
      · exact hwf.component_of_find? hfind
      · exact (hwf.find? hfind).2
  ascending := by
    intro e he
    have hm := (Node.mem_walk_iff hx e.1 e.2).mp he
    exact (Node.descend?_wellFormed hx hm).1.components_ascending
  objects := by rw [hc.objects, Node.sum_walk fun s => s.content.length]
  nodes := by rw [hc.nodes, Node.length_walk]

theorem Coherent.mem_names (hx : x.Coherent) {n : Name} :
    n ∈ x.root.walk.map (·.1) ↔ (x.root.state? n.components).isSome := by
  have hreached (m : Node R) : (n, m) ∈ x.root.walk ↔ x.root.descend? n.components = some m := by
    rw [hx.reached, lookupNode_length hx.root.1, Except.ok.injEq]
  rw [List.mem_map, Node.state?, Option.isSome_map, Option.isSome_iff_exists]
  constructor
  · rintro ⟨⟨_, m⟩, hm, rfl⟩
    exact ⟨m, (hreached m).mp hm⟩
  · rintro ⟨m, hm⟩
    exact ⟨(n, m), (hreached m).mpr hm, rfl⟩

end Index

namespace Name

/-- The names with at least one component that a name begins with. -/
def prefixes (n : Name) : List Name := (List.range n.length).map fun k => n.take (k+1)

theorem mem_prefixes {n p : Name} : p ∈ n.prefixes ↔ p ≠ .root ∧ p.isPrefixOf n = true := by
  rw [prefixes, List.mem_map, isPrefixOf, List.isPrefixOf_iff_prefix]
  constructor
  · rintro ⟨k, hk, rfl⟩
    have hlt : k < n.components.length := List.mem_range.mp hk
    refine ⟨?_, List.take_prefix _ _⟩
    intro hroot
    have hnil : n.components.take (k+1) = [] := congrArg components hroot
    have hlen := congrArg List.length hnil
    rw [List.length_take, List.length_nil] at hlen
    omega
  · rintro ⟨hroot, hp⟩
    have hpos : 0 < p.components.length := by
      rw [List.length_pos_iff]
      exact fun hnil => hroot (eq_of_components hnil)
    have hlen := hp.length_le
    refine ⟨p.components.length-1, List.mem_range.mpr (show _ < n.components.length by omega), ?_⟩
    rw [Nat.sub_add_cancel hpos]
    exact eq_of_components (List.prefix_iff_eq_take.mp hp).symm

end Name

namespace History

variable {h : History R} {selector : Selector} {ops : List (Operation R)}

theorem counted_run (selector : Selector) (ops : List (Operation R)) :
    (run selector ops).index.Counted := by
  have hstep (h : History R) (hh : h.Recorded) (hc : h.index.Counted) (op : Operation R) :
      (h.step op).index.Counted := by
    cases op with
    | insert resolve o r now => exact hc.insert hh.wellFormed
    | enumerate i responder =>
      rw [step]
      rcases h.index.enumerate_index i responder with hi | ⟨n, pending, hi⟩ <;> rw [hi]
      · exact hc
      · exact hc.setPending hh.wellFormed n pending
    | get resolve i => exact hc
  exact run_induction (P := fun h => h.index.Counted) ⟨rfl, rfl⟩ hstep ops

theorem coherent_run (selector : Selector) (ops : List (Operation R)) :
    (run selector ops).index.Coherent := by
  have hh := recorded_run selector ops
  have hroot := hh.contents .root
  rw [storedAt_root, List.map_nil, Name.root_components, Node.contents_of_descend? rfl] at hroot
  exact (counted_run selector ops).coherent hh.wellFormed hh.root hroot

def Unstopped (selector : Selector) (ops : List (Operation R)) : Prop :=
  ∀ before resolve o r now after, ops = before ++ .insert resolve o r now :: after →
    ∃ a, ((run selector before).index.insert resolve o r now).result = .ok a

theorem mem_named_foldl {n : Name} :
    n ∈ (ops.foldl step h).named ↔
      n ∈ h.named ∨ ∃ resolve o r now, .insert resolve o r now ∈ ops ∧ o.name = n := by
  induction ops generalizing h with
  | nil => simp
  | cons op ops ih =>
    rw [List.foldl_cons, ih]
    cases op with
    | insert resolve o r now =>
      simp only [step, List.mem_append, List.mem_cons, List.not_mem_nil, or_false]
      constructor
      · rintro ((hn | rfl) | ⟨resolve', o', r', now', hmem, rfl⟩)
        · exact Or.inl hn
        · exact Or.inr ⟨resolve, o, r, now, Or.inl rfl, rfl⟩
        · exact Or.inr ⟨resolve', o', r', now', Or.inr hmem, rfl⟩
      · rintro (hn | ⟨resolve', o', r', now', hmem | hmem, rfl⟩)
        · exact Or.inl (Or.inl hn)
        · cases hmem
          exact Or.inl (Or.inr rfl)
        · exact Or.inr ⟨resolve', o', r', now', hmem, rfl⟩
    | enumerate i responder => simp [step]
    | get resolve i => simp [step]

theorem mem_named_run {n : Name} :
    n ∈ (run selector ops).named ↔
      ∃ resolve o r now, .insert resolve o r now ∈ ops ∧ o.name = n := by
  rw [run, mem_named_foldl, start, or_iff_right List.not_mem_nil]

/-- Only names with an empty component stop an insertion. -/
theorem unstopped_iff :
    Unstopped selector ops ↔
      ∀ n ∈ (run selector ops).named, ∀ c ∈ n.components, c.isEmpty = false := by
  have hresult (before : List (Operation R)) (resolve : Resolver R) (o : Content) (r : R)
      (now : Timestamp) :
      (∃ a, ((run selector before).index.insert resolve o r now).result = .ok a) ↔
        ∀ c ∈ o.name.components, c.isEmpty = false := by
    rw [Index.insert_result (recorded_run selector before).wellFormed]
    split
    next hall => simpa using hall
    next hempty => simpa using hempty
  constructor
  · intro hall n hn
    obtain ⟨resolve, o, r, now, hmem, rfl⟩ := mem_named_run.mp hn
    obtain ⟨before, after, hsplit⟩ := List.append_of_mem hmem
    exact (hresult before resolve o r now).mp (hall before resolve o r now after hsplit)
  · intro hall before resolve o r now after hsplit
    have hmem : .insert resolve o r now ∈ ops := by simp [hsplit]
    exact (hresult before resolve o r now).mpr
      (hall o.name (mem_named_run.mpr ⟨resolve, o, r, now, hmem, rfl⟩))

theorem Recorded.isSome_iff (hh : h.Recorded)
    (hnamed : ∀ n ∈ h.named, ∀ c ∈ n.components, c.isEmpty = false) (p : Name) :
    (h.index.root.state? p.components).isSome ↔
      p = .root ∨ ∃ m ∈ h.named, p.isPrefixOf m = true := by
  have hreaches (m : Name) (hm : m ∈ h.named) :
      Node.Reaches m.components p.components ↔ p.isPrefixOf m = true := by
    rw [Node.Reaches, Name.isPrefixOf, List.isPrefixOf_iff_prefix, and_iff_left_iff_imp]
    intro hp c hc
    exact hnamed m hm c (hp.subset hc)
  rw [hh.nodes]
  constructor
  · rintro ⟨m, hm, hp⟩
    rcases List.mem_cons.mp hm with rfl | hm
    · exact Or.inl (Name.eq_of_components (List.prefix_nil.mp hp.1))
    · exact Or.inr ⟨m, hm, (hreaches m hm).mp hp⟩
  · rintro (rfl | ⟨m, hm, hp⟩)
    · exact ⟨.root, by simp, Node.reaches_nil _⟩
    · exact ⟨m, List.mem_cons_of_mem _ hm, (hreaches m hm).mpr hp⟩

theorem nodes_of_named (hh : h.Recorded) (hx : h.index.Coherent)
    (hnamed : ∀ n ∈ h.named, ∀ c ∈ n.components, c.isEmpty = false) :
    h.index.nodes = 1+(h.named.flatMap Name.prefixes).toFinset.card := by
  have hnames : (h.index.root.walk.map (·.1)).toFinset =
      insert Name.root (h.named.flatMap Name.prefixes).toFinset := by
    ext p
    rw [List.mem_toFinset, hx.mem_names, hh.isSome_iff hnamed, Finset.mem_insert, List.mem_toFinset,
      List.mem_flatMap]
    simp only [Name.mem_prefixes]
    by_cases hroot : p = Name.root <;> simp [hroot]
  have hno : Name.root ∉ (h.named.flatMap Name.prefixes).toFinset := by
    simp [Name.mem_prefixes]
  rw [hx.nodes, ← List.length_map (·.1), ← List.toFinset_card_of_nodup hx.once, hnames,
    Finset.card_insert_of_notMem hno, Nat.add_comm]

/-- After every run the tree is in order and the counts are right. If no insertion was stopped, what
can be looked up is the root and one node for each prefix of the names that were inserted. -/
theorem census_run (selector : Selector) (ops : List (Operation R)) :
    (run selector ops).index.Coherent ∧
    (Unstopped selector ops →
      (∀ n d, ∃ found, (run selector ops).index.lookupNode n d = .ok found ∧
        (found.isSome = true ↔ d ≤ n.length ∧
          (n.take d = .root ∨ ∃ m ∈ (run selector ops).named, (n.take d).isPrefixOf m = true))) ∧
      (run selector ops).index.nodes =
        1+((run selector ops).named.flatMap Name.prefixes).toFinset.card) := by
  have hh := recorded_run selector ops
  refine ⟨coherent_run selector ops, ?_⟩
  intro hunstopped
  have hnamed := unstopped_iff.mp hunstopped
  refine ⟨?_, nodes_of_named hh (coherent_run selector ops) hnamed⟩
  intro n d
  refine ⟨_, Index.lookupNode_eq hh.root n d, ?_⟩
  rw [← hh.isSome_iff hnamed, Index.node?, Node.state?, Option.isSome_map]
  split
  next hd => simp [hd, Name.take]
  next hd => simp [hd]

def siblings : List (Operation Unit) :=
  [⟨[97]⟩, ⟨[98]⟩].map fun c => .insert (fun _ => none) (.blank ⟨[⟨[99]⟩, c]⟩) () ⟨1⟩

/-- There is no node for the name a, and the one for the name c carries its component. -/
theorem census_run_siblings :
    let x := (run .leftmost siblings).index
    Unstopped .leftmost siblings ∧ x.nodes = 4 ∧ x.lookupNode ⟨[⟨[97]⟩]⟩ 1 = .ok none ∧
    ∃ m, x.lookupNode ⟨[⟨[99]⟩]⟩ 1 = .ok (some m) ∧ m.component = some ⟨[99]⟩ := by
  intro x
  have hunstopped : Unstopped .leftmost siblings := unstopped_iff.mpr (by decide)
  obtain ⟨hcoherent, hcounts⟩ := census_run .leftmost siblings
  obtain ⟨hlookup, hnodes⟩ := hcounts hunstopped
  refine ⟨hunstopped, hnodes.trans (by decide), ?_, ?_⟩
  · obtain ⟨found, hfound, hsome⟩ := hlookup ⟨[⟨[97]⟩]⟩ 1
    have hnone : found = none := by
      rw [← Option.not_isSome_iff_eq_none, hsome]
      decide
    exact hfound.trans (congrArg _ hnone)
  · obtain ⟨found, hfound, hsome⟩ := hlookup ⟨[⟨[99]⟩]⟩ 1
    obtain ⟨m, rfl⟩ := Option.isSome_iff_exists.mp (hsome.mpr (by decide))
    have hwalk := (hcoherent.reached ⟨[⟨[99]⟩]⟩ m).mpr hfound
    obtain ⟨p, _, c, hn, _, _, hcarried, _⟩ := hcoherent.keyed _ m hwalk (by decide)
    have hlast : c = ⟨[99]⟩ :=
      (List.append_singleton_inj.mp (congrArg Name.components hn.symm : _ = [] ++ [_])).2
    exact ⟨m, hfound, hcarried.trans (congrArg some hlast)⟩

end History

end NamedData
