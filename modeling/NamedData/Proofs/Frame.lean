import Mathlib.Data.List.Sort
import Mathlib.Data.Nat.Find
import NamedData.Proofs.Listings

namespace NamedData

variable {R : Type}

namespace Name

variable {n p : Name} {c : Component} {k : Nat}

theorem eq_take_of_push (h : p.components ++ [c] <+: n.components) :
    p = n.take p.length ∧ n.get? p.length = some c := by
  obtain ⟨rest, hrest⟩ := h
  constructor
  · apply eq_of_components
    simp [take, length, ← hrest]
  · simp [get?, length, ← hrest]

theorem lt_length_of_get? (h : n.get? k = some c) : k < n.length :=
  (List.getElem?_eq_some_iff.mp h).choose

theorem take_succ_of_get? (h : n.get? k = some c) :
    n.components.take (k+1) = (n.take k).components ++ [c] := by
  rw [get?] at h
  rw [List.take_add_one, h]
  rfl

end Name

namespace Forest

theorem WellFormed.put_of_find? {c : Component} {n : Node R} {f : Forest R} (hf : f.WellFormed)
    (h : f.find? c = some n) : f.put c n = f := by
  induction f with
  | nil => cases h
  | cons d own s below next _ ih =>
    obtain ⟨_, _, hlt, _, hnext⟩ := hf
    rw [Forest.find?] at h
    split at h
    next hc =>
      cases h
      subst hc
      have heq : compare c c = .eq := Component.compare_eq_eq.mpr rfl
      simp only [Forest.put, heq]
    next hc =>
      have hgt : compare c d = .gt :=
        Component.compare_eq_gt.mpr (hlt c (mem_components_of_find? h))
      simp only [Forest.put, hgt, ih hnext h]

end Forest

namespace Node

theorem grow_of_isSome (now : Timestamp) (here path : List Component) {n : Node R}
    (hn : n.children.WellFormed) (h : (n.state? path).isSome) :
    n.grow now here path = ⟨n, 0, none, none⟩ := by
  induction path generalizing here n with
  | nil => rfl
  | cons c path ih =>
    rw [state?_cons] at h
    rw [grow]
    cases hc : n.children.find? c with
    | none => simp [hc] at h
    | some child =>
      have hchild : (child.state? path).isSome := by simpa [hc] using h
      simp [ih (here ++ [c]) (hn.find? hc).1 hchild, hn.put_of_find? hc]

theorem isSome_of_mem_contents {n : Node R} {q : List Component} {r : R} (h : r ∈ n.contents q) :
    (n.state? q).isSome := by
  rw [contents] at h
  cases hq : n.state? q with
  | none => simp [hq] at h
  | some s => rfl

/-- Below paths that lead to the same states there is the same node. -/
theorem descend?_congr {n m : Node R} {p : List Component} (hown : n.component = m.component)
    (hn : n.children.WellFormed) (hm : m.children.WellFormed)
    (h : ∀ q, n.state? (p ++ q) = m.state? (p ++ q)) :
    n.descend? p = m.descend? p := by
  have hbelow (k : Node R) (q : List Component) :
      k.state? (p ++ q) = (k.descend? p).bind (·.state? q) := by
    rw [state?, descend?_append]
    cases k.descend? p <;> rfl
  simp only [hbelow] at h
  cases hp : n.descend? p with
  | none =>
    have hnone := h []
    rw [hp] at hnone
    cases hq : m.descend? p with
    | none => rfl
    | some k => simp [hq] at hnone
  | some j =>
    have hsome := h []
    rw [hp] at hsome
    cases hq : m.descend? p with
    | none => simp [hq] at hsome
    | some k =>
      have hjk : j = k := by
        have hcarried : j.component = k.component := by
          rw [component_of_descend? hn hp, component_of_descend? hm hq, hown]
        apply ext_state? hcarried (descend?_wellFormed hn hp).1 (descend?_wellFormed hm hq).1
        intro q
        have hstate := h q
        rwa [hp, hq] at hstate
      rw [hjk]

end Node

namespace Index

/-- What an insertion under the name `n` does to the index `x`, whose nodes reach as far as the
first `depth` components of the name. -/
structure Extends (x y : Index R) (n : Name) (r : R) (now : Timestamp) (depth : Nat) : Prop where
  /-- So many components of the name lead to a node, and no more. -/
  reaches : ∀ k ≤ n.length, (x.node? n k).isSome ↔ k ≤ depth
  nodes : ∀ p : Name, (y.node? p p.length).isSome ↔
    (x.node? p p.length).isSome ∨ p.isPrefixOf n = true
  /-- Off the path a node stays as it is, with all that is below it. -/
  aside : ∀ p : Name, p.isPrefixOf n = false → y.node? p p.length = x.node? p p.length
  /-- The reference comes last at the end of the path, and no other moves. -/
  content : ∀ p, (y.stateAt p).content = (x.stateAt p).content ++ if p = n then [r] else []
  forks : depth < n.length → y.standing (n.take depth) = (now, false) ∧
    ∃ c ∈ n.get? depth, c ∉ x.childrenAt (n.take depth) ∧
      (y.childrenAt (n.take depth)).Perm (c :: x.childrenAt (n.take depth))
  keeps : ∀ p, (x.node? p p.length).isSome → ¬(depth < n.length ∧ p = n.take depth) →
    y.standing p = x.standing p ∧ y.childrenAt p = x.childrenAt p

variable {x : Index R} {resolve : Resolver R} {o : Content} {r : R} {now : Timestamp}

theorem content_stateAt (x : Index R) (n : Name) :
    (x.stateAt n).content = x.root.contents n.components := by
  rw [stateAt, Node.contents]
  cases x.root.state? n.components <;> rfl

theorem isSome_node? (x : Index R) (n : Name) :
    (x.node? n n.length).isSome = (x.root.state? n.components).isSome := by
  rw [node?_length, Node.state?, Option.isSome_map]

theorem grown_of_isSome (now : Timestamp) (hx : x.root.children.WellFormed) {n : Name}
    (h : (x.root.state? n.components).isSome) :
    x.grown n now = x ∧ (x.growth n now).listing = none := by
  rw [grown, growth, Node.grow_of_isSome now [] n.components hx h]
  exact ⟨rfl, rfl⟩

theorem insert_of_refused (hx : x.root.children.WellFormed) {listing : Option Listing}
    (h : (x.insert resolve o r now).result = .ok ⟨false, listing⟩) :
    (x.insert resolve o r now).index = x ∧ listing = none := by
  rcases insert_cases hx resolve o r now with
    ⟨_, hi⟩ | ⟨_, v, _, hi⟩ | ⟨_, _, hseek, hi⟩ | ⟨_, _, _, hi⟩ <;> rw [hi] at h ⊢
  · cases h
    exact ⟨rfl, rfl⟩
  · cases h
  · obtain ⟨s, hs, _⟩ := seekEqual_iff.mp hseek
    obtain ⟨hsame, hnone⟩ := grown_of_isSome now hx (Node.isSome_of_mem_contents hs)
    cases h
    exact ⟨hsame, hnone⟩
  · cases h

theorem state?_insert_aside (hx : x.root.children.WellFormed) {q : List Component}
    (hq : ¬q <+: o.name.components) :
    (x.insert resolve o r now).index.root.state? q = x.root.state? q := by
  have hreach : ¬Node.Reaches o.name.components q := fun h => hq h.1
  have hend : q ≠ o.name.components := by
    intro heq
    rw [heq] at hq
    exact hq List.prefix_rfl
  rw [state?_insert hx, growth, Node.state?_grow now [] _ _ hx, if_neg fun h => hreach h.reaches,
    if_neg hreach]
  simp [hend]

theorem node?_insert_aside (hx : x.root.children.WellFormed) {p : Name}
    (hp : p.isPrefixOf o.name = false) :
    (x.insert resolve o r now).index.node? p p.length = x.node? p p.length := by
  rw [node?_length, node?_length]
  apply Node.descend?_congr (component_insert hx) (wellFormed_insert hx) hx
  intro q
  apply state?_insert_aside hx
  intro hq
  have hbegins : p.isPrefixOf o.name = true := by
    rw [Name.isPrefixOf, List.isPrefixOf_iff_prefix]
    exact (List.prefix_append _ q).trans hq
  cases hp.symm.trans hbegins

/-- The nodes of an index reach to some depth along every name. -/
theorem exists_depth (x : Index R) (n : Name) :
    ∃ depth ≤ n.length, ∀ k ≤ n.length, (x.node? n k).isSome ↔ k ≤ depth := by
  let P := fun k => (x.root.descend? (n.components.take k)).isSome = true
  have hnode {k : Nat} (hk : k ≤ n.length) : (x.node? n k).isSome = true ↔ P k := by
    rw [node?, if_pos hk]
  have hdown {k : Nat} (depth : Nat) (hk : k ≤ depth) (hdepth : P depth) : P k := by
    obtain ⟨m, hm⟩ := Option.isSome_iff_exists.mp hdepth
    obtain ⟨rest, hrest⟩ := List.take_prefix_take_left (l := n.components) hk
    rw [← hrest, Node.descend?_append] at hm
    obtain ⟨parent, hparent, _⟩ := Option.bind_eq_some_iff.mp hm
    exact Option.isSome_iff_exists.mpr ⟨parent, hparent⟩
  have hzero : P 0 := rfl
  refine ⟨Nat.findGreatest P n.length, Nat.findGreatest_le _, ?_⟩
  intro k hk
  rw [hnode hk]
  constructor
  · exact Nat.le_findGreatest hk
  · intro hle
    exact hdown _ hle (Nat.findGreatest_spec (Nat.zero_le _) hzero)

section Path

variable {n p : Name} {depth : Nat}

theorem node?_take {k : Nat} (hk : k ≤ n.length) :
    x.node? (n.take k) (n.take k).length = x.node? n k := by
  rw [node?_length, node?, if_pos hk]
  rfl

theorem node?_succ {c : Component} {k : Nat} (h : n.get? k = some c) :
    x.node? n (k+1) = x.root.descend? ((n.take k).components ++ [c]) := by
  have hnext : k+1 ≤ n.length := Name.lt_length_of_get? h
  rw [node?, if_pos hnext, Name.take_succ_of_get? h]

variable (hreaches : ∀ k ≤ n.length, (x.node? n k).isSome ↔ k ≤ depth)

include hreaches

/-- Of the nodes that were there, the last one on the path gains the next component, if there is
one. -/
theorem gains_iff_of_reaches (hn : ∀ c ∈ n.components, c.isEmpty = false)
    (hp : (x.node? p p.length).isSome) :
    x.root.Gains n.components p.components ↔ depth < n.length ∧ p = n.take depth := by
  constructor
  · intro hgains
    obtain ⟨c, _, hreach, hnone⟩ := hgains
    obtain ⟨htake, hget⟩ := Name.eq_take_of_push hreach.1
    have hlt := Name.lt_length_of_get? hget
    have hhere : p.length ≤ depth := by
      rw [htake, node?_take hlt.le] at hp
      exact (hreaches _ hlt.le).mp hp
    have hbeyond : ¬p.length+1 ≤ depth := by
      rw [← hreaches _ hlt, node?_succ hget, ← htake]
      simpa using hnone
    have hdepth : depth = p.length := by omega
    rw [hdepth]
    exact ⟨hlt, htake⟩
  · intro hlast
    obtain ⟨hlt, rfl⟩ := hlast
    obtain ⟨c, hget⟩ : ∃ c, n.get? depth = some c := ⟨_, List.getElem?_eq_getElem hlt⟩
    have hlength : (n.take depth).components.length = depth := List.length_take_of_le hlt.le
    have hbeyond := (hreaches (depth+1) hlt).not.mpr (by omega)
    refine ⟨c, ?_, ?_, ?_⟩
    · rw [hlength]
      exact hget
    · rw [← Name.take_succ_of_get? hget]
      exact ⟨List.take_prefix _ _, fun d hd => hn d (List.mem_of_mem_take hd)⟩
    · rw [node?_succ hget] at hbeyond
      simpa using hbeyond

end Path

theorem childrenAt_insert_of_not_gains (hx : x.root.children.WellFormed) {n : Name}
    (h : ¬x.root.Gains o.name.components n.components) :
    (x.insert resolve o r now).index.childrenAt n = x.childrenAt n := by
  apply (childrenAt_ascending (wellFormed_insert hx) n).eq_of_mem_iff (childrenAt_ascending hx n)
  intro c
  rw [mem_childrenAt_insert hx, or_iff_left_of_imp]
  intro hreach
  by_contra hc
  exact h ⟨c, (Name.eq_take_of_push hreach.1).2, hreach, not_mem_childrenAt_iff.mp hc⟩

theorem childrenAt_insert_of_gains (hx : x.root.children.WellFormed) {n : Name}
    (h : x.root.Gains o.name.components n.components) :
    ∃ c ∈ o.name.get? n.length, c ∉ x.childrenAt n ∧
      ((x.insert resolve o r now).index.childrenAt n).Perm (c :: x.childrenAt n) := by
  obtain ⟨c, hget, hreach, hnone⟩ := h
  have hnew : c ∉ x.childrenAt n := not_mem_childrenAt_iff.mpr hnone
  refine ⟨c, hget, hnew, ?_⟩
  have hbefore : (c :: x.childrenAt n).Nodup :=
    List.nodup_cons.mpr ⟨hnew, (childrenAt_ascending hx n).nodup⟩
  have hafter : ((x.insert resolve o r now).index.childrenAt n).Nodup :=
    (childrenAt_ascending (wellFormed_insert hx) n).nodup
  rw [List.perm_ext_iff_of_nodup hafter hbefore]
  intro d
  rw [mem_childrenAt_insert hx, List.mem_cons, or_comm]
  apply or_congr_left
  constructor
  · intro hd
    exact Option.some.inj ((Name.eq_take_of_push hd.1).2.symm.trans hget)
  · intro hd
    rwa [hd]

theorem extends_insert (hx : x.root.children.WellFormed)
    (ho : ∀ c ∈ o.name.components, c.isEmpty = false) (h : x.accepts resolve o r now = true) :
    ∃ depth ≤ o.name.length,
      x.Extends (x.insert resolve o r now).index o.name r now depth := by
  obtain ⟨depth, hdepth, hreaches⟩ := x.exists_depth o.name
  have hgains {p : Name} (hp : (x.node? p p.length).isSome) :
      x.root.Gains o.name.components p.components ↔ depth < o.name.length ∧ p = o.name.take depth :=
    gains_iff_of_reaches hreaches ho hp
  refine ⟨depth, hdepth, hreaches, ?_, fun p => node?_insert_aside hx, ?_, ?_, ?_⟩
  · intro p
    rw [isSome_node?, isSome_node?, isSome_insert hx, Name.isPrefixOf, List.isPrefixOf_iff_prefix,
      Node.Reaches, and_iff_left_of_imp]
    intro hbegins c hc
    exact ho c (hbegins.subset hc)
  · intro p
    have hname : p.components = o.name.components ↔ p = o.name :=
      ⟨Name.eq_of_components, congrArg Name.components⟩
    rw [content_stateAt, content_stateAt, contents_insert hx, h]
    simp only [true_and, hname]
  · intro hlt
    have hlength : (o.name.take depth).length = depth := List.length_take_of_le hdepth
    have hp : (x.node? (o.name.take depth) (o.name.take depth).length).isSome := by
      rw [node?_take hdepth]
      exact (hreaches depth hdepth).mpr le_rfl
    have hgain := (hgains hp).mpr ⟨hlt, rfl⟩
    constructor
    · rw [standing_insert hx, if_pos hgain]
    · obtain ⟨c, hget, hnew, hperm⟩ := childrenAt_insert_of_gains hx hgain
      rw [hlength] at hget
      exact ⟨c, hget, hnew, hperm⟩
  · intro p hp hfork
    have hno := mt (hgains hp).mp hfork
    constructor
    · rw [standing_insert hx, if_neg hno]
    · exact childrenAt_insert_of_not_gains hx hno

end Index

namespace History

/-- An insertion that is refused leaves the index as it is and hands out no listing. One that is
accepted adds a reference at the end of its path and a child to one node at most. -/
theorem insert_frame_run (selector : Selector) (ops : List (Operation R)) (resolve : Resolver R)
    (o : Content) (r : R) (now : Timestamp) (ho : ∀ c ∈ o.name.components, c.isEmpty = false) :
    let x := (run selector ops).index
    let y := (x.insert resolve o r now).index
    ∃ inserted listing, (x.insert resolve o r now).result = .ok ⟨inserted, listing⟩ ∧
      (inserted = false → y = x ∧ listing = none) ∧
      (inserted = true → ∃ depth ≤ o.name.length, x.Extends y o.name r now depth) := by
  intro x y
  have hx : x.root.children.WellFormed := (recorded_run selector ops).wellFormed
  have hresult := Index.insert_result hx resolve o r now
  rw [if_pos ho] at hresult
  refine ⟨_, _, hresult, ?_, ?_⟩
  · intro hrefused
    rw [hrefused] at hresult
    exact Index.insert_of_refused hx hresult
  · intro haccepted
    rw [haccepted] at hresult
    exact Index.extends_insert hx ho (Index.accepts_iff.mpr ⟨_, hresult⟩)

/-- A content that is stored already leaves everything as it is, the request that waits at it too; one
below it answers the request. -/
theorem insert_frame_run_askA :
    let x := (run .leftmost [.insert (fun _ => none) (.blank nameA) () ⟨5⟩, askA]).index
    let again := x.insert (fun _ => some (.blank nameA)) (.blank nameA) () ⟨6⟩
    let below := x.insert (fun _ => none) (.blank (nameA.push ⟨[99]⟩)) () ⟨6⟩
    (again.index = x ∧ again.result = .ok ⟨false, none⟩) ∧
      x.Extends below.index (nameA.push ⟨[99]⟩) () ⟨6⟩ 1 := by
  intro x again below
  constructor
  · obtain ⟨inserted, listing, hresult, hrefused, _⟩ :=
      insert_frame_run .leftmost [.insert (fun _ => none) (.blank nameA) () ⟨5⟩, askA]
        (fun _ => some (.blank nameA)) (.blank nameA) () ⟨6⟩ (by decide)
    have hinserted : inserted = false := (congrArg Insertion.inserted (Except.ok.inj hresult)).symm
    obtain ⟨hsame, hnone⟩ := hrefused hinserted
    rw [hinserted, hnone] at hresult
    exact ⟨hsame, hresult⟩
  · obtain ⟨inserted, listing, hresult, _, haccepted⟩ :=
      insert_frame_run .leftmost [.insert (fun _ => none) (.blank nameA) () ⟨5⟩, askA]
        (fun _ => none) (.blank (nameA.push ⟨[99]⟩)) () ⟨6⟩ (by decide)
    have hinserted : inserted = true := (congrArg Insertion.inserted (Except.ok.inj hresult)).symm
    obtain ⟨depth, hdepth, hextends⟩ := haccepted hinserted
    have hone : 1 ≤ depth := (hextends.reaches 1 (by decide)).mp (by decide)
    have htwo : ¬2 ≤ depth := fun h => absurd ((hextends.reaches 2 (by decide)).mpr h) (by decide)
    have hlast : depth = 1 := by omega
    rwa [hlast] at hextends

end History

namespace Index

/-- Every request that waits in `x` waits in `y` too. -/
def KeepsRequests (x y : Index R) : Prop :=
  ∀ n, (x.stateAt n).pending = true → (y.stateAt n).pending = true

variable {x : Index R} {resolve : Resolver R} {o : Content} {r : R} {now : Timestamp}

/-- A request waits at a node that is there, so under a name without empty components. -/
theorem isEmpty_of_pending (hx : x.root.children.WellFormed) {n : Name}
    (h : (x.stateAt n).pending = true) : ∀ c ∈ n.components, c.isEmpty = false := by
  have hnode := isSome_node?_of_pending h
  rw [node?_length] at hnode
  obtain ⟨m, hm⟩ := Option.isSome_iff_exists.mp hnode
  exact (Node.descend?_wellFormed hx hm).2

theorem pending_insert_iff (hx : x.root.children.WellFormed) (n : Name) :
    ((x.insert resolve o r now).index.stateAt n).pending = true ↔
      (x.stateAt n).pending = true ∧ ¬x.Gains (x.insert resolve o r now).index n := by
  have hstanding : (x.insert resolve o r now).index.standing n =
      if x.root.Gains o.name.components n.components then (now, false) else x.standing n :=
    standing_insert hx n
  have hpending : ((x.insert resolve o r now).index.stateAt n).pending = _ :=
    congrArg Prod.snd hstanding
  rw [gains_insert_iff hx, hpending]
  split
  next hgains => simp [hgains]
  next hgains => simp [hgains, standing]

/-- A node at which a request waits gains the next component of the path, unless it is a child of it
already or is empty. -/
theorem gains_insert_iff_of_pending (hx : x.root.children.WellFormed) {n : Name}
    (h : (x.stateAt n).pending = true) :
    x.Gains (x.insert resolve o r now).index n ↔
      ∃ c, (n.push c).isPrefixOf o.name = true ∧ c ∉ x.childrenAt n ∧ c.isEmpty = false := by
  have hbegins (c : Component) :
      (n.push c).isPrefixOf o.name = true ↔ n.components ++ [c] <+: o.name.components := by
    rw [Name.isPrefixOf, List.isPrefixOf_iff_prefix]
    rfl
  rw [gains_insert_iff hx]
  constructor
  · intro hgains
    obtain ⟨c, _, hreach, hnone⟩ := hgains
    exact ⟨c, (hbegins c).mpr hreach.1, not_mem_childrenAt_iff.mpr hnone, hreach.2 c (by simp)⟩
  · intro hnext
    obtain ⟨c, hc, hnew, hempty⟩ := hnext
    have hreach : Node.Reaches o.name.components (n.components ++ [c]) := by
      refine ⟨(hbegins c).mp hc, ?_⟩
      intro d hd
      rcases List.mem_append.mp hd with hd | hd
      · exact isEmpty_of_pending hx h d hd
      · rwa [List.mem_singleton.mp hd]
    exact ⟨c, (Name.eq_take_of_push hreach.1).2, hreach, not_mem_childrenAt_iff.mp hnew⟩

theorem insert_of_isEmpty (hx : x.root.children.WellFormed)
    (ho : ∃ c ∈ o.name.components, c.isEmpty = true) :
    (x.insert resolve o r now).result = .error .emptyComponent ∧
      (x.insert resolve o r now).events = [] := by
  obtain ⟨c, hc, hempty⟩ := ho
  have hno : ¬∀ c ∈ o.name.components, c.isEmpty = false := by
    intro hall
    cases hempty.symm.trans (hall c hc)
  constructor
  · rw [insert_result hx, if_neg hno]
  · rcases insert_cases hx resolve o r now with
      ⟨_, h⟩ | ⟨_, v, _, h⟩ | ⟨_, hfault, _, _⟩ | ⟨_, hfault, _, _⟩
    · rw [h]
    · rw [h]
    · exact absurd (isEmpty_of_growth hx hfault) hno
    · exact absurd (isEmpty_of_growth hx hfault) hno

end Index

namespace History

/-- An insertion that is stopped hands out nothing, yet a request that waited at a node which gained
a child is gone. So none is lost exactly if no node with a request has a new child before the empty
component. -/
theorem stopped_insert_run (selector : Selector) (ops : List (Operation R)) (resolve : Resolver R)
    (o : Content) (r : R) (now : Timestamp) (ho : ∃ c ∈ o.name.components, c.isEmpty = true) :
    let x := (run selector ops).index
    let y := (x.insert resolve o r now).index
    (x.insert resolve o r now).result = .error .emptyComponent ∧
      (x.insert resolve o r now).events = [] ∧
      (∀ n, (y.stateAt n).pending = true ↔ (x.stateAt n).pending = true ∧ ¬x.Gains y n) ∧
      (x.KeepsRequests y ↔ ∀ n c, (x.stateAt n).pending = true →
        (n.push c).isPrefixOf o.name = true → c ∉ x.childrenAt n → c.isEmpty = true) := by
  intro x y
  have hx : x.root.children.WellFormed := (recorded_run selector ops).wellFormed
  have hstop : (x.insert resolve o r now).result = .error .emptyComponent ∧
      (x.insert resolve o r now).events = [] := Index.insert_of_isEmpty hx ho
  have hpending (n : Name) :
      (y.stateAt n).pending = true ↔ (x.stateAt n).pending = true ∧ ¬x.Gains y n :=
    Index.pending_insert_iff hx n
  refine ⟨hstop.1, hstop.2, hpending, ?_⟩
  constructor
  · intro hkeeps n c hwaits hbegins hnew
    by_contra hc
    apply ((hpending n).mp (hkeeps n hwaits)).2
    exact (Index.gains_insert_iff_of_pending hx hwaits).mpr ⟨c, hbegins, hnew, by simpa using hc⟩
  · intro hall n hwaits
    refine (hpending n).mpr ⟨hwaits, ?_⟩
    intro hgains
    obtain ⟨c, hbegins, hnew, hc⟩ := (Index.gains_insert_iff_of_pending hx hwaits).mp hgains
    cases hc.symm.trans (hall n c hwaits hbegins hnew)

def emptyBelowA : Content := .blank (nameA.push ⟨[]⟩)

def emptyBelowAB : Content := .blank ((nameA.push ⟨[98]⟩).push ⟨[]⟩)

/-- Nothing is lost where the empty component itself would be the new child. -/
theorem stopped_insert_run_emptyBelowA :
    let x := (run .leftmost [.insert (fun _ => none) (.blank nameA) () ⟨5⟩, askA]).index
    (x.stateAt nameA).pending = true ∧
      ∀ n, (x.stateAt n).pending = true →
        ((x.insert (fun _ => none) emptyBelowA () ⟨6⟩).index.stateAt n).pending = true := by
  intro x
  obtain ⟨_, _, _, hkeeps⟩ :=
    stopped_insert_run .leftmost [.insert (fun _ => none) (.blank nameA) () ⟨5⟩, askA]
      (fun _ => none) emptyBelowA () ⟨6⟩ ⟨⟨[]⟩, by decide⟩
  refine ⟨by decide, hkeeps.mpr ?_⟩
  intro n c hwaits hbegins _
  obtain ⟨hn, hc⟩ := Name.eq_take_of_push (List.isPrefixOf_iff_prefix.mp hbegins)
  have hlt : n.length < 2 := Name.lt_length_of_get? hc
  rcases (show n.length = 0 ∨ n.length = 1 by omega) with hzero | hone
  · rw [hn, hzero] at hwaits
    exact absurd hwaits (by decide)
  · rw [hone] at hc
    have hempty : ⟨[]⟩ = c := Option.some.inj hc
    rw [← hempty]
    rfl

/-- The request that waits at the name a is lost to a child of it, of which nobody is told. -/
theorem not_keepsRequests_emptyBelowAB :
    let x := (run .leftmost [.insert (fun _ => none) (.blank nameA) () ⟨5⟩, askA]).index
    (∃ c ∈ emptyBelowAB.name.components, c.isEmpty = true) ∧
      ¬x.KeepsRequests (x.insert (fun _ => none) emptyBelowAB () ⟨6⟩).index := by
  intro x
  refine ⟨⟨⟨[]⟩, by decide⟩, ?_⟩
  intro hkeeps
  have hlost :
      ((x.insert (fun _ => none) emptyBelowAB () ⟨6⟩).index.stateAt nameA).pending = false := by
    decide
  have hwaits : (x.stateAt nameA).pending = true := by decide
  cases hlost.symm.trans (hkeeps nameA hwaits)

end History

end NamedData
