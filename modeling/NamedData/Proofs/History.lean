import NamedData.Index.Enumerate
import NamedData.Index.Get
import NamedData.Index.Insert
import NamedData.Proofs.Growth

namespace NamedData

variable {R : Type}

/-- What can be done to an index. Lookups and searches leave no trace, and an eviction changes how
references resolve, which each operation is told anew. -/
inductive Operation (R : Type)
  | insert (resolve : Resolver R) (o : Content) (r : R) (now : Timestamp)
  | enumerate (i : Interest) (responder : Component)
  | get (resolve : Resolver R) (i : Interest)

structure History (R : Type) where
  index : Index R
  /-- The references that were accepted, each with the content it was inserted with. -/
  stored : List (Match R)
  /-- The names of all contents that were to be inserted. -/
  named : List Name

namespace Index

def accepts (x : Index R) (resolve : Resolver R) (o : Content) (r : R) (now : Timestamp) : Bool :=
  match (x.insert resolve o r now).result with
  | .ok a => a.inserted
  | .error _ => false

end Index

namespace History

def start (selector : Selector) : History R := ⟨.empty selector, [], []⟩

def step (h : History R) : Operation R → History R
  | .insert resolve o r now =>
    { index := (h.index.insert resolve o r now).index
      stored := if h.index.accepts resolve o r now then h.stored ++ [⟨r, o⟩] else h.stored
      named := h.named ++ [o.name] }
  | .enumerate i responder => { h with index := (h.index.enumerate i responder).index }
  | .get resolve i => { h with index := (h.index.get resolve i).index }

def run (selector : Selector) (ops : List (Operation R)) : History R :=
  ops.foldl step (start selector)

def storedAt (h : History R) (n : Name) : List (Match R) :=
  h.stored.filter fun e => e.content.name = n

/-- A reference leads to the content it was inserted with, or nowhere. -/
def Faithful (h : History R) (resolve : Resolver R) : Prop :=
  ∀ e ∈ h.stored, resolve e.ref = none ∨ resolve e.ref = some e.content

/-- The index is what was put into it. -/
structure Recorded (h : History R) : Prop where
  root : h.index.root.component = none
  wellFormed : h.index.root.children.WellFormed
  contents : ∀ n : Name, h.index.root.contents n.components = (h.storedAt n).map (·.ref)
  nodes : ∀ q, (h.index.root.state? q).isSome ↔ ∃ n ∈ Name.root :: h.named, Node.Reaches n.components q

end History

namespace Index

variable {x : Index R} {resolve : Resolver R} {o : Content} {r : R} {now : Timestamp}

def growth (x : Index R) (n : Name) (now : Timestamp) : Growth R :=
  x.root.grow now [] n.components

def grown (x : Index R) (n : Name) (now : Timestamp) : Index R :=
  { x with root := (x.growth n now).node, nodes := x.nodes+(x.growth n now).added }

def seekEvents (x : Index R) (resolve : Resolver R) (o : Content) (now : Timestamp) : List Event :=
  (if (x.growth o.name now).listing.isSome then [.answered] else []) ++
    staleEvents resolve (seekEqual resolve o (x.root.contents o.name.components)).1

/-- The four ways an insertion can go: nothing at the root, a stop at an empty component, a
duplicate, and a new reference. -/
theorem insert_cases (hx : x.root.children.WellFormed) (resolve : Resolver R) (o : Content) (r : R)
    (now : Timestamp) :
    (o.name.isRoot = true ∧ x.insert resolve o r now = ⟨x, [], .ok ⟨false, none⟩⟩) ∨
    (o.name.isRoot = false ∧ ∃ v, (x.growth o.name now).fault = some v ∧
      x.insert resolve o r now = ⟨x.grown o.name now, [], .error v⟩) ∨
    (o.name.isRoot = false ∧ (x.growth o.name now).fault = none ∧
      (seekEqual resolve o (x.root.contents o.name.components)).2 = true ∧
      x.insert resolve o r now = ⟨x.grown o.name now, x.seekEvents resolve o now ++ [.duplicate],
        .ok ⟨false, (x.growth o.name now).listing⟩⟩) ∨
    (o.name.isRoot = false ∧ (x.growth o.name now).fault = none ∧
      (seekEqual resolve o (x.root.contents o.name.components)).2 = false ∧
      x.insert resolve o r now =
        ⟨{ x.grown o.name now with
            root := (x.growth o.name now).node.modify
              (fun s => { s with content := s.content ++ [r] }) o.name.components
            objects := x.objects+1 },
          x.seekEvents resolve o now ++ [.inserted],
          .ok ⟨true, (x.growth o.name now).listing⟩⟩) := by
  cases hroot : o.name.isRoot with
  | true => exact Or.inl ⟨rfl, by simp [insert, hroot]⟩
  | false =>
    refine Or.inr ?_
    cases hfault : (x.growth o.name now).fault with
    | some v =>
      refine Or.inl ⟨rfl, v, rfl, ?_⟩
      rw [growth] at hfault
      simp [insert, hroot, hfault, grown, growth]
    | none =>
      refine Or.inr ?_
      have hcontents : (((x.growth o.name now).node.descend? o.name.components).map
          (·.state.content)).getD [] = x.root.contents o.name.components := by
        rw [← Node.contents_grow now [] o.name.components o.name.components hx, growth,
          Node.contents, Node.state?, Option.map_map]
        rfl
      have hinsert : x.insert resolve o r now =
          ⟨((x.grown o.name now).attach resolve o r).index,
            (if (x.growth o.name now).listing.isSome then [.answered] else []) ++
              ((x.grown o.name now).attach resolve o r).events,
            ((x.grown o.name now).attach resolve o r).result.map fun inserted =>
              ⟨inserted, (x.growth o.name now).listing⟩⟩ := by
        rw [growth] at hfault
        simp only [insert, hroot, hfault, grown, growth]
        rfl
      rw [hinsert, attach]
      simp only [grown, hcontents, seekEvents, List.append_assoc]
      cases hseek : (seekEqual resolve o (x.root.contents o.name.components)).2 with
      | true => exact Or.inl ⟨trivial, trivial, rfl, rfl⟩
      | false => exact Or.inr ⟨trivial, trivial, rfl, rfl⟩

theorem isEmpty_of_growth (hx : x.root.children.WellFormed)
    (h : (x.growth o.name now).fault = none) : ∀ c ∈ o.name.components, c.isEmpty = false := by
  rw [growth, Node.grow_fault now [] _ hx] at h
  by_contra hc
  rw [if_neg hc] at h
  cases h

theorem isSome_of_growth (hx : x.root.children.WellFormed)
    (h : (x.growth o.name now).fault = none) :
    ((x.growth o.name now).node.state? o.name.components).isSome := by
  rw [growth, Node.isSome_grow now [] _ _ hx]
  exact Or.inr ⟨List.prefix_rfl, isEmpty_of_growth hx h⟩

theorem wellFormed_insert (hx : x.root.children.WellFormed) :
    (x.insert resolve o r now).index.root.children.WellFormed := by
  have hgrow : (x.growth o.name now).node.children.WellFormed :=
    Node.wellFormed_grow now [] o.name.components hx
  rcases insert_cases hx resolve o r now with
    ⟨_, h⟩ | ⟨_, v, _, h⟩ | ⟨_, _, _, h⟩ | ⟨_, _, _, h⟩ <;> rw [h]
  · exact hx
  · exact hgrow
  · exact hgrow
  · exact Node.wellFormed_modify _ _ hgrow

theorem component_insert (hx : x.root.children.WellFormed) :
    (x.insert resolve o r now).index.root.component = x.root.component := by
  have hgrow : (x.growth o.name now).node.component = x.root.component :=
    Node.grow_component now [] o.name.components x.root
  rcases insert_cases hx resolve o r now with
    ⟨_, h⟩ | ⟨_, v, _, h⟩ | ⟨_, _, _, h⟩ | ⟨_, _, _, h⟩ <;> rw [h]
  · exact hgrow
  · exact hgrow
  · exact (Node.modify_component _ _ _).trans hgrow

theorem contents_insert (hx : x.root.children.WellFormed) (q : List Component) :
    (x.insert resolve o r now).index.root.contents q =
      x.root.contents q ++
        if x.accepts resolve o r now ∧ q = o.name.components then [r] else [] := by
  have hgrow : (x.growth o.name now).node.contents q = x.root.contents q :=
    Node.contents_grow now [] o.name.components q hx
  rcases insert_cases hx resolve o r now with
    ⟨_, h⟩ | ⟨_, v, _, h⟩ | ⟨_, _, _, h⟩ | ⟨_, hfault, _, h⟩ <;> rw [accepts, h]
  · simp
  · simpa [grown] using hgrow
  · simpa [grown] using hgrow
  · simp [Node.contents_modify_append r _ _ (isSome_of_growth hx hfault), hgrow]

/-- An insertion leaves what the growth for its name does, but for the reference that it adds. -/
theorem state?_insert (hx : x.root.children.WellFormed) (q : List Component) :
    (x.insert resolve o r now).index.root.state? q =
      ((x.growth o.name now).node.state? q).map fun s =>
        if x.accepts resolve o r now ∧ q = o.name.components then
          { s with content := s.content ++ [r] }
        else s := by
  rcases insert_cases hx resolve o r now with
    ⟨hroot, h⟩ | ⟨_, v, _, h⟩ | ⟨_, _, _, h⟩ | ⟨_, _, _, h⟩ <;> rw [accepts, h]
  · have hname : o.name.components = [] := List.isEmpty_iff.mp hroot
    simp [growth, hname, Node.grow]
  · simp [grown]
  · simp [grown]
  · rw [Node.state?_modify]
    split
    next hq => simp [hq]
    next hq => simp [hq]

theorem isSome_insert (hx : x.root.children.WellFormed) (q : List Component) :
    ((x.insert resolve o r now).index.root.state? q).isSome ↔
      (x.root.state? q).isSome ∨ Node.Reaches o.name.components q := by
  rw [state?_insert hx, Option.isSome_map, growth, Node.isSome_grow now [] _ _ hx]

theorem node?_length (x : Index R) (n : Name) :
    x.node? n n.length = x.root.descend? n.components := by
  rw [node?, if_pos le_rfl, Name.length, List.take_length]

theorem lookupNode_eq (hx : x.root.component = none) (n : Name) (depth : Nat) :
    x.lookupNode n depth = .ok (x.node? n depth) := by
  rw [lookupNode, hx]
  rfl

theorem lookupNode_length (hx : x.root.component = none) (n : Name) :
    x.lookupNode n n.length = .ok (x.root.descend? n.components) := by
  rw [lookupNode_eq hx, node?_length]

theorem lookupNode_of_component {c : Component} (hx : x.root.component = some c) (n : Name)
    (depth : Nat) : x.lookupNode n depth = .error .rootComponent := by
  rw [lookupNode, hx]
  rfl

/-- The ways a request for a listing can go: it is dropped, which is no fault only where it names no
node, or it waits at the node it names or is answered there. -/
theorem enumerate_cases (x : Index R) (i : Interest) (responder : Component) :
    (∃ result, x.enumerate i responder = ⟨x, [], result⟩ ∧ (∀ l, result ≠ .ok (some l)) ∧
      ∀ n, i.name.before? .enumeration = some n → (x.node? n n.length).isSome →
        ∃ v, result = .error v) ∨
    ∃ n m, i.name.before? .enumeration = some n ∧ x.node? n n.length = some m ∧
      (x.enumerate i responder = ⟨x.setPending n true, [.deferred], .ok none⟩ ∨
        x.enumerate i responder =
          ⟨x.setPending n false, [.answered], .ok (some (.ofNode n m))⟩) := by
  cases hn : i.name.before? .enumeration with
  | none => exact Or.inl ⟨.ok none, by simp [enumerate, hn], by simp, by simp⟩
  | some n =>
    cases hown : x.root.component with
    | some c =>
      have hlook := lookupNode_of_component hown n n.length
      exact Or.inl ⟨.error .rootComponent, by simp [enumerate, hn, hlook], by simp, by simp⟩
    | none =>
      have hlook := lookupNode_eq hown n n.length
      cases hm : x.node? n n.length with
      | none =>
        rw [hm] at hlook
        exact Or.inl ⟨.ok none, by simp [enumerate, hn, hlook], by simp, by simp [hm]⟩
      | some m =>
        rw [hm] at hlook
        cases hw : wants i responder n m with
        | error v => exact Or.inl ⟨.error v, by simp [enumerate, hn, hlook, hw], by simp, by simp⟩
        | ok wanted =>
          refine Or.inr ⟨n, m, rfl, hm, ?_⟩
          by_cases hwait : (m.children.components.isEmpty || !wanted) = true
          · exact Or.inl (by simp [enumerate, hn, hlook, hw, hwait])
          · exact Or.inr (by simp [enumerate, hn, hlook, hw, hwait])

theorem enumerate_index (x : Index R) (i : Interest) (responder : Component) :
    (x.enumerate i responder).index = x ∨
      ∃ n pending, (x.enumerate i responder).index = x.setPending n pending := by
  rcases x.enumerate_cases i responder with ⟨_, h, _⟩ | ⟨n, m, _, _, h | h⟩ <;> rw [h]
  · exact Or.inl rfl
  · exact Or.inr ⟨n, true, rfl⟩
  · exact Or.inr ⟨n, false, rfl⟩

end Index

namespace History

variable {h : History R}

theorem mem_stored_insert {resolve : Resolver R} {o : Content} {r : R} {now : Timestamp}
    {e : Match R} :
    e ∈ (h.step (.insert resolve o r now)).stored ↔
      e ∈ h.stored ∨ h.index.accepts resolve o r now = true ∧ e = ⟨r, o⟩ := by
  rw [step]
  cases h.index.accepts resolve o r now <;> simp

theorem recorded_start (selector : Selector) : (start selector : History R).Recorded where
  root := rfl
  wellFormed := trivial
  contents n := by cases n.components <;> rfl
  nodes q := by
    cases q with
    | nil => exact ⟨fun _ => ⟨.root, by simp, Node.reaches_nil _⟩, fun _ => rfl⟩
    | cons c q => simp [start, Index.empty, Node.state?_root_cons, Node.Reaches]

theorem Recorded.insert (hh : h.Recorded) (resolve : Resolver R) (o : Content) (r : R)
    (now : Timestamp) : (h.step (.insert resolve o r now)).Recorded where
  root := (Index.component_insert hh.wellFormed).trans hh.root
  wellFormed := Index.wellFormed_insert hh.wellFormed
  contents n := by
    have hname : n.components = o.name.components ↔ o.name = n :=
      ⟨fun hn => Name.eq_of_components hn.symm, fun hn => by rw [hn]⟩
    simp only [step, storedAt, Index.contents_insert hh.wellFormed, hh.contents, hname]
    cases h.index.accepts resolve o r now with
    | false => simp
    | true => by_cases hn : o.name = n <;> simp [List.filter_append, hn]
  nodes q := by
    rw [step, Index.isSome_insert hh.wellFormed, hh.nodes]
    simp only [List.mem_cons, List.mem_append, List.not_mem_nil, or_false]
    constructor
    · rintro (⟨n, hn | hn, hq⟩ | hq)
      · exact ⟨n, Or.inl hn, hq⟩
      · exact ⟨n, Or.inr (Or.inl hn), hq⟩
      · exact ⟨o.name, Or.inr (Or.inr rfl), hq⟩
    · rintro ⟨n, hn | hn | rfl, hq⟩
      · exact Or.inl ⟨n, Or.inl hn, hq⟩
      · exact Or.inl ⟨n, Or.inr hn, hq⟩
      · exact Or.inr hq

theorem Recorded.setPending (hh : h.Recorded) (n : Name) (pending : Bool) :
    Recorded { h with index := h.index.setPending n pending } where
  root := (Node.modify_component _ _ _).trans hh.root
  wellFormed := Node.wellFormed_modify _ _ hh.wellFormed
  contents m := by
    have h1 := hh.contents m
    simp only [storedAt, Node.contents, Index.setPending, Node.state?_modify] at h1 ⊢
    rw [← h1]
    split
    · cases h.index.root.state? m.components <;> rfl
    · rfl
  nodes q := by
    rw [← hh.nodes q]
    simp only [Index.setPending, Node.state?_modify]
    split
    · simp
    · rfl

theorem Recorded.enumerate (hh : h.Recorded) (i : Interest) (responder : Component) :
    (h.step (.enumerate i responder)).Recorded := by
  rcases h.index.enumerate_index i responder with hi | ⟨n, pending, hi⟩
  · rw [History.step, hi]
    exact hh
  · rw [History.step, hi]
    exact hh.setPending n pending

theorem Recorded.step (hh : h.Recorded) (op : Operation R) : (h.step op).Recorded := by
  cases op with
  | insert resolve o r now => exact hh.insert resolve o r now
  | enumerate i responder => exact hh.enumerate i responder
  | get resolve i => exact hh

theorem Recorded.defaultSelector_step (hh : h.Recorded) (op : Operation R) :
    (h.step op).index.defaultSelector = h.index.defaultSelector := by
  cases op with
  | insert resolve o r now =>
    rw [History.step]
    rcases Index.insert_cases hh.wellFormed resolve o r now with
      ⟨_, hx⟩ | ⟨_, v, _, hx⟩ | ⟨_, _, _, hx⟩ | ⟨_, _, _, hx⟩ <;> rw [hx] <;> rfl
  | enumerate i responder =>
    rw [History.step]
    rcases h.index.enumerate_index i responder with hi | ⟨n, pending, hi⟩ <;> rw [hi]
    rfl
  | get resolve i => rfl

/-- After any run the index is what was put into it. -/
theorem recorded_run (selector : Selector) (ops : List (Operation R)) :
    (run selector ops).Recorded :=
  List.foldlRecOn ops step (recorded_start selector) fun _ hh op _ => hh.step op

/-- What holds at the start and is kept by every step from an index that is what was put into it
holds after every run. -/
theorem run_induction {P : History R → Prop} {selector : Selector} (hstart : P (start selector))
    (hstep : ∀ h : History R, h.Recorded → P h → ∀ op, P (h.step op)) (ops : List (Operation R)) :
    P (run selector ops) := by
  have hrun : (run selector ops).Recorded ∧ P (run selector ops) :=
    List.foldlRecOn (motive := fun h => h.Recorded ∧ P h) ops step
      ⟨recorded_start selector, hstart⟩
      fun h hh op _ => ⟨hh.1.step op, hstep h hh.1 hh.2 op⟩
  exact hrun.2

theorem defaultSelector_run (selector : Selector) (ops : List (Operation R)) :
    (run selector ops).index.defaultSelector = selector :=
  run_induction (P := fun h => h.index.defaultSelector = selector) rfl
    (fun _ hh hselector op => (hh.defaultSelector_step op).trans hselector) ops

end History

end NamedData
