import NamedData.Proofs.History

namespace NamedData

variable {R : Type}

theorem seekEqual_iff {resolve : Resolver R} {o : Content} {rs : List R} :
    (seekEqual resolve o rs).2 = true ↔ ∃ r ∈ rs, resolve r = some o := by
  induction rs with
  | nil => simp [seekEqual]
  | cons r rs ih =>
    rw [seekEqual]
    by_cases hr : resolve r = some o
    · simp [hr]
    · simp [hr, ih]

namespace Index

variable {x : Index R} {resolve : Resolver R} {o : Content} {r : R} {now : Timestamp}

theorem lookup_eq (hx : x.root.component = none) (n : Name) :
    x.lookup n =
      .ok (if x.root.contents n.components = [] then none
        else some (x.root.contents n.components)) := by
  rw [lookup, lookupNode_length hx, Node.contents, Node.state?]
  cases x.root.descend? n.components with
  | none => rfl
  | some m => cases hm : m.state.content <;> simp [hm, Except.map]

theorem contents_of_lookup (hx : x.root.component = none) {n : Name} {rs : List R}
    (h : x.lookup n = .ok (some rs)) : x.root.contents n.components = rs := by
  rw [lookup_eq hx] at h
  split at h
  · cases h
  · exact Option.some.inj (Except.ok.inj h)

theorem mem_contents_iff (hx : x.root.component = none) {n : Name} :
    r ∈ x.root.contents n.components ↔ ∃ rs, x.lookup n = .ok (some rs) ∧ r ∈ rs := by
  constructor
  · intro hr
    have hnil := List.ne_nil_of_mem hr
    exact ⟨_, by rw [lookup_eq hx, if_neg hnil], hr⟩
  · rintro ⟨rs, hrs, hr⟩
    rwa [contents_of_lookup hx hrs]

/-- What an insertion returns: the root takes nothing, and a name without empty components takes what
no reference there leads to. The listing is that of the growth. -/
theorem insert_result (hx : x.root.children.WellFormed) (resolve : Resolver R) (o : Content) (r : R)
    (now : Timestamp) :
    (x.insert resolve o r now).result =
      if ∀ c ∈ o.name.components, c.isEmpty = false then
        .ok ⟨!o.name.isRoot && !(seekEqual resolve o (x.root.contents o.name.components)).2,
          (x.growth o.name now).listing⟩
      else .error .emptyComponent := by
  have hfault := Node.grow_fault now [] o.name.components hx
  rcases insert_cases hx resolve o r now with
    ⟨hroot, h⟩ | ⟨_, v, hv, h⟩ | ⟨_, hv, hseek, h⟩ | ⟨hroot, hv, hseek, h⟩ <;> rw [h]
  · have hname : o.name.components = [] := List.isEmpty_iff.mp hroot
    rw [growth, hroot, hname, if_pos (by simp)]
    rfl
  · have hstop := hv.symm.trans hfault
    split at hstop
    · cases hstop
    next hempty => rw [if_neg hempty, Option.some.inj hstop]
  · rw [if_pos (isEmpty_of_growth hx hv), hseek]
    simp
  · rw [if_pos (isEmpty_of_growth hx hv), hseek, hroot]
    rfl

theorem contents_eq_nil_of_isEmpty (hx : x.root.children.WellFormed) {q : List Component}
    (hq : ¬∀ c ∈ q, c.isEmpty = false) : x.root.contents q = [] := by
  rw [Node.contents, Node.state?]
  cases hm : x.root.descend? q with
  | none => rfl
  | some m => exact absurd (Node.descend?_wellFormed hx hm).2 hq

theorem insert_refused_iff (hx : x.root.children.WellFormed) (resolve : Resolver R) (o : Content)
    (r : R) (now : Timestamp) :
    (∃ l, (x.insert resolve o r now).result = .ok ⟨false, l⟩) ↔
      o.name = .root ∨ ∃ s ∈ x.root.contents o.name.components, resolve s = some o := by
  rw [insert_result hx, ← seekEqual_iff, ← Name.isRoot_iff]
  split
  · cases o.name.isRoot <;> simp
  next hempty =>
    have hroot : o.name.isRoot ≠ true := by
      rw [Ne, Name.isRoot_iff]
      intro hroot
      exact hempty (by simp [hroot, Name.root])
    simp [contents_eq_nil_of_isEmpty hx hempty, seekEqual, hroot]

/-- Any other content is accepted, unless its name has an empty component. -/
theorem insert_accepted_iff (hx : x.root.children.WellFormed) (resolve : Resolver R) (o : Content)
    (r : R) (now : Timestamp) :
    (∃ l, (x.insert resolve o r now).result = .ok ⟨true, l⟩) ↔
      o.name ≠ .root ∧ (∀ c ∈ o.name.components, c.isEmpty = false) ∧
        ∀ s ∈ x.root.contents o.name.components, resolve s ≠ some o := by
  have hseek : (∀ s ∈ x.root.contents o.name.components, resolve s ≠ some o) ↔
      (seekEqual resolve o (x.root.contents o.name.components)).2 = false := by
    rw [← Bool.not_eq_true, seekEqual_iff]
    simp
  rw [insert_result hx, hseek, Ne, ← Name.isRoot_iff]
  split
  next hall => simpa using fun _ _ => hall
  next hempty => simp [hempty]

theorem accepts_iff : x.accepts resolve o r now = true ↔
    ∃ l, (x.insert resolve o r now).result = .ok ⟨true, l⟩ := by
  rw [accepts]
  cases (x.insert resolve o r now).result with
  | error v => simp
  | ok a => cases a; simp

end Index

namespace History

theorem Recorded.lookup_eq {h : History R} (hh : h.Recorded) (n : Name) :
    h.index.lookup n =
      .ok (if h.storedAt n = [] then none else some ((h.storedAt n).map (·.ref))) := by
  rw [Index.lookup_eq hh.root, hh.contents]
  simp only [List.map_eq_nil_iff]

theorem name_of_mem_stored (selector : Selector) (ops : List (Operation R)) :
    ∀ e ∈ (run selector ops).stored, e.content.name ≠ .root := by
  have hstep (h : History R) (hh : h.Recorded) (hstored : ∀ e ∈ h.stored, e.content.name ≠ .root)
      (op : Operation R) : ∀ e ∈ (h.step op).stored, e.content.name ≠ .root := by
    cases op with
    | insert resolve o r now =>
      intro e he
      rcases mem_stored_insert.mp he with hold | ⟨haccepts, rfl⟩
      · exact hstored e hold
      · exact ((Index.insert_accepted_iff hh.wellFormed resolve o r now).mp
          (Index.accepts_iff.mp haccepts)).1
    | enumerate i responder => exact hstored
    | get resolve i => exact hstored
  exact run_induction (P := fun h => ∀ e ∈ h.stored, e.content.name ≠ .root) (by simp [start])
    hstep ops

theorem storedAt_root (selector : Selector) (ops : List (Operation R)) :
    (run selector ops).storedAt .root = [] := by
  rw [storedAt, List.filter_eq_nil_iff]
  intro e he
  simpa using name_of_mem_stored selector ops e he

/-- After every run the lookup of a name yields the references that were accepted under it, in the
order of insertion, and nothing where there are none. The root never has any. -/
theorem lookup_run (selector : Selector) (ops : List (Operation R)) (n : Name) :
    (run selector ops).index.lookup n =
        .ok (if (run selector ops).storedAt n = [] then none
          else some (((run selector ops).storedAt n).map (·.ref))) ∧
      (run selector ops).index.lookup .root = .ok none := by
  constructor
  · exact (recorded_run selector ops).lookup_eq n
  · rw [(recorded_run selector ops).lookup_eq, if_pos (storedAt_root selector ops)]

end History

end NamedData
