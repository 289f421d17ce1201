import NamedData.Proofs.Polling

namespace NamedData

variable {R : Type}

namespace History

variable {h : History R} {n : Name} {op : Operation R}

def gainTimes (h : History R) (n : Name) : List (Operation R) → List Timestamp
  | [] => []
  | op :: ops =>
    (if h.index.Gains (h.step op).index n then op.time?.toList else []) ++ (h.step op).gainTimes n ops

theorem gainTimes_eq (h : History R) (n : Name) (ops : List (Operation R)) :
    h.gainTimes n ops = (h.turns n ops).filterMap Turn.time? := by
  induction ops generalizing h with
  | nil => rfl
  | cons op ops ih =>
    have hop : (if h.index.Gains (h.step op).index n then op.time?.toList else []) =
        (h.index.turn? n op).toList.filterMap Turn.time? := by
      cases op with
      | insert resolve o r now =>
        by_cases hgains : h.index.Gains (h.index.insert resolve o r now).index n <;>
          simp [step, Index.turn?, hgains, Operation.time?, Turn.time?]
      | enumerate i responder =>
        have hnone : ∀ t ∈ h.index.turn? n (.enumerate i responder), t.time? = none := by
          intro t ht
          rw [Index.turn?] at ht
          split at ht
          · split at ht <;> cases ht <;> rfl
          · cases ht
        cases ht : h.index.turn? n (.enumerate i responder) with
        | none => simp [Operation.time?]
        | some t => simp [Operation.time?, hnone t ht]
      | get resolve i => simp [Operation.time?, Index.turn?]
    rw [gainTimes, turns, List.filterMap_append, hop, ih]

theorem Recorded.childrenAt_subset (hh : h.Recorded) (n : Name) (op : Operation R) :
    h.index.childrenAt n ⊆ (h.step op).index.childrenAt n := by
  intro c hc
  cases op with
  | insert resolve o r now =>
    rw [Index.childrenAt, Node.mem_branches_iff] at hc ⊢
    exact (Index.isSome_insert hh.wellFormed _).mpr (Or.inl hc)
  | enumerate i responder =>
    rcases h.index.enumerate_index i responder with hi | ⟨k, pending, hi⟩
    · rwa [History.step, hi]
    · rwa [History.step, hi, Index.childrenAt_setPending hh.wellFormed]
  | get resolve i => exact hc

/-- Only an insertion can give a node a child: one of a longer name, whose next component leads to
no node yet. So it is no duplicate. -/
theorem Recorded.exists_insert_of_gains (hh : h.Recorded)
    (hgains : h.index.Gains (h.step op).index n) :
    ∃ resolve o r now c, op = .insert resolve o r now ∧ c ∈ (h.step op).index.childrenAt n ∧
      c ∉ h.index.childrenAt n ∧ (n.push c).isPrefixOf o.name = true ∧
      ∀ l, (h.index.insert resolve o r now).result ≠ .ok ⟨false, l⟩ := by
  obtain ⟨c, hc, hno⟩ := hgains
  cases op with
  | insert resolve o r now =>
    have hsome := hc
    rw [History.step, Index.childrenAt, Node.mem_branches_iff, Index.isSome_insert hh.wellFormed,
      ← Node.mem_branches_iff] at hsome
    have hreach : Node.Reaches o.name.components (n.components ++ [c]) := hsome.resolve_left hno
    obtain ⟨q, hq⟩ := hreach.1
    refine ⟨resolve, o, r, now, c, rfl, hc, hno, List.isPrefixOf_iff_prefix.mpr hreach.1, ?_⟩
    intro l hl
    rcases (Index.insert_refused_iff hh.wellFormed resolve o r now).mp ⟨l, hl⟩ with hroot | ⟨s, hs, _⟩
    · rw [hroot] at hq
      simp at hq
    · apply hno
      rw [Index.childrenAt, Node.mem_branches_iff, Node.state?, Option.isSome_map]
      rw [Node.contents, Node.state?, ← hq, Node.descend?_append] at hs
      cases hm : h.index.root.descend? (n.components ++ [c]) with
      | none => simp [hm] at hs
      | some m => rfl
  | enumerate i responder =>
    rcases h.index.enumerate_index i responder with hi | ⟨k, pending, hi⟩
    · rw [History.step, hi] at hc
      exact absurd hc hno
    · rw [History.step, hi, Index.childrenAt_setPending hh.wellFormed] at hc
      exact absurd hc hno
  | get resolve i => exact absurd hc hno

/-- An operation that gives a node a child leaves its time there; any other leaves the time as it
is. -/
theorem Recorded.lastModified_step (hh : h.Recorded) (n : Name) (op : Operation R) :
    ((h.step op).index.stateAt n).lastModified =
      if h.index.Gains (h.step op).index n then op.time?.getD .epoch
      else (h.index.stateAt n).lastModified := by
  have hone := hh.lastModified_foldl n [op]
  rw [← gainTimes_eq, gainTimes, gainTimes, List.append_nil] at hone
  refine hone.trans ?_
  by_cases hgains : h.index.Gains (h.step op).index n
  · obtain ⟨resolve, o, r, now, c, rfl, _⟩ := hh.exists_insert_of_gains hgains
    simp [hgains, Operation.time?]
  · simp [hgains]

theorem Recorded.childrenAt_foldl_eq_nil_iff (hh : h.Recorded) (n : Name)
    (ops : List (Operation R)) :
    (ops.foldl History.step h).index.childrenAt n = [] ↔
      h.index.childrenAt n = [] ∧ h.gainTimes n ops = [] := by
  induction ops generalizing h with
  | nil => simp [gainTimes]
  | cons op ops ih =>
    have hstep : (h.step op).index.childrenAt n = [] ↔
        h.index.childrenAt n = [] ∧ ¬h.index.Gains (h.step op).index n := by
      constructor
      · intro hnil
        have hsubset := hh.childrenAt_subset n op
        rw [hnil] at hsubset
        exact ⟨List.subset_nil.mp hsubset, by simp [Index.Gains, hnil]⟩
      · intro hnil
        rw [List.eq_nil_iff_forall_not_mem]
        intro c hc
        exact hnil.2 ⟨c, hc, by simp [hnil.1]⟩
    have htime : (if h.index.Gains (h.step op).index n then op.time?.toList else []) = [] ↔
        ¬h.index.Gains (h.step op).index n := by
      by_cases hgains : h.index.Gains (h.step op).index n
      · obtain ⟨resolve, o, r, now, c, rfl, _⟩ := hh.exists_insert_of_gains hgains
        simp [hgains, Operation.time?]
      · simp [hgains]
    rw [List.foldl_cons, ih (hh.step op), gainTimes, List.append_eq_nil_iff, hstep, htime, and_assoc]

theorem lastModified_eq (selector : Selector) (ops : List (Operation R)) (n : Name) :
    ((run selector ops).index.stateAt n).lastModified =
      ((start selector).gainTimes n ops).getLast?.getD .epoch := by
  have hfoldl := (recorded_start selector : (start selector : History R).Recorded).lastModified_foldl
    n ops
  have hstart := congrArg Prod.fst (standing_start (R := R) selector n)
  rw [← gainTimes_eq] at hfoldl
  exact hfoldl.trans (congrArg _ hstart)

/-- After every run a node carries the time of the last insertion that gave it a child, and the epoch
if there was none. From then on only an insertion that creates a child of the node can move the time,
and a listing of the node has the time that the node carries when it is taken. -/
theorem lastModified_run (selector : Selector) (ops : List (Operation R)) (n : Name) :
    let h := run selector ops
    let gained := (start selector).gainTimes n ops
    (h.index.stateAt n).lastModified = gained.getLast?.getD .epoch ∧
    ((h.index.stateAt n).lastModified = .epoch ↔ gained = [] ∨ gained.getLast? = some .epoch) ∧
    ∀ op, let y := (h.step op).index
      ((y.stateAt n).lastModified ≠ (h.index.stateAt n).lastModified →
        ∃ resolve o r now c, op = .insert resolve o r now ∧ c ∈ y.childrenAt n ∧
          c ∉ h.index.childrenAt n ∧ (n.push c).isPrefixOf o.name = true ∧
          ∀ l, (h.index.insert resolve o r now).result ≠ .ok ⟨false, l⟩) ∧
      ∀ l, h.index.listing? op = some l → l.name = n.push .enumeration →
        l.version = (y.stateAt n).lastModified := by
  intro h gained
  have hh : h.Recorded := recorded_run selector ops
  have hlast : (h.index.stateAt n).lastModified = gained.getLast?.getD .epoch :=
    lastModified_eq selector ops n
  refine ⟨hlast, ?_, ?_⟩
  · rw [hlast]
    cases htime : gained.getLast? with
    | none => simp [List.getLast?_eq_none_iff.mp htime]
    | some t =>
      have hne : gained ≠ [] := by
        intro hnil
        simp [hnil] at htime
      simp [hne]
  · intro op y
    constructor
    · intro hmoved
      apply hh.exists_insert_of_gains
      by_contra hno
      apply hmoved
      exact (hh.lastModified_step n op).trans (if_neg hno)
    · intro l hl hname
      exact hh.version_of_listing? hl hname

/-- The name a gains b at tick 9 and then c at tick 3. Below c something is added at tick 7. -/
def backwards : List (Operation Unit) :=
  [([⟨[98]⟩], ⟨9⟩), ([⟨[99]⟩, ⟨[100]⟩], ⟨3⟩), ([⟨[99]⟩, ⟨[101]⟩], ⟨7⟩)].map fun e =>
    .insert (fun _ => none) (.blank ⟨⟨[97]⟩ :: e.1⟩) () e.2

/-- The later gain is the one at the earlier tick, and a listing carries it. -/
theorem lastModified_run_backwards :
    ((run .leftmost backwards).index.stateAt nameA).lastModified = ⟨3⟩ ∧
    ∃ l, (run .leftmost backwards).index.listing? askA = some l ∧ l.version = ⟨3⟩ := by
  obtain ⟨hlast, _, hstep⟩ := lastModified_run .leftmost backwards nameA
  obtain ⟨hmoved, hversion⟩ := hstep askA
  have htime : ((run .leftmost backwards).index.stateAt nameA).lastModified = ⟨3⟩ :=
    hlast.trans (by decide)
  refine ⟨htime, _, rfl, ?_⟩
  rw [hversion _ rfl rfl]
  by_contra hne
  obtain ⟨_, _, _, _, _, hinsert, _⟩ := hmoved (htime.symm ▸ hne)
  cases hinsert

end History

end NamedData
