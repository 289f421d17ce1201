import NamedData.Proofs.Entries
import NamedData.Proofs.Stamps
import NamedData.Proofs.Undated

namespace NamedData

variable {R : Type}

namespace Content

/-- An index can hold it: its name is not that of the root and has no empty component. -/
def Storable (o : Content) : Prop := o.name ≠ .root ∧ ∀ c ∈ o.name.components, c.isEmpty = false

instance (o : Content) : Decidable o.Storable := inferInstanceAs (Decidable (_ ∧ _))

end Content

namespace History

variable {h k : History R}

/-- What was stored under each name and which names were asked for decides on the tree. -/
theorem Recorded.undated_root_eq (hh : h.Recorded) (hk : k.Recorded)
    (hnamed : ∀ n, n ∈ h.named ↔ n ∈ k.named) (hstored : ∀ n, h.storedAt n = k.storedAt n) :
    h.index.root.undated = k.index.root.undated := by
  have hown : h.index.root.undated.component = k.index.root.undated.component :=
    hh.root.trans hk.root.symm
  apply Node.ext_state? hown hh.wellFormed.undated hk.wellFormed.undated
  intro q
  have hsome : (h.index.root.state? q).isSome ↔ (k.index.root.state? q).isSome := by
    simp only [hh.nodes, hk.nodes, List.mem_cons, hnamed]
  have hcontents : h.index.root.contents q = k.index.root.contents q := by
    rw [hh.contents ⟨q⟩, hk.contents ⟨q⟩, hstored]
  rw [Node.state?_undated, Node.state?_undated]
  cases hs : h.index.root.state? q with
  | none =>
    cases ht : k.index.root.state? q with
    | none => rfl
    | some t => simp [hs, ht] at hsome
  | some s =>
    cases ht : k.index.root.state? q with
    | none => simp [hs, ht] at hsome
    | some t =>
      have hcontent : s.content = t.content := by
        simpa [Node.contents, hs, ht] using hcontents
      simp [NodeState.undated, hcontent]

theorem undated_run_eq (selector : Selector) {ops later : List (Operation R)}
    (hnamed : ∀ n, n ∈ (run selector ops).named ↔ n ∈ (run selector later).named)
    (hstored : ∀ n, (run selector ops).storedAt n = (run selector later).storedAt n) :
    (run selector ops).index.undated = (run selector later).index.undated := by
  apply (counted_run selector ops).undated_eq (counted_run selector later)
  · exact (recorded_run selector ops).undated_root_eq (recorded_run selector later) hnamed hstored
  · rw [defaultSelector_run, defaultSelector_run]

def insertions (resolve : Resolver R) (es : List (Match R × Timestamp)) : List (Operation R) :=
  es.map fun e => .insert resolve e.1.content e.1.ref e.2

variable {resolve : Resolver R} {es : List (Match R × Timestamp)}

theorem mem_named_insertions {selector : Selector} {n : Name} :
    n ∈ (run selector (insertions resolve es)).named ↔ ∃ e ∈ es.map (·.1), e.content.name = n := by
  rw [mem_named_run]
  simp only [insertions, List.mem_map]
  constructor
  · intro hn
    obtain ⟨_, o, r, now, ⟨e, he, hop⟩, hname⟩ := hn
    cases hop
    exact ⟨e.1, ⟨e, he, rfl⟩, hname⟩
  · intro hn
    obtain ⟨_, ⟨e, he, rfl⟩, hname⟩ := hn
    exact ⟨resolve, _, _, _, ⟨e, he, rfl⟩, hname⟩

/-- A content under a new name is accepted if an index can hold it. -/
theorem Recorded.accepts_iff_of_new (hh : h.Recorded) (resolve : Resolver R) {o : Content}
    (hnew : h.storedAt o.name = []) (r : R) (now : Timestamp) :
    h.index.accepts resolve o r now = true ↔ o.Storable := by
  have hcontents := hh.contents o.name
  rw [hnew, List.map_nil] at hcontents
  rw [Index.accepts_iff, Index.insert_accepted_iff hh.wellFormed, hcontents, Content.Storable]
  simp

theorem Recorded.stored_insertions (hh : h.Recorded)
    (hdistinct : ((es.map (·.1)).map (·.content.name)).Nodup)
    (hnew : ∀ e ∈ es, h.storedAt e.1.content.name = []) :
    ((insertions resolve es).foldl History.step h).stored =
      h.stored ++ (es.map (·.1)).filter fun e => e.content.Storable := by
  induction es generalizing h with
  | nil => simp [insertions]
  | cons e es ih =>
    obtain ⟨hfirst, hrest⟩ := List.nodup_cons.mp hdistinct
    have haccepts := hh.accepts_iff_of_new resolve (hnew e (by simp)) e.1.ref e.2
    have hstored : (h.step (.insert resolve e.1.content e.1.ref e.2)).stored =
        h.stored ++ if e.1.content.Storable then [e.1] else [] := by
      rw [History.step]
      by_cases hs : e.1.content.Storable
      · simp [haccepts.mpr hs, hs]
      · simp [haccepts, hs]
    have hlater : ∀ d ∈ es,
        (h.step (.insert resolve e.1.content e.1.ref e.2)).storedAt d.1.content.name = [] := by
      intro d hd
      have hne : e.1.content.name ≠ d.1.content.name := by
        intro heq
        exact hfirst (List.mem_map.mpr ⟨d.1, List.mem_map_of_mem hd, heq.symm⟩)
      have hold := hnew d (List.mem_cons_of_mem _ hd)
      rw [storedAt] at hold ⊢
      rw [hstored, List.filter_append, hold]
      split <;> simp [hne]
    have hfold := ih (hh.step _) hrest hlater
    rw [insertions, List.map_cons, List.foldl_cons]
    refine hfold.trans ?_
    rw [hstored, List.map_cons, List.filter_cons, List.append_assoc]
    split <;> simp_all

theorem stored_run_insertions (selector : Selector)
    (hdistinct : ((es.map (·.1)).map (·.content.name)).Nodup) :
    (run selector (insertions resolve es)).stored =
      (es.map (·.1)).filter fun e => e.content.Storable :=
  (recorded_start selector).stored_insertions hdistinct fun _ _ => rfl

theorem filter_eq_of_perm {es fs : List (Match R)} (hperm : es.Perm fs)
    (hdistinct : (es.map (·.content.name)).Nodup) (n : Name) :
    (es.filter fun e => e.content.name = n) = fs.filter fun e => e.content.name = n := by
  have hfilter : (es.filter fun e => e.content.name = n).Perm
      (fs.filter fun e => e.content.name = n) := hperm.filter _
  have hpairs : (es.filter fun e => e.content.name = n).Pairwise
      fun a b => a.content.name ≠ b.content.name := (List.pairwise_map.mp hdistinct).filter _
  have hname : ∀ e ∈ es.filter fun e => e.content.name = n, e.content.name = n := by
    intro e he
    simpa using (List.mem_filter.mp he).2
  cases hes : es.filter fun e => e.content.name = n with
  | nil =>
    rw [hes] at hfilter
    exact (List.nil_perm.mp hfilter).symm
  | cons e rest =>
    rw [hes] at hfilter hpairs hname
    cases rest with
    | nil => exact List.singleton_perm.mp hfilter
    | cons d rest =>
      have hne := (List.pairwise_cons.mp hpairs).1 d (by simp)
      exact absurd ((hname e (by simp)).trans (hname d (by simp)).symm) hne

/-- An insertion leaves a request only where one has been waiting. -/
theorem pending_insertions (selector : Selector) (n : Name) :
    ((run selector (insertions resolve es)).index.stateAt n).pending = false := by
  have hnone : ∀ t ∈ (start selector).turns n (insertions resolve es), t ≠ .deferred := by
    generalize start selector = h
    induction es generalizing h with
    | nil => simp [insertions, turns]
    | cons e es ih =>
      intro t ht
      rw [insertions, List.map_cons, turns, List.mem_append] at ht
      rcases ht with ht | ht
      · rw [Index.turn?] at ht
        split at ht <;> simp at ht
        simp [ht]
      · exact ih _ t ht
  rw [← Bool.not_eq_true, pending_run_iff]
  intro hlast
  exact hnone _ (List.mem_of_getLast? hlast) rfl

theorem lastModified_of_times (selector : Selector) {ops : List (Operation R)} {t : Timestamp}
    (ht : ∀ u ∈ times ops, u = t) (n : Name) :
    ((run selector ops).index.stateAt n).lastModified =
      if (run selector ops).index.childrenAt n = [] then .epoch else t := by
  have hgained : ∀ u ∈ (start selector : History R).gainTimes n ops, u = t := by
    intro u hu
    rw [gainTimes_eq] at hu
    exact ht u ((times_turns _ n ops).subset hu)
  have hchildren := (recorded_start selector : (start selector : History R).Recorded)
    |>.childrenAt_foldl_eq_nil_iff n ops
  have hnone : (start selector : History R).index.childrenAt n = [] := by
    cases n with
    | mk q => cases q <;> rfl
  rw [lastModified_eq, run]
  simp only [hchildren, hnone, true_and]
  cases hlast : ((start selector : History R).gainTimes n ops).getLast? with
  | none => simp [List.getLast?_eq_none_iff.mp hlast]
  | some u =>
    have hu := List.mem_of_getLast? hlast
    rw [if_neg (List.ne_nil_of_mem hu), hgained u hu]
    rfl

variable {as bs : List (Match R × Timestamp)}

theorem undated_insertions_perm (selector : Selector) (resolve : Resolver R)
    (hperm : (as.map (·.1)).Perm (bs.map (·.1)))
    (hdistinct : ((as.map (·.1)).map (·.content.name)).Nodup) :
    (run selector (insertions resolve as)).index.undated =
      (run selector (insertions resolve bs)).index.undated := by
  have hdistinct' := (hperm.map (·.content.name)).nodup_iff.mp hdistinct
  apply undated_run_eq
  · intro n
    simp only [mem_named_insertions, hperm.mem_iff]
  · intro n
    rw [storedAt, storedAt, stored_run_insertions selector hdistinct,
      stored_run_insertions selector hdistinct', List.filter_comm,
      filter_eq_of_perm hperm hdistinct n, List.filter_comm]

theorem standing_insertions (selector : Selector) (resolve : Resolver R) {t : Timestamp}
    (ht : ∀ e ∈ es, e.2 = t) (n : Name) :
    (run selector (insertions resolve es)).index.standing n =
      (if (run selector (insertions resolve es)).index.childrenAt n = [] then .epoch else t,
        false) := by
  have htimes : ∀ u ∈ times (insertions resolve es), u = t := by
    intro u hu
    simp only [times, insertions, List.filterMap_map, List.mem_filterMap] at hu
    obtain ⟨e, he, hop⟩ := hu
    exact (Option.some.inj hop).symm.trans (ht e he)
  rw [Index.standing, lastModified_of_times selector htimes, pending_insertions]

/-- References to contents with distinct names lead to the same tree in whatever order and at whatever
times they are inserted: the same names with the same references, and so the same counts and the same
answers to every Interest. If all times are the same, the indexes are. -/
theorem insertions_perm (selector : Selector) (resolve : Resolver R)
    (hperm : (as.map (·.1)).Perm (bs.map (·.1)))
    (hdistinct : ((as.map (·.1)).map (·.content.name)).Nodup) :
    let x := (run selector (insertions resolve as)).index
    let y := (run selector (insertions resolve bs)).index
    (x.root.walk.map (fun e => (e.1, e.2.state.content)) =
        y.root.walk.map fun e => (e.1, e.2.state.content)) ∧
    x.objects = y.objects ∧ x.nodes = y.nodes ∧
    (∀ find i, (x.get find i).result = (y.get find i).result ∧
      (x.get find i).events = (y.get find i).events) ∧
    (∀ n d find i s, (x.node? n d).map (fun m => m.search find i s) =
      (y.node? n d).map fun m => m.search find i s) ∧
    ∀ t, (∀ e ∈ as ++ bs, e.2 = t) → x = y := by
  intro x y
  have hundated : x.undated = y.undated := undated_insertions_perm selector resolve hperm hdistinct
  refine ⟨?_, (congrArg Index.objects hundated :), (congrArg Index.nodes hundated :), ?_, ?_, ?_⟩
  · have hwalk := congrArg (fun z : Index R => z.root.walk.map fun e => (e.1, e.2.state.content))
      hundated
    simpa [Index.undated, Node.walk_undated, Function.comp_def] using hwalk
  · intro find i
    have hscan : x.scan find i = y.scan find i := by
      rw [← Index.scan_undated x, hundated, Index.scan_undated]
    have hselector : x.defaultSelector = y.defaultSelector :=
      (congrArg Index.defaultSelector hundated :)
    simp [Index.get, Index.scanEvents, Index.searchLabel, Index.selector, hscan, hselector]
  · intro n d find i s
    have hnode := congrArg (fun z : Index R => (z.node? n d).map fun m => m.search find i s) hundated
    simpa [Index.node?_undated, Option.map_map, Function.comp_def, Node.search_undated] using hnode
  · intro t ht
    have hchildren (n : Name) : x.childrenAt n = y.childrenAt n := by
      have hbranches := congrArg (fun z : Index R => z.root.branches n.components) hundated
      simpa [Index.undated, Node.branches_undated, Index.childrenAt] using hbranches
    apply Index.eq_of_undated_eq (recorded_run selector _).wellFormed
      (recorded_run selector _).wellFormed hundated
    intro n
    calc x.standing n
        = (if x.childrenAt n = [] then .epoch else t, false) :=
          standing_insertions selector resolve (fun e he => ht e (List.mem_append_left _ he)) n
      _ = (if y.childrenAt n = [] then .epoch else t, false) := by rw [hchildren]
      _ = y.standing n :=
          (standing_insertions selector resolve (fun e he => ht e (List.mem_append_right _ he)) n).symm

def nested (t : Timestamp) : List (Match Nat × Timestamp) :=
  [(⟨1, .blank nameA⟩, t), (⟨2, .blank (nameA.push ⟨[98]⟩)⟩, t)]

/-- The indexes differ in when the root has gained its child, and in nothing that is found. -/
theorem insertions_perm_nested :
    let x := (run .leftmost (insertions (fun _ => none) (nested ⟨5⟩))).index
    let y := (run .leftmost (insertions (fun _ => none) (nested ⟨7⟩).reverse)).index
    x ≠ y ∧ x.nodes = 3 ∧ y.nodes = 3 ∧
      ∀ find i, (x.get find i).result = (y.get find i).result := by
  intro x y
  have hperm : ((nested ⟨5⟩).map (·.1)).Perm ((nested ⟨7⟩).reverse.map (·.1)) := by decide
  obtain ⟨_, _, hnodes, hget, _⟩ :=
    insertions_perm .leftmost (fun _ => none) hperm (by decide)
  have hx : x.nodes = 3 := by decide
  refine ⟨?_, hx, hnodes.symm.trans hx, fun find i => (hget find i).1⟩
  intro heq
  have htimes := congrArg (fun z : Index Nat => (z.stateAt .root).lastModified) heq
  revert htimes
  decide

end History

end NamedData
