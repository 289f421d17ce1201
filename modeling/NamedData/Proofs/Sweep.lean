import Mathlib.Data.Set.Finite.Basic
import NamedData.Proofs.Canonical
import NamedData.Proofs.Versions

namespace NamedData

variable {R : Type} {resolve : Resolver R} {i : Interest} {last : Option Component}

def Component.After (c : Component) (last : Option Component) : Prop := ∀ b ∈ last, b < c

instance (c : Component) (last : Option Component) : Decidable (c.After last) :=
  inferInstanceAs (Decidable (∀ b ∈ last, b < c))

namespace Interest

/-- The Interest in the course of a sweep: without an exclusion at first, and then without anything
up to the last component that was seen. -/
def after (i : Interest) (last : Option Component) : Interest :=
  { i with exclusion := last.map .anyUpTo }

theorem excludes_after (i : Interest) (last : Option Component) (c : Component) :
    (i.after last).excludes c = .ok (!decide (c.After last)) := by
  cases last with
  | none => simp [excludes, after, Component.After]
  | some b => simp [excludes, after, Component.After, Exclusion.excludes_anyUpTo]

theorem wellFormed_after (i : Interest) (last : Option Component) : (i.after last).WellFormed := by
  cases last with
  | none => simp [WellFormed, after]
  | some b =>
    have hone : (Exclusion.anyUpTo b).WellFormed := List.pairwise_singleton _ _
    simpa [WellFormed, after] using hone

theorem settled_after (i : Interest) (last : Option Component) : (i.after last).Settled :=
  Or.inr fun c _ => ⟨_, i.excludes_after last c⟩

/-- Below the name, what was seen is all that a step of a sweep leaves out. -/
theorem matchesContent_after {o : Content} {c : Component} {q : List Component}
    (ho : o.name = i.name ++ ⟨c :: q⟩) :
    (i.after last).matchesContent o = .ok true ↔
      (i.after none).matchesContent o = .ok true ∧ c.After last := by
  have hmatch (last : Option Component) : (i.after last).matchesContent o =
      if i.withinMax (q.length+1) = true ∧ i.withinMin (q.length+1) = true then
        .ok (decide (c.After last) && i.accepts (some o.publisher))
      else .ok false := by
    have hsuffix : (i.after last).suffix o (c :: q) = c :: q := by simp [suffix]
    rw [matchesContent_eq (i := i.after last) ho, List.length_cons, suffixCount_succ, hsuffix,
      excludesHead, excludes_after]
    simp only [Except.map, Bool.not_not]
    rfl
  have hall : c.After none := by simp [Component.After]
  rw [hmatch last, hmatch none]
  split
  · simp [hall, and_comm]
  · simp

end Interest

theorem Name.push_isPrefixOf_iff {n m : Name} {c : Component} :
    (n.push c).isPrefixOf m = true ↔ ∃ q, m = n ++ ⟨c :: q⟩ := by
  rw [isPrefixOf_iff]
  constructor
  · intro h
    obtain ⟨p, rfl⟩ := h
    exact ⟨p.components, eq_of_components (List.append_assoc _ _ _)⟩
  · intro h
    obtain ⟨q, rfl⟩ := h
    exact ⟨⟨q⟩, eq_of_components (List.append_cons _ _ _)⟩

/-- A sweep from the last component that was seen: each search is for what comes after it, until
nothing is found. The components that follow the name in the answers are what the sweep sees. -/
inductive Node.Sweep (n : Node R) (resolve : Resolver R) (i : Interest) :
    Option Component → List Component → Prop
  | done {last : Option Component} :
      (n.leftmost resolve (i.after last)).result = .ok none → Sweep n resolve i last []
  | next {last : Option Component} {e : Match R} {c : Component} {cs : List Component} :
      (n.leftmost resolve (i.after last)).result = .ok (some e) →
      e.content.name.get? i.name.length = some c →
      Sweep n resolve i (some c) cs → Sweep n resolve i last (c :: cs)

theorem Node.Sweep.unique {n : Node R} {cs ds : List Component} (hcs : n.Sweep resolve i last cs)
    (hds : n.Sweep resolve i last ds) : cs = ds := by
  induction hcs generalizing ds with
  | done hnone =>
    cases hds with
    | done _ => rfl
    | next hsome _ _ => cases hnone.symm.trans hsome
  | next hsome hc _ ih =>
    cases hds with
    | done hnone => cases hnone.symm.trans hsome
    | next hsome' hc' hrest =>
      cases Except.ok.inj (hsome.symm.trans hsome')
      cases hc.symm.trans hc'
      rw [ih hrest]

namespace History

variable {h : History R} {n : Node R}

/-- The component follows the Interest's name in a live content that answers the Interest, whatever
its exclusion is. -/
def Offers (h : History R) (resolve : Resolver R) (i : Interest) (c : Component) : Prop :=
  ∃ e ∈ h.stored, (i.after none).Answers resolve e ∧ (i.name.push c).isPrefixOf e.content.name = true

theorem answersBelow_after_iff (last : Option Component) {e : Match R}
    (he : e.content.name = i.name → resolve e.ref ≠ some e.content) :
    (i.after last).AnswersBelow resolve e ↔
      ∃ c, (i.name.push c).isPrefixOf e.content.name = true ∧ (i.after none).Answers resolve e ∧
        c.After last := by
  constructor
  · intro ha
    obtain ⟨hbelow, hlive, hmatch⟩ := ha
    obtain ⟨⟨p⟩, hp⟩ := Name.isPrefixOf_iff.mp hbelow
    cases p with
    | nil => exact absurd hlive (he (hp.trans (Name.append_root i.name)))
    | cons c q =>
      have hseen := (Interest.matchesContent_after hp).mp hmatch
      exact ⟨c, Name.push_isPrefixOf_iff.mpr ⟨q, hp⟩, ⟨hlive, hseen.1⟩, hseen.2⟩
  · intro ha
    obtain ⟨c, hc, ⟨hlive, hmatch⟩, hafter⟩ := ha
    obtain ⟨q, hq⟩ := Name.push_isPrefixOf_iff.mp hc
    refine ⟨Name.isPrefixOf_iff.mpr ⟨_, hq⟩, hlive, ?_⟩
    exact (Interest.matchesContent_after hq).mpr ⟨hmatch, hafter⟩

/-- A step of a sweep finds nothing if no more components are offered, and else leads to the least
of those that come after the last one. -/
theorem Recorded.leftmost_after (hh : h.Recorded) (hf : h.Faithful resolve)
    (hn : h.index.root.descend? i.name.components = some n)
    (hno : ∀ e ∈ h.stored, e.content.name = i.name → resolve e.ref ≠ some e.content)
    (last : Option Component) :
    ∃ found, (n.leftmost resolve (i.after last)).result = .ok found ∧
      (found = none → ∀ c, h.Offers resolve i c → ¬c.After last) ∧
      ∀ e, found = some e → ∃ c, e.content.name.get? i.name.length = some c ∧
        h.Offers resolve i c ∧ c.After last ∧
        ∀ d, h.Offers resolve i d → d.After last → c ≤ d := by
  have hbelow (e : Match R) (he : e ∈ h.stored) := answersBelow_after_iff last (hno e he)
  obtain ⟨found, hfound, hnone, hsome⟩ := hh.leftmost_selects (i := i.after last) hf
    (i.wellFormed_after last) (i.settled_after last) hn
  refine ⟨found, hfound, ?_, ?_⟩
  · intro hnothing c hoffer hafter
    obtain ⟨e, he, hanswers, hc⟩ := hoffer
    exact hnone.mp hnothing e he ((hbelow e he).mpr ⟨c, hc, hanswers, hafter⟩)
  · intro e he
    have hleast := hsome e he
    obtain ⟨c, hc, hanswers, hafter⟩ := (hbelow e hleast.mem).mp hleast.1
    obtain ⟨q, hq⟩ := Name.push_isPrefixOf_iff.mp hc
    refine ⟨c, ?_, ⟨e, hleast.mem, hanswers, hc⟩, hafter, ?_⟩
    · simp [hq, Name.get?, Name.length]
    · intro d hoffer hafterd
      obtain ⟨a, ha, hanswersa, hd⟩ := hoffer
      obtain ⟨r, hr⟩ := Name.push_isPrefixOf_iff.mp hd
      -- a lesser component would make a lesser name, and the search would have gone there
      by_contra hlt
      have hname : a.content.name < e.content.name := by
        rw [hq, hr]
        exact append_cons_lt i.name.components (not_le.mp hlt) r q
      exact absurd (hleast.name_le ha ((hbelow a ha).mpr ⟨d, hd, hanswersa, hafterd⟩)) hname.not_ge

/-- What a sweep sees from some component on are the components on offer that come after it. -/
theorem Recorded.exists_sweep (hh : h.Recorded) (hf : h.Faithful resolve)
    (hn : h.index.root.descend? i.name.components = some n)
    (hno : ∀ e ∈ h.stored, e.content.name = i.name → resolve e.ref ≠ some e.content)
    (offered : Finset Component) (hoffered : ∀ c, c ∈ offered ↔ h.Offers resolve i c)
    (last : Option Component) :
    ∃ cs, n.Sweep resolve i last cs ∧ cs.Pairwise (· < ·) ∧
      ∀ c, c ∈ cs ↔ h.Offers resolve i c ∧ c.After last := by
  generalize hleft : (offered.filter fun c => c.After last).card = left
  induction left using Nat.strong_induction_on generalizing last with
  | _ left ih =>
    obtain ⟨found, hfound, hnone, hsome⟩ := hh.leftmost_after hf hn hno last
    cases found with
    | none =>
      refine ⟨[], .done hfound, List.Pairwise.nil, ?_⟩
      intro c
      simpa using hnone rfl c
    | some e =>
      obtain ⟨c, hc, hoffer, hafter, hleast⟩ := hsome e rfl
      have hiff (d : Component) : h.Offers resolve i d ∧ d.After last ↔
          d = c ∨ h.Offers resolve i d ∧ c < d := by
        constructor
        · intro hd
          rcases (hleast d hd.1 hd.2).eq_or_lt with heq | hlt
          · exact Or.inl heq.symm
          · exact Or.inr ⟨hd.1, hlt⟩
        · intro hd
          rcases hd with rfl | ⟨hd, hlt⟩
          · exact ⟨hoffer, hafter⟩
          · exact ⟨hd, fun b hb => (hafter b hb).trans hlt⟩
      have hnext (d : Component) : d.After (some c) ↔ c < d := by simp [Component.After]
      have hfewer : (offered.filter fun d => d.After (some c)).card < left := by
        rw [← hleft]
        apply Finset.card_lt_card
        rw [Finset.ssubset_iff_of_subset]
        · exact ⟨c, by simp [hoffered, hoffer, hafter], by simp [hnext]⟩
        · intro d hd
          rw [Finset.mem_filter, hoffered, hnext] at hd
          rw [Finset.mem_filter, hoffered]
          exact (hiff d).mpr (Or.inr hd)
      obtain ⟨cs, hsweep, hascend, hmem⟩ := ih _ hfewer (some c) rfl
      refine ⟨c :: cs, .next hfound hc hsweep, List.pairwise_cons.mpr ⟨?_, hascend⟩, ?_⟩
      · intro d hd
        exact (hnext d).mp ((hmem d).mp hd).2
      · intro d
        rw [List.mem_cons, hmem, hnext, hiff]

theorem finite_offers (h : History R) (resolve : Resolver R) (i : Interest) :
    {c | h.Offers resolve i c}.Finite := by
  apply (h.stored.filterMap fun e => e.content.name.get? i.name.length).toFinset.finite_toSet.subset
  intro c hoffer
  obtain ⟨e, he, _, hc⟩ := hoffer
  obtain ⟨q, hq⟩ := Name.push_isPrefixOf_iff.mp hc
  simp only [List.coe_toFinset, Set.mem_ofPred_eq, List.mem_filterMap]
  exact ⟨e, he, by simp [hq, Name.get?, Name.length]⟩

/-- In every index that a run can build, a sweep below a name under which nothing live is stored
comes to an end. There is one way it goes, and it sees the components that follow the name in live
contents that answer the Interest, each once and in ascending order. -/
theorem sweep_run (selector : Selector) (ops : List (Operation R)) (resolve : Resolver R)
    (i : Interest) (n : Node R) (hf : (run selector ops).Faithful resolve)
    (hn : (run selector ops).index.node? i.name i.name.length = some n)
    (hno : ∀ e ∈ (run selector ops).stored, e.content.name = i.name →
      resolve e.ref ≠ some e.content) :
    ∃ cs, (∀ ds, n.Sweep resolve i none ds ↔ ds = cs) ∧ cs.Pairwise (· < ·) ∧
      ∀ c, c ∈ cs ↔ (run selector ops).Offers resolve i c := by
  have hh := recorded_run selector ops
  have hfinite := finite_offers (run selector ops) resolve i
  rw [Index.node?_length] at hn
  obtain ⟨cs, hsweep, hascend, hmem⟩ := hh.exists_sweep hf hn hno hfinite.toFinset (by simp) none
  refine ⟨cs, ?_, hascend, ?_⟩
  · intro ds
    constructor
    · intro hds
      exact hds.unique hsweep
    · intro hds
      exact hds ▸ hsweep
  · intro c
    rw [hmem]
    simp [Component.After]

/-- Contents below the name a: a child, a grandchild, and a child that is not live any more. -/
def contentsA : List Content :=
  [[⟨[98]⟩], [⟨[99]⟩, ⟨[100]⟩], [⟨[101]⟩]].map fun q => .blank ⟨⟨[97]⟩ :: q⟩

def resolveA : Resolver Content := fun o => if o.name.get? 1 = some ⟨[101]⟩ then none else some o

/-- A sweep sees the child and then the parent of the grandchild. -/
theorem sweep_run_contentsA :
    let h := run .leftmost (contentsA.map fun o => .insert some o o .epoch)
    h.Faithful resolveA ∧ ∃ n, h.index.node? ⟨[⟨[97]⟩]⟩ 1 = some n ∧
      (∀ e ∈ h.stored, e.content.name = ⟨[⟨[97]⟩]⟩ → resolveA e.ref ≠ some e.content) ∧
      ∀ cs, n.Sweep resolveA (.ofName ⟨[⟨[97]⟩]⟩) none cs ↔ cs = [⟨[98]⟩, ⟨[99]⟩] := by
  intro h
  have hf : ∀ e ∈ h.stored, resolveA e.ref = none ∨ resolveA e.ref = some e.content := by decide
  have hno : ∀ e ∈ h.stored, e.content.name = ⟨[⟨[97]⟩]⟩ → resolveA e.ref ≠ some e.content := by
    decide
  obtain ⟨cs, hall, _⟩ := sweep_run .leftmost _ resolveA (.ofName ⟨[⟨[97]⟩]⟩) _ hf rfl hno
  refine ⟨hf, _, rfl, hno, ?_⟩
  have hsweep : [⟨[98]⟩, ⟨[99]⟩] = cs := by
    rw [← hall]
    exact .next rfl rfl (.next rfl rfl (.done rfl))
  intro ds
  rw [hall, hsweep]

end History

end NamedData
