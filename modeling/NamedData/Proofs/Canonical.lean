import NamedData.Proofs.Entries
import NamedData.Proofs.Selection

namespace NamedData

variable {R : Type} {i : Interest}

def Content.blank (n : Name) : Content :=
  ⟨n, ⟨Vector.replicate 32 0⟩, .epoch, .data, []⟩

def Content.blankAC : Content := .blank ⟨[⟨[97]⟩, ⟨[99]⟩]⟩

def Content.filledAC : Content := { blankAC with payload := [1] }

def Content.blankAB : Content := .blank ⟨[⟨[97]⟩, ⟨[98]⟩]⟩

def Content.blankAD : Content := .blank ⟨[⟨[97]⟩, ⟨[100]⟩]⟩

namespace History

/-- The history of four contents below the name a, each of which is its own reference. -/
def crowd (selector : Selector) : History Content :=
  run selector
    ([.blankAD, .blankAB, .blankAC, .filledAC].map fun o => .insert some o o .epoch)

theorem stored_crowd (selector : Selector) :
    (crowd selector).stored =
      [Content.blankAD, .blankAB, .blankAC, .filledAC].map fun o => ⟨o, o⟩ := by
  cases selector <;> decide +kernel

theorem exists_node?_crowd (selector : Selector) :
    ∃ n, (crowd selector).index.node? ⟨[⟨[97]⟩]⟩ 1 = some n :=
  Option.isSome_iff_exists.mp (by cases selector <;> decide +kernel)

/-- Leads to all contents but the last one in the order of names. -/
def withoutAD : Resolver Content := fun o => if o = .blankAD then none else some o

theorem faithful_crowd (selector : Selector) : (crowd selector).Faithful withoutAD := by
  intro e he
  rw [stored_crowd] at he
  obtain ⟨o, _, rfl⟩ := List.mem_map.mp he
  by_cases ho : o = .blankAD
  · exact Or.inl (if_pos ho)
  · exact Or.inr (if_neg ho)

def ofContent (selector : Selector) (o : Content) : History Unit :=
  run selector [.insert (fun _ => none) o () .epoch]

theorem faithful_none (h : History R) : h.Faithful fun _ => none :=
  fun _ _ => Or.inl rfl

theorem not_answers_none (i : Interest) (e : Match R) : ¬i.Answers (fun _ => none) e := by
  rintro ⟨hr, _⟩
  cases hr

/-- The first insertion of a run is accepted, unless its name is empty or has an empty component. -/
theorem accepts_start (selector : Selector) (resolve : Resolver R) {o : Content} (r : R)
    (now : Timestamp) (hroot : o.name.isRoot = false)
    (ho : ∀ c ∈ o.name.components, c.isEmpty = false) :
    (start selector).index.accepts resolve o r now = true := by
  have hstart : (start selector : History R).Recorded := recorded_start selector
  have hcontents : (start selector : History R).index.root.contents o.name.components = [] :=
    hstart.contents o.name
  have hname : o.name ≠ .root := by
    intro hname
    rw [hname] at hroot
    cases hroot
  rw [Index.accepts_iff, Index.insert_accepted_iff hstart.wellFormed, hcontents]
  exact ⟨hname, ho, by simp⟩

theorem isSome_node?_ofContent (selector : Selector) {o : Content} {n : Name}
    (ho : ∀ c ∈ o.name.components, c.isEmpty = false) (hn : n.isPrefixOf o.name = true) :
    ((ofContent selector o).index.node? n n.length).isSome := by
  have hrec : (ofContent selector o).Recorded := recorded_run selector _
  have hbegins := List.isPrefixOf_iff_prefix.mp hn
  have hnamed : o.name ∈ (ofContent selector o).named := List.mem_singleton.mpr rfl
  rw [Index.node?_length, ← Option.isSome_map]
  exact (hrec.nodes n.components).mpr
    ⟨o.name, List.mem_cons_of_mem _ hnamed, hbegins, fun c hc => ho c (hbegins.subset hc)⟩

theorem exists_parent_ofContent (selector : Selector) {n : Name} {c : Component}
    (hn : ∀ d ∈ n.components, d.isEmpty = false) (hc : c.isEmpty = false) :
    ∃ m, (ofContent selector (.blank (n.push c))).index.node? n n.length = some m ∧
      c ∈ m.children.components := by
  have hpush : ∀ d ∈ (n.push c).components, d.isEmpty = false := by
    intro d hd
    rcases List.mem_append.mp hd with hd | hd
    · exact hn d hd
    · rw [List.mem_singleton.mp hd]
      exact hc
  have hself : (n.push c).isPrefixOf (n.push c) = true :=
    List.isPrefixOf_iff_prefix.mpr List.prefix_rfl
  have hsome := @isSome_node?_ofContent selector (.blank (n.push c)) (n.push c) hpush hself
  have hparts : (n.push c).components = n.components ++ [c] := rfl
  rw [Index.node?_length, hparts, Node.descend?_append] at hsome
  obtain ⟨child, hchild⟩ := Option.isSome_iff_exists.mp hsome
  obtain ⟨m, hm, hbelow⟩ := Option.bind_eq_some_iff.mp hchild
  obtain ⟨d, hd, _⟩ := Option.bind_eq_some_iff.mp hbelow
  exact ⟨m, (Index.node?_length _ n).trans hm, Forest.mem_components_of_find? hd⟩

theorem Recorded.settled_of_node? {h : History R} {n : Node R} (hh : h.Recorded)
    (hn : h.index.node? i.name i.name.length = some n)
    (hs : i.Settled ∨ ∃ c ∈ i.name.components, c.isEmpty = true) : i.Settled := by
  rcases hs with hs | ⟨c, hc, hempty⟩
  · exact hs
  · rw [Index.node?_length] at hn
    have hno := (Node.descend?_wellFormed hh.wellFormed hn).2 c hc
    cases hempty.symm.trans hno

end History

namespace Interest

/-- Where an Interest is not settled, one content makes a child that it cannot decide on. -/
theorem exists_undecided (selector : Selector)
    (hs : ¬(i.Settled ∨ ∃ c ∈ i.name.components, c.isEmpty = true)) :
    i.isExact = false ∧ ∃ (o : Content) (n : Node Unit) (c : Component),
      (History.ofContent selector o).index.node? i.name i.name.length = some n ∧
        n.children.WellFormed ∧ c ∈ n.children.components ∧
        ∀ excluded, i.excludes c ≠ .ok excluded := by
  rw [not_or, Settled, not_or] at hs
  obtain ⟨⟨hexact, hall⟩, hname⟩ := hs
  simp only [not_forall, not_exists] at hall
  obtain ⟨c, hc, hundecided⟩ := hall
  simp only [not_exists, not_and, Bool.not_eq_true] at hname
  obtain ⟨n, hn, hmem⟩ := History.exists_parent_ofContent selector hname hc
  have hdescend := (Index.node?_length _ _).symm.trans hn
  have hwf := (Node.descend?_wellFormed (History.recorded_run selector _).wellFormed hdescend).1
  exact ⟨by simpa using hexact, _, n, c, hn, hwf, hmem, hundecided⟩

/-- Asks below the name a for what comes after the component b. -/
def beyondB : Interest :=
  ⟨⟨[⟨[97]⟩]⟩, none, none, none, some (.anyUpTo ⟨[98]⟩), none⟩

theorem settled_beyondB : beyondB.Settled := by
  apply settled_of_lgBits
  simp [beyondB, Exclusion.anyUpTo]

/-- Asks below the name a, with a filter of more positions than a mask can address. -/
def overflowing : Interest :=
  ⟨⟨[⟨[97]⟩]⟩, none, none, none, some ⟨[.bloom ⟨32, 7, Vector.replicate 4 0, []⟩]⟩, none⟩

/-- In every index that a run can build, the search for the first answer selects it. -/
def LeftmostCanonical (i : Interest) : Prop :=
  ∀ (R : Type) (selector : Selector) (ops : List (Operation R)) (resolve : Resolver R) (n : Node R),
    (History.run selector ops).Faithful resolve →
    (History.run selector ops).index.node? i.name i.name.length = some n →
    Selects (n.leftmost resolve i).result (i.AnswersBelow resolve) (History.run selector ops).stored
      (IsLeftmost (i.AnswersBelow resolve) (History.run selector ops).stored)

def RightmostCanonical (i : Interest) : Prop :=
  ∀ (R : Type) (selector : Selector) (ops : List (Operation R)) (resolve : Resolver R) (n : Node R),
    (History.run selector ops).Faithful resolve →
    (History.run selector ops).index.node? i.name i.name.length = some n →
    Selects (n.rightmost resolve i).result (i.AnswersBelow resolve) (History.run selector ops).stored
      (IsRightmost (i.AnswersBelow resolve) (History.run selector ops).stored)

/-- The Interests with a canonical search for the first answer are those that are settled, and
those whose name no index can hold. -/
theorem leftmostCanonical_iff (i : Interest) (hi : i.WellFormed) :
    i.LeftmostCanonical ↔ i.Settled ∨ ∃ c ∈ i.name.components, c.isEmpty = true := by
  constructor
  · intro hall
    by_contra hs
    obtain ⟨hexact, o, n, c, hn, hwf, hmem, hundecided⟩ := exists_undecided .leftmost hs
    obtain ⟨found, hfound, hnone, _⟩ :=
      hall Unit .leftmost _ (fun _ => none) n (History.faithful_none _) hn
    have hnothing : found = none := hnone.mpr fun e _ ha => History.not_answers_none i e ha.2
    rw [hnothing] at hfound
    obtain ⟨excluded, hex⟩ := Node.isOk_excludes_of_leftmost hwf hexact hfound c hmem
    exact hundecided excluded hex
  · intro hs R selector ops resolve n hf hn
    have hh := History.recorded_run selector ops
    have hsettled := hh.settled_of_node? hn hs
    rw [Index.node?_length] at hn
    exact hh.leftmost_selects hf hi hsettled hn

/-- What comes after b begins with the contents under c, and the first of them was inserted first. -/
theorem leftmostCanonical_beyondB : beyondB.WellFormed ∧ ∃ n,
    (History.crowd .leftmost).index.node? beyondB.name beyondB.name.length = some n ∧
      (n.leftmost History.withoutAD beyondB).result = .ok (some ⟨.blankAC, .blankAC⟩) := by
  have hi : beyondB.WellFormed := by decide
  obtain ⟨n, hn⟩ := History.exists_node?_crowd .leftmost
  have hbest : IsLeftmost (beyondB.AnswersBelow History.withoutAD) (History.crowd .leftmost).stored
      ⟨.blankAC, .blankAC⟩ := by
    rw [History.stored_crowd]
    exact ⟨by decide, [⟨.blankAD, .blankAD⟩, ⟨.blankAB, .blankAB⟩], [⟨.filledAC, .filledAC⟩], rfl,
      by decide, by decide⟩
  have hselects : Selects (n.leftmost History.withoutAD beyondB).result
      (beyondB.AnswersBelow History.withoutAD) (History.crowd .leftmost).stored
      (IsLeftmost (beyondB.AnswersBelow History.withoutAD) (History.crowd .leftmost).stored) :=
    (leftmostCanonical_iff beyondB hi).mpr (Or.inl settled_beyondB) Content .leftmost _ _ n
      (History.faithful_crowd .leftmost) hn
  obtain ⟨a, hfound, ha⟩ := hselects.exists_of_mem hbest.mem hbest.1
  exact ⟨hi, n, hn, by rw [hfound, IsLeftmost.unique ha hbest]⟩

theorem not_leftmostCanonical_overflowing :
    overflowing.WellFormed ∧ ¬overflowing.LeftmostCanonical := by
  refine ⟨by decide, ?_⟩
  intro hall
  obtain ⟨found, hfound, _⟩ := hall Unit .leftmost [.insert (fun _ => none) .blankAC () .epoch]
    (fun _ => none) _ (History.faithful_none _) rfl
  cases hfound

/-- The same Interests have a canonical search for the last answer. -/
theorem rightmostCanonical_iff (i : Interest) (hi : i.WellFormed) :
    i.RightmostCanonical ↔ i.Settled ∨ ∃ c ∈ i.name.components, c.isEmpty = true := by
  constructor
  · intro hall
    by_contra hs
    obtain ⟨hexact, o, n, c, hn, hwf, hmem, hundecided⟩ := exists_undecided .rightmost hs
    obtain ⟨found, hfound, _⟩ :=
      hall Unit .rightmost _ (fun _ => none) n (History.faithful_none _) hn
    obtain ⟨excluded, hex⟩ := Node.isOk_excludes_of_rightmost hwf hexact hfound c hmem
    exact hundecided excluded hex
  · intro hs R selector ops resolve n hf hn
    have hh := History.recorded_run selector ops
    have hsettled := hh.settled_of_node? hn hs
    rw [Index.node?_length] at hn
    exact hh.rightmost_selects hf hi hsettled hn

/-- With the content under d gone, it ends with the contents under c, and the last of them was
inserted last. -/
theorem rightmostCanonical_beyondB : beyondB.WellFormed ∧ ∃ n,
    (History.crowd .rightmost).index.node? beyondB.name beyondB.name.length = some n ∧
      (n.rightmost History.withoutAD beyondB).result = .ok (some ⟨.filledAC, .filledAC⟩) := by
  have hi : beyondB.WellFormed := by decide
  obtain ⟨n, hn⟩ := History.exists_node?_crowd .rightmost
  have hbest : IsRightmost (beyondB.AnswersBelow History.withoutAD) (History.crowd .rightmost).stored
      ⟨.filledAC, .filledAC⟩ := by
    rw [History.stored_crowd]
    exact ⟨by decide, [⟨.blankAD, .blankAD⟩, ⟨.blankAB, .blankAB⟩, ⟨.blankAC, .blankAC⟩], [], rfl,
      by decide, by decide⟩
  have hselects : Selects (n.rightmost History.withoutAD beyondB).result
      (beyondB.AnswersBelow History.withoutAD) (History.crowd .rightmost).stored
      (IsRightmost (beyondB.AnswersBelow History.withoutAD) (History.crowd .rightmost).stored) :=
    (rightmostCanonical_iff beyondB hi).mpr (Or.inl settled_beyondB) Content .rightmost _ _ n
      (History.faithful_crowd .rightmost) hn
  obtain ⟨a, hfound, ha⟩ := hselects.exists_of_mem hbest.mem hbest.1
  exact ⟨hi, n, hn, by rw [hfound, IsRightmost.unique ha hbest]⟩

theorem not_rightmostCanonical_overflowing :
    overflowing.WellFormed ∧ ¬overflowing.RightmostCanonical := by
  refine ⟨by decide, ?_⟩
  intro hall
  obtain ⟨found, hfound, _⟩ := hall Unit .rightmost [.insert (fun _ => none) .blankAC () .epoch]
    (fun _ => none) _ (History.faithful_none _) rfl
  cases hfound

end Interest

end NamedData
