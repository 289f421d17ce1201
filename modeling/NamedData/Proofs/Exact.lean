import NamedData.Proofs.Answering

namespace NamedData

variable {R : Type} {resolve : Resolver R} {i : Interest}

/-- A search for a name itself stays at its node. -/
theorem Node.candidates_of_isExact (hexact : i.isExact = true) (n : Node R) :
    n.candidates i = .ok (if i.passes [] then n.state.content else []) := by
  have hstay : i.mayDescend 0 = false := by
    rw [Interest.mayDescend_eq]
    exact Interest.withinMax_one_of_isExact hexact
  rw [candidates, screen_here, hstay]
  cases i.passes [] <;> simp [gather, Except.map]

namespace History

variable {h : History R} {n : Node R}

/-- What answers an Interest among the contents of its name, in the order of insertion. -/
def answersAt (h : History R) (resolve : Resolver R) (i : Interest) : List (Match R) :=
  (h.storedAt i.name).filter fun e => i.Answers resolve e

theorem answersAt_of_not_passes (hpass : i.passes [] = false) : h.answersAt resolve i = [] := by
  rw [answersAt, List.filter_eq_nil_iff]
  intro e he ha
  have hname : e.content.name = i.name ++ ⟨[]⟩ :=
    (name_of_mem_storedAt he).trans (Name.append_root _).symm
  have hmatch : i.matchesContent e.content = .ok true := (of_decide_eq_true ha).2
  cases hpass.symm.trans (Interest.passes_of_matchesContent hname hmatch)

theorem first_of_isExact (hf : h.Faithful resolve) (hexact : i.isExact = true)
    {es : List (Match R)} (hes : es ⊆ h.storedAt i.name) :
    (Scan.first resolve i (es.map (·.ref))).result =
      .ok (es.filter fun e => i.Answers resolve e).head? := by
  rw [List.head?_filter]
  apply first_stored hf
  · exact fun e he => List.mem_of_mem_filter (hes he)
  · exact fun e he => isOk_matchesContent_of_isExact hexact (hes he)
  · simp

/-- A search tests all contents of the name, or no content of the name answers. -/
theorem Recorded.candidates_of_isExact (hh : h.Recorded) (resolve : Resolver R)
    (hexact : i.isExact = true) (hn : h.index.root.descend? i.name.components = some n) :
    ∃ es ⊆ h.storedAt i.name, n.candidates i = .ok (es.map (·.ref)) ∧
      (es.filter fun e => i.Answers resolve e) = h.answersAt resolve i := by
  have hcontent : n.state.content = (h.storedAt i.name).map (·.ref) := by
    rw [← hh.contents, Node.contents_of_descend? hn]
  rw [n.candidates_of_isExact hexact, hcontent]
  cases hpass : i.passes [] with
  | true => exact ⟨h.storedAt i.name, List.Subset.refl _, rfl, rfl⟩
  | false => exact ⟨[], List.nil_subset _, rfl, (answersAt_of_not_passes hpass).symm⟩

theorem Recorded.leftmost_of_isExact (hh : h.Recorded) (hf : h.Faithful resolve)
    (hi : i.WellFormed) (hexact : i.isExact = true)
    (hn : h.index.root.descend? i.name.components = some n) :
    (n.leftmost resolve i).result = .ok (h.answersAt resolve i).head? := by
  obtain ⟨es, hes, hcandidates, hanswers⟩ := hh.candidates_of_isExact resolve hexact hn
  rw [Node.leftmost_eq_first hi hcandidates, first_of_isExact hf hexact hes, hanswers]

theorem Recorded.rightmost_of_isExact (hh : h.Recorded) (hf : h.Faithful resolve)
    (hi : i.WellFormed) (hexact : i.isExact = true)
    (hn : h.index.root.descend? i.name.components = some n) :
    (n.rightmost resolve i).result = .ok (h.answersAt resolve i).getLast? := by
  obtain ⟨es, hes, hcandidates, hanswers⟩ := hh.candidates_of_isExact resolve hexact hn
  rw [Node.rightmost_eq_first hi hcandidates, ← List.map_reverse,
    first_of_isExact hf hexact (List.reverse_subset.mpr hes), List.filter_reverse, hanswers,
    List.head?_reverse]

theorem Recorded.get_of_isExact (hh : h.Recorded) (hf : h.Faithful resolve)
    (hexact : i.isExact = true) (hn : h.index.root.descend? i.name.components = some n)
    (hcontent : n.state.content ≠ []) :
    (h.index.get resolve i).result = .ok (h.answersAt resolve i).head? := by
  have hstored : h.storedAt i.name ≠ [] := by
    rw [← Node.contents_of_descend? hn, hh.contents] at hcontent
    exact fun hnil => hcontent (List.map_eq_nil_iff.mpr hnil)
  rw [Index.get, Index.scan, if_pos hexact, hh.lookup_eq, if_neg hstored]
  exact first_of_isExact hf hexact (List.Subset.refl _)

end History

/-- An Interest for a name that holds contents is answered by the first one that answers; the search
for the first agrees, and the search for the last ends with the last. -/
theorem Index.get_exact_eq_search_iff (selector : Selector) (ops : List (Operation R))
    (resolve : Resolver R) (i : Interest) (n : Node R)
    (hf : (History.run selector ops).Faithful resolve) (hi : i.WellFormed)
    (hexact : i.isExact = true)
    (hn : (History.run selector ops).index.node? i.name i.name.length = some n)
    (hcontent : n.state.content ≠ []) :
    ((History.run selector ops).index.get resolve i).result =
        .ok ((History.run selector ops).answersAt resolve i).head? ∧
      (n.leftmost resolve i).result =
        .ok ((History.run selector ops).answersAt resolve i).head? ∧
      (n.rightmost resolve i).result =
        .ok ((History.run selector ops).answersAt resolve i).getLast? ∧
      (((History.run selector ops).index.get resolve i).result =
          (n.search resolve i ((History.run selector ops).index.selector i)).result ↔
        (History.run selector ops).index.selector i = .leftmost ∨
          ((History.run selector ops).answersAt resolve i).head? =
            ((History.run selector ops).answersAt resolve i).getLast?) := by
  have hh := History.recorded_run selector ops
  rw [Index.node?_length] at hn
  have hget := hh.get_of_isExact hf hexact hn hcontent
  have hleft := hh.leftmost_of_isExact hf hi hexact hn
  have hright := hh.rightmost_of_isExact hf hi hexact hn
  refine ⟨hget, hleft, hright, ?_⟩
  cases (History.run selector ops).index.selector i with
  | leftmost => simp [Node.search, hget, hleft]
  | rightmost => simp [Node.search, hget, hright]

def Interest.lastAC : Interest := ⟨Content.blankAC.name, none, some 0, some .rightmost, none, none⟩

def onlyBlankAC : Resolver Content := fun o => if o = .blankAC then some o else none

/-- Once the second content is gone, the first one is also the last. -/
theorem Index.get_exact_eq_search_onlyBlankAC :
    History.twins.Faithful onlyBlankAC ∧ Interest.lastAC.WellFormed ∧
      Interest.lastAC.isExact = true ∧
      ∃ n, History.twins.index.node? Interest.lastAC.name Interest.lastAC.name.length = some n ∧
        n.state.content ≠ [] ∧
        (History.twins.index.get onlyBlankAC Interest.lastAC).result =
          (n.rightmost onlyBlankAC Interest.lastAC).result := by
  have hf : History.twins.Faithful onlyBlankAC := by
    intro e he
    rcases History.mem_stored_twins.mp he with rfl | rfl
    · exact Or.inr (if_pos rfl)
    · exact Or.inl (if_neg (by decide))
  have hi : Interest.lastAC.WellFormed := by decide
  have hone : History.twins.answersAt onlyBlankAC Interest.lastAC = [⟨.blankAC, .blankAC⟩] := by
    decide
  refine ⟨hf, hi, rfl, _, rfl, by decide, ?_⟩
  apply (get_exact_eq_search_iff .leftmost _ _ Interest.lastAC _ hf hi rfl rfl
    (by decide)).2.2.2.mpr
  right
  change (History.twins.answersAt onlyBlankAC Interest.lastAC).head? =
    (History.twins.answersAt onlyBlankAC Interest.lastAC).getLast?
  rw [hone]
  rfl

/-- While both contents are there, the answer is the first one, and not what the preferred search
ends with. -/
theorem Index.not_get_exact_eq_search_twins :
    History.twins.Faithful some ∧ Interest.lastAC.WellFormed ∧ Interest.lastAC.isExact = true ∧
      ∃ n, History.twins.index.node? Interest.lastAC.name Interest.lastAC.name.length = some n ∧
        n.state.content ≠ [] ∧
        (History.twins.index.get some Interest.lastAC).result = .ok (some ⟨.blankAC, .blankAC⟩) ∧
        (History.twins.index.get some Interest.lastAC).result ≠
          (n.search some Interest.lastAC
            (History.twins.index.selector Interest.lastAC)).result := by
  refine ⟨History.faithful_twins, by decide, rfl, _, rfl, by decide, rfl, ?_⟩
  intro hsame
  have hcontent : Content.blankAC = .filledAC :=
    congrArg Match.content (Option.some.inj (Except.ok.inj hsame))
  cases hcontent

end NamedData
