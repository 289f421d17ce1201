import NamedData.Proofs.Canonical

namespace NamedData

namespace Interest

/-- The verdict on the node `depth` components after the Interest's name on the path `p`. -/
def verdict (i : Interest) (p : Name) (depth : Nat) : Except Violation Verdict :=
  i.screen (i.name ++ p.take depth).last? depth

/-- Screening leads along the path `p` to its end, and the content there is tested. -/
structure Leads (i : Interest) (p : Name) : Prop where
  /-- No node on the path is left out. -/
  spared : ∀ depth ≤ p.length, ∃ v, i.verdict p depth = .ok v ∧ v ≠ .prune
  descends : ∀ depth < p.length, i.mayDescend depth = true
  /-- The first component is not clipped. -/
  beyond : ∀ bound ∈ i.floor?, ∀ c ∈ p.get? 0, bound < c
  kept : i.verdict p p.length = .ok .keep

variable {i : Interest} {p : Name} {o : Content}

theorem bars_last? {depth : Nat} (hdepth : depth ≤ p.length) :
    i.bars (i.name ++ p.take depth).last? depth =
      if depth = 1 then i.excludesHead p.components else .ok false := by
  by_cases hone : depth = 1
  · subst hone
    obtain ⟨components⟩ := p
    cases components with
    | nil => simp [Name.length] at hdepth
    | cons c q => simp [Name.last?, Name.take, bars, excludesHead]
  · cases (i.name ++ p.take depth).last? with
    | none => simp [bars, hone]
    | some c => simp [bars, hone]

theorem verdict_eq {depth : Nat} (hdepth : depth ≤ p.length) :
    i.verdict p depth =
      if i.withinMax depth = true then
        (if depth = 1 then i.excludesHead p.components else .ok false).map fun barred =>
          if barred then .prune
          else if i.withinMin (i.suffixCount depth) then .keep else .skip
      else .ok .prune := by
  rw [verdict, screen, bars_last? hdepth]
  cases i.withinMax depth <;> rfl

theorem admitsHead_iff {path : List Component} :
    i.admitsHead path = true ↔ i.excludesHead path = .ok false := by
  cases path with
  | nil => simp [admitsHead, excludesHead]
  | cons c q =>
    rw [admitsHead, admits, excludesHead]
    cases i.excludes c <;> simp

theorem passes_iff : i.passes p.components = true ↔ i.withinMax p.length = true ∧
    i.withinMin (i.suffixCount p.length) = true ∧ i.excludesHead p.components = .ok false := by
  simp only [passes, Bool.and_eq_true, admitsHead_iff, and_assoc]
  rfl

/-- On a path that passes the screening, a node is kept or skipped by its depth alone. -/
theorem verdict_of_passes (hp : i.passes p.components = true) {depth : Nat}
    (hdepth : depth ≤ p.length) :
    i.verdict p depth = .ok (if i.withinMin (i.suffixCount depth) then .keep else .skip) := by
  obtain ⟨hmax, _, hhead⟩ := passes_iff.mp hp
  rw [verdict_eq hdepth, if_pos (withinMax_mono hdepth hmax), hhead, ite_self]
  rfl

theorem of_verdict_ne_prune {depth : Nat} {v : Verdict} (hdepth : depth ≤ p.length)
    (h : i.verdict p depth = .ok v) (hv : v ≠ .prune) :
    i.withinMax depth = true ∧ (depth = 1 → i.excludesHead p.components = .ok false) ∧
      v = if i.withinMin (i.suffixCount depth) then .keep else .skip := by
  rw [verdict_eq hdepth] at h
  cases hmax : i.withinMax depth with
  | false =>
    rw [hmax] at h
    exact absurd (Except.ok.inj h).symm hv
  | true =>
    rw [hmax, if_pos rfl] at h
    cases hbar : (if depth = 1 then i.excludesHead p.components else .ok false) with
    | error violation => simp [hbar, Except.map] at h
    | ok barred =>
      cases barred with
      | true =>
        have hprune : .prune = v := by simpa [hbar, Except.map] using h
        exact absurd hprune.symm hv
      | false =>
        refine ⟨rfl, ?_, ?_⟩
        · intro hone
          rwa [if_pos hone] at hbar
        · simpa [hbar, Except.map] using h.symm

theorem Leads.of_passes (hp : i.passes p.components = true) : i.Leads p where
  spared depth hdepth := by
    refine ⟨_, verdict_of_passes hp hdepth, ?_⟩
    split <;> simp
  descends depth hdepth := by
    have hmax := (passes_iff.mp hp).1
    rw [mayDescend_eq]
    exact withinMax_mono hdepth hmax
  beyond bound hbound c hc := by
    have hhead := (passes_iff.mp hp).2.2
    by_contra hlt
    obtain ⟨components⟩ := p
    cases components with
    | nil => cases hc
    | cons d q =>
      have hcd : d = c := by simpa [Name.get?] using hc
      rw [excludesHead, hcd, excludes_of_floor? hbound hlt] at hhead
      cases hhead
  kept := by
    have hmin := (passes_iff.mp hp).2.1
    rw [verdict_of_passes hp le_rfl, if_pos hmin]

theorem Leads.passes (h : i.Leads p) : i.passes p.components = true := by
  obtain ⟨hmax, _, hkeep⟩ := of_verdict_ne_prune le_rfl h.kept (by simp)
  have hmin : i.withinMin (i.suffixCount p.length) = true := by
    by_contra hmin
    rw [if_neg hmin] at hkeep
    cases hkeep
  have hhead : i.excludesHead p.components = .ok false := by
    by_cases hone : 1 ≤ p.length
    · obtain ⟨v, hv, hne⟩ := h.spared 1 hone
      exact (of_verdict_ne_prune hone hv hne).2.1 rfl
    · have hnil : p.components = [] := by
        rw [Name.length] at hone
        exact List.length_eq_zero_iff.mp (by omega)
      rw [hnil]
      rfl
  exact passes_iff.mpr ⟨hmax, hmin, hhead⟩

/-- Below the Interest's name, and at the name itself if there is no exclusion, a content answers if
its path passes the screening and its publisher is asked for. -/
theorem matchesContent_of_passes (ho : o.name = i.name ++ p) (hp : p ≠ .root ∨ i.exclusion = none)
    (hpass : i.passes p.components = true) (haccept : i.accepts (some o.publisher) = true) :
    i.matchesContent o = .ok true := by
  obtain ⟨hmax, hmin, hhead⟩ := passes_iff.mp hpass
  have hplain : ¬(p.components = [] ∧ i.exclusion.isSome = true) := by
    intro h
    rcases hp with hroot | hnone
    · exact hroot (Name.eq_of_components h.1)
    · simp [hnone] at h
  have hsuffix : i.suffix o p.components = p.components := if_neg hplain
  have hcount : i.suffixCount p.components.length = p.length := by
    rw [← length_suffix i o, hsuffix]
    rfl
  have hwindow : i.withinMax (i.suffixCount p.components.length) = true ∧
      i.withinMin (i.suffixCount p.components.length) = true := by
    rw [hcount]
    exact ⟨hmax, hcount ▸ hmin⟩
  rw [matchesContent_eq ho, if_pos hwindow, hsuffix, hhead]
  simp [Except.map, haccept]

theorem accepts_iff {publisher : Publisher} : i.accepts (some publisher) = true ↔
    i.publisher = none ∨ i.publisher = some publisher := by
  simp [accepts]

/-- Whatever answers is reached and tested. What is reached and tested answers if its publisher is
asked for, unless it is at the name itself and an exclusion has its digest to decide on. -/
theorem screening_agrees (i : Interest) (o : Content) (p : Name) (ho : o.name = i.name ++ p) :
    (i.matchesContent o = .ok true → i.Leads p) ∧
      (p ≠ .root ∨ i.exclusion = none → i.Leads p →
        i.publisher = none ∨ i.publisher = some o.publisher → i.matchesContent o = .ok true) := by
  constructor
  · intro h
    exact .of_passes (passes_of_matchesContent ho h)
  · intro hp hleads hpublisher
    exact matchesContent_of_passes ho hp hleads.passes (accepts_iff.mpr hpublisher)

/-- Asks below the name a, two components further on, for what comes after b. -/
def twoBeyondB : Interest := { beyondB with minSuffix := some 2, maxSuffix := some 2 }

theorem screening_agrees_twoBeyondB :
    (Content.blank ⟨[⟨[97]⟩, ⟨[99]⟩, ⟨[100]⟩]⟩).name = twoBeyondB.name ++ ⟨[⟨[99]⟩, ⟨[100]⟩]⟩ ∧
      twoBeyondB.Leads ⟨[⟨[99]⟩, ⟨[100]⟩]⟩ ∧
        twoBeyondB.matchesContent (.blank ⟨[⟨[97]⟩, ⟨[99]⟩, ⟨[100]⟩]⟩) = .ok true := by
  have hname : (Content.blank ⟨[⟨[97]⟩, ⟨[99]⟩, ⟨[100]⟩]⟩).name =
      twoBeyondB.name ++ ⟨[⟨[99]⟩, ⟨[100]⟩]⟩ := by decide
  have h := screening_agrees twoBeyondB _ ⟨[⟨[99]⟩, ⟨[100]⟩]⟩ hname
  have hleads : twoBeyondB.Leads ⟨[⟨[99]⟩, ⟨[100]⟩]⟩ := h.1 (by decide)
  exact ⟨hname, hleads, h.2 (Or.inl (by decide)) hleads (Or.inl rfl)⟩

end Interest

end NamedData
