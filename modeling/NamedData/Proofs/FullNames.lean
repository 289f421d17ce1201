import NamedData.Proofs.Answering

namespace NamedData

namespace Interest

/-- The number of components that a content is taken to have after the Interest's name: none if its
digest is named, and with an exclusion the digest counts if all but the digest is named. -/
def suffixLength (i : Interest) (o : Content) : Nat :=
  if i.name = o.fullName then 0
  else if i.name = o.name ∧ i.exclusion.isSome = true then 1
  else o.name.length-i.name.length

def InWindow (i : Interest) (count : Nat) : Prop :=
  (∀ least ∈ i.minSuffix, least ≤ count) ∧ ∀ greatest ∈ i.maxSuffix, count ≤ greatest

/-- The law of matching. -/
structure MatchesFullName (i : Interest) (o : Content) : Prop where
  begins : i.name.isPrefixOf o.fullName = true
  admitted : ∀ c ∈ o.fullName.get? i.name.length, i.excludes c ≠ .ok true
  signed : ∀ publisher ∈ i.publisher, publisher = o.publisher
  inWindow : i.InWindow (i.suffixLength o)

/-- Where it comes to the component after the Interest's name, the exclusion can tell whether it is
excluded. -/
def Compares (i : Interest) (o : Content) : Prop :=
  i.name.isPrefixOf o.fullName = true → i.InWindow (i.suffixLength o) →
    ∀ c ∈ o.fullName.get? i.name.length, ∃ excluded, i.excludes c = .ok excluded

variable {i : Interest} {o : Content}

theorem inWindow_iff {count : Nat} :
    i.InWindow count ↔ i.withinMax count = true ∧ i.withinMin count = true := by
  rw [InWindow, withinMin, withinMax, and_comm]
  cases i.minSuffix <;> cases i.maxSuffix <;> simp

instance (count : Nat) : Decidable (i.InWindow count) := decidable_of_iff _ inWindow_iff.symm

theorem isPrefixOf_fullName_iff (n : Name) (o : Content) :
    n.isPrefixOf o.fullName = true ↔ n.isPrefixOf o.name = true ∨ n = o.fullName := by
  have hparts : o.fullName.components = o.name.components ++ [o.digestComponent] := rfl
  rw [Name.isPrefixOf, Name.isPrefixOf, List.isPrefixOf_iff_prefix, List.isPrefixOf_iff_prefix,
    hparts, List.prefix_concat_iff, or_comm, ← hparts]
  exact or_congr_right ⟨Name.eq_of_components, congrArg Name.components⟩

theorem matchesContent_of_isPrefixOf (h : i.name.isPrefixOf o.name = true) :
    i.matchesContent o =
      if i.InWindow (i.suffixLength o) then
        (i.excludesNext o.fullName).map fun excluded => !excluded && i.accepts (some o.publisher)
      else .ok false := by
  obtain ⟨p, hp⟩ := Name.isPrefixOf_iff.mp h
  have hlen : o.name.length = i.name.length+p.components.length := by
    rw [hp]
    exact List.length_append
  have hfull : i.name ≠ o.fullName := by
    intro heq
    have hlength := o.length_fullName
    rw [← heq] at hlength
    omega
  have hsame : i.name = o.name ↔ p.components.length = 0 := by
    constructor
    · intro heq
      rw [heq] at hlen
      omega
    · intro hzero
      have hroot : p = .root := Name.eq_of_components (List.length_eq_zero_iff.mp hzero)
      rw [hp, hroot, Name.append_root]
  have hcount : i.suffixLength o = i.suffixCount p.components.length := by
    have hsub : o.name.length-i.name.length = p.components.length := by omega
    simp only [suffixLength, if_neg hfull, hsame, hsub, suffixCount]
  have hnext : i.excludesNext o.fullName = i.excludesHead (i.suffix o p.components) := by
    have hget : o.fullName.get? i.name.length = (p.components ++ [o.digestComponent])[0]? := by
      simp [Name.get?, Content.fullName, Name.push, hp, Name.length]
    rw [excludesNext, hget, suffix]
    cases p.components with
    | nil => cases hx : i.exclusion <;> simp [excludes, excludesHead, hx]
    | cons c q => simp [excludesHead]
  rw [matchesContent_eq hp, hcount, hnext]
  simp only [inWindow_iff]

/-- The law of matching as an equation. -/
theorem matchesContent_eq_fullName (i : Interest) (o : Content) :
    i.matchesContent o =
      if i.name.isPrefixOf o.fullName = true ∧ i.InWindow (i.suffixLength o) then
        (i.excludesNext o.fullName).map fun excluded => !excluded && i.accepts (some o.publisher)
      else .ok false := by
  by_cases hname : i.name.isPrefixOf o.name = true
  · have hbegins := (isPrefixOf_fullName_iff i.name o).mpr (Or.inl hname)
    simp only [matchesContent_of_isPrefixOf hname, hbegins, true_and]
  · by_cases hfull : i.name = o.fullName
    · have hlen : i.name.length = o.name.length+1 := by rw [hfull, o.length_fullName]
      have hbegins := (isPrefixOf_fullName_iff i.name o).mpr (Or.inr hfull)
      have hcount : i.suffixLength o = 0 := if_pos hfull
      have hnext : i.excludesNext o.fullName = .ok false := by
        simp [excludesNext, hfull, Name.get?, Name.length]
      simp only [matchesContent_of_length hlen, hbegins, hcount, hnext, inWindow_iff,
        withinMax_zero]
      cases i.withinMin 0 <;> simp [Except.map, hfull]
    · have hbegins : ¬i.name.isPrefixOf o.fullName = true := by
        rw [isPrefixOf_fullName_iff]
        tauto
      have hcandidate : ¬i.name.isPrefixOf (i.candidate o) = true := by
        rw [candidate]
        split
        · exact hbegins
        · exact hname
      simp [matchesContent, matchesName, hbegins, hcandidate]

section Next

variable {n : Name}

theorem isOk_excludesNext_iff : (∃ excluded, i.excludesNext n = .ok excluded) ↔
    ∀ c ∈ n.get? i.name.length, ∃ excluded, i.excludes c = .ok excluded := by
  rw [excludesNext]
  cases n.get? i.name.length <;> simp

theorem excludesNext_eq_false_iff {excluded : Bool} (h : i.excludesNext n = .ok excluded) :
    excluded = false ↔ ∀ c ∈ n.get? i.name.length, i.excludes c ≠ .ok true := by
  rw [excludesNext] at h
  cases hc : n.get? i.name.length with
  | none =>
    have hfalse : excluded = false := by simpa [hc] using h.symm
    simp [hfalse]
  | some c =>
    have hexcludes : i.excludes c = .ok excluded := by simpa [hc] using h
    simp [hexcludes]

end Next

theorem accepts_iff_signed : i.accepts (some o.publisher) = true ↔
    ∀ publisher ∈ i.publisher, publisher = o.publisher := by
  rw [accepts]
  cases i.publisher <;> simp

theorem isOk_matchesContent_iff : (∃ hit, i.matchesContent o = .ok hit) ↔ i.Compares o := by
  rw [matchesContent_eq_fullName, Compares, ← isOk_excludesNext_iff]
  split
  next hask =>
    simp only [hask.1, hask.2, forall_const]
    cases i.excludesNext o.fullName <;> simp [Except.map]
  next hask =>
    simp only [Except.ok.injEq, exists_eq', true_iff]
    intro hbegins hwindow
    exact absurd ⟨hbegins, hwindow⟩ hask

theorem matchesContent_eq_true_iff {hit : Bool} (h : i.matchesContent o = .ok hit) :
    hit = true ↔ i.MatchesFullName o := by
  rw [matchesContent_eq_fullName] at h
  split at h
  next hask =>
    cases hnext : i.excludesNext o.fullName with
    | error v => simp [hnext, Except.map] at h
    | ok excluded =>
      have hhit : (!excluded && i.accepts (some o.publisher)) = hit := by
        simpa [hnext, Except.map] using h
      rw [← hhit, Bool.and_eq_true, Bool.not_eq_true', excludesNext_eq_false_iff hnext,
        accepts_iff_signed]
      constructor
      · intro hlaw
        exact ⟨hask.1, hlaw.1, hlaw.2, hask.2⟩
      · intro hlaw
        exact ⟨hlaw.admitted, hlaw.signed⟩
  next hask =>
    have hfalse : hit = false := (Except.ok.inj h).symm
    simp only [hfalse, Bool.false_eq_true, false_iff]
    intro hlaw
    exact hask ⟨hlaw.begins, hlaw.inWindow⟩

theorem matchesContent_ofName (n : Name) (o : Content) :
    (ofName n).matchesContent o = .ok (n.isPrefixOf o.fullName) := by
  have hnext : (ofName n).excludesNext o.fullName = .ok false := by
    rw [excludesNext]
    split <;> rfl
  rw [matchesContent_eq_fullName, hnext]
  cases hbegins : n.isPrefixOf o.fullName <;>
    simp [ofName, hbegins, InWindow, Except.map, accepts]

theorem fullName_isPrefixOf_iff {o p : Content} (hname : p.name = o.name) :
    o.fullName.isPrefixOf p.fullName = true ↔ p.digest = o.digest := by
  have hlen : p.name.length < o.fullName.length := by
    rw [o.length_fullName, hname]
    omega
  rw [isPrefixOf_fullName_iff, Name.isPrefixOf_of_length_lt hlen]
  constructor
  · intro h
    have heq : o.fullName = p.fullName := by simpa using h
    exact (Content.fullName_inj heq).2.symm
  · intro hdigest
    refine Or.inr ?_
    rw [Content.fullName, Content.fullName, Content.digestComponent, Content.digestComponent, hname,
      hdigest]

/-- Matching follows the law exactly where the exclusion is not asked or can tell. An Interest
without constraints matches what its name begins, so one that names a digest matches only that. -/
theorem matches_fullName_iff (i : Interest) (o : Content) :
    ((∃ hit, i.matchesContent o = .ok hit ∧ (hit = true ↔ i.MatchesFullName o)) ↔ i.Compares o) ∧
    (∀ n, (ofName n).matchesContent o = .ok (n.isPrefixOf o.fullName)) ∧
    ∀ p : Content, (ofName o.fullName).matchesContent p = .ok true ∧ p.name = o.name ↔
      p.digest = o.digest ∧ p.name = o.name := by
  refine ⟨?_, fun n => matchesContent_ofName n o, ?_⟩
  · rw [← isOk_matchesContent_iff]
    constructor
    · intro h
      obtain ⟨hit, hhit, _⟩ := h
      exact ⟨hit, hhit⟩
    · intro h
      obtain ⟨hit, hhit⟩ := h
      exact ⟨hit, hhit, matchesContent_eq_true_iff hhit⟩
  · intro p
    apply and_congr_left
    intro hname
    rw [matchesContent_ofName, Except.ok.injEq, fullName_isPrefixOf_iff hname]

/-- A filter without bits excludes nothing, yet no comparison with it ends. -/
theorem not_matches_fullName_overflowing : overflowing.MatchesFullName .blankAC ∧
    ¬∃ hit, overflowing.matchesContent .blankAC = .ok hit ∧
      (hit = true ↔ overflowing.MatchesFullName .blankAC) := by
  refine ⟨⟨rfl, ?_, ?_, ?_, ?_⟩, ?_⟩
  · intro c hc
    have hnext : ⟨[99]⟩ = c := Option.some.inj hc
    rw [← hnext]
    decide
  · intro publisher hpublisher
    cases hpublisher
  · intro least hleast
    cases hleast
  · intro greatest hgreatest
    cases hgreatest
  · intro h
    obtain ⟨hit, hhit, _⟩ := h
    cases hhit

end Interest

end NamedData
