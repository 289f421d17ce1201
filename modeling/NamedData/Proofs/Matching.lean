import NamedData.Interest.Screening
import NamedData.Proofs.Order

namespace NamedData

namespace Exclusion

theorem excludes_of_floor? {x : Exclusion} {bound c : Component} (hx : x.floor? = some bound)
    (hc : ¬bound < c) : x.excludes c = .ok true := by
  rw [floor?] at hx
  split at hx
  next b es he =>
    cases hx
    rw [excludes, he, excludesFrom, excludesFrom]
    · cases h : compare c bound with
      | lt => rfl
      | eq => rfl
      | gt => exact absurd (Component.compare_eq_gt.mp h) hc
    · exact fun d hd => nomatch hd
  · cases hx

theorem isOk_anyCovers {c : Component} {ranges : List Element}
    (h : ∀ f, .bloom f ∈ ranges → f.lgBits < 32) : ∃ covered, anyCovers c ranges = .ok covered := by
  induction ranges with
  | nil => exact ⟨false, rfl⟩
  | cons e es ih =>
    obtain ⟨rest, hrest⟩ := ih fun f hf => h f (List.mem_cons_of_mem _ hf)
    have hcovers : ∃ covered, e.covers c = .ok covered := by
      cases e with
      | component b => exact ⟨false, rfl⟩
      | any => exact ⟨true, rfl⟩
      | bloom f =>
        rw [Element.covers, Bloom.contains, Bloom.positions, if_pos (h f (by simp))]
        exact ⟨_, rfl⟩
    obtain ⟨covered, hc⟩ := hcovers
    rw [anyCovers, hc]
    cases covered with
    | true => exact ⟨true, rfl⟩
    | false => exact ⟨rest, hrest⟩

/-- An exclusion whose Bloom filters have addressable positions can tell of every component whether
it is excluded. -/
theorem isOk_excludesFrom {c : Component} {ranges elements : List Element}
    (hr : ∀ f, .bloom f ∈ ranges → f.lgBits < 32) (he : ∀ f, .bloom f ∈ elements → f.lgBits < 32) :
    ∃ excluded, excludesFrom c ranges elements = .ok excluded := by
  induction elements generalizing ranges with
  | nil => exact isOk_anyCovers hr
  | cons e es ih =>
    have hes : ∀ f, .bloom f ∈ es → f.lgBits < 32 := fun f hf => he f (List.mem_cons_of_mem _ hf)
    have hranges : ∀ f, .bloom f ∈ ranges ++ [e] → f.lgBits < 32 := by
      intro f hf
      rcases List.mem_append.mp hf with hf | hf
      · exact hr f hf
      · exact he f (List.mem_cons.mpr (Or.inl (List.mem_singleton.mp hf)))
    cases e with
    | component b =>
      rw [excludesFrom]
      cases compare c b with
      | lt => exact isOk_anyCovers hr
      | eq => exact ⟨true, rfl⟩
      | gt => exact ih (by simp) hes
    | any => exact ih hranges hes
    | bloom f => exact ih hranges hes

end Exclusion

namespace Interest

theorem withinMax_mono {i : Interest} {a b : Nat} (hab : a ≤ b) (hb : i.withinMax b = true) :
    i.withinMax a = true := by
  cases hm : i.maxSuffix with
  | none => simp [withinMax, hm]
  | some m =>
    simp only [withinMax, hm, Option.all_some, decide_eq_true_eq] at hb ⊢
    omega

theorem mayDescend_eq (i : Interest) (d : Nat) : i.mayDescend d = i.withinMax (d+1) := by
  cases hm : i.maxSuffix with
  | none => simp [mayDescend, withinMax, hm]
  | some m => simp only [mayDescend, withinMax, hm, Option.all_some, Nat.lt_iff_add_one_le]

theorem withinMax_zero (i : Interest) : i.withinMax 0 = true := by
  cases hm : i.maxSuffix <;> simp [withinMax, hm]

theorem withinMax_one_of_not_isExact {i : Interest} (h : i.isExact = false) :
    i.withinMax 1 = true := by
  cases hm : i.maxSuffix with
  | none => simp [withinMax, hm]
  | some m =>
    have hne : m ≠ 0 := by
      intro h0
      simp [isExact, hm, h0] at h
    simp only [withinMax, hm, Option.all_some, decide_eq_true_eq]
    omega

theorem withinMax_one_of_isExact {i : Interest} (h : i.isExact = true) :
    i.withinMax 1 = false := by
  have hm : i.maxSuffix = some 0 := by simpa [isExact] using h
  simp [withinMax, hm]

theorem suffixCount_succ (i : Interest) (d : Nat) : i.suffixCount (d+1) = d+1 := by
  simp [suffixCount]

theorem le_suffixCount (i : Interest) (d : Nat) : d ≤ i.suffixCount d := by
  rw [suffixCount]
  split
  next h => omega
  · exact le_rfl

def admits (i : Interest) (c : Component) : Bool :=
  match i.excludes c with
  | .ok excluded => !excluded
  | .error _ => false

def admitsHead (i : Interest) : List Component → Bool
  | [] => true
  | c :: _ => i.admits c

/-- What screening asks of the path that leads on from the Interest's name: that its length is
within the window and that its first component is admitted. -/
def passes (i : Interest) (p : List Component) : Bool :=
  i.withinMax p.length && i.withinMin (i.suffixCount p.length) && i.admitsHead p

theorem admitsHead_append_cons (i : Interest) (path : List Component) (c : Component)
    (q : List Component) : i.admitsHead (path ++ c :: q) = i.admitsHead (path ++ [c]) := by
  cases path <;> rfl

theorem not_passes_of_admitsHead {i : Interest} {p : List Component}
    (h : i.admitsHead p = false) : i.passes p = false := by
  simp [passes, h]

theorem not_passes_of_withinMax {i : Interest} {p : List Component} {count : Nat}
    (hp : count ≤ p.length) (h : i.withinMax count = false) : i.passes p = false := by
  rw [← Bool.not_eq_true]
  intro hpass
  simp only [passes, Bool.and_eq_true] at hpass
  rw [withinMax_mono hp hpass.1.1] at h
  cases h

/-- Whatever component is asked for, the exclusion can tell whether it is excluded. Only Bloom
filters with more positions than a mask can address leave this open. -/
def Settled (i : Interest) : Prop :=
  i.isExact = true ∨ ∀ c : Component, c.isEmpty = false → ∃ excluded, i.excludes c = .ok excluded

theorem settled_of_lgBits {i : Interest}
    (h : ∀ x ∈ i.exclusion, ∀ f, .bloom f ∈ x.elements → f.lgBits < 32) : i.Settled := by
  refine Or.inr fun c _ => ?_
  cases hx : i.exclusion with
  | none => exact ⟨false, by rw [excludes, hx]⟩
  | some x =>
    rw [excludes, hx]
    exact Exclusion.isOk_excludesFrom (by simp) (h x hx)

theorem excludes_of_floor? {i : Interest} {bound c : Component} (hi : i.floor? = some bound)
    (hc : ¬bound < c) : i.excludes c = .ok true := by
  cases hx : i.exclusion with
  | none => simp [floor?, hx] at hi
  | some x =>
    rw [excludes, hx]
    exact x.excludes_of_floor? (by simpa [floor?, hx] using hi) hc

/-- The components after the Interest's name with which a content at that path takes part in
matching. -/
def suffix (i : Interest) (o : Content) (p : List Component) : List Component :=
  if p = [] ∧ i.exclusion.isSome then [o.digestComponent] else p

theorem length_suffix (i : Interest) (o : Content) (p : List Component) :
    (i.suffix o p).length = i.suffixCount p.length := by
  by_cases hp : p = []
  · subst hp
    by_cases hx : i.exclusion.isSome <;> simp [suffix, suffixCount, hx]
  · have hlen : p.length ≠ 0 := fun h => hp (List.length_eq_zero_iff.mp h)
    simp [suffix, suffixCount, hp, hlen]

theorem candidate_eq {i : Interest} {o : Content} {p : List Component}
    (ho : o.name = i.name ++ ⟨p⟩) : i.candidate o = i.name ++ ⟨i.suffix o p⟩ := by
  have hlen : o.name.length = i.name.length+p.length := by
    simp [ho, Name.length]
  rw [candidate, suffix]
  by_cases hp : p = []
  · subst hp
    have hname : o.name = i.name := by rw [ho]; exact Name.append_root _
    by_cases hx : i.exclusion.isSome
    · simp only [hx, hname, Bool.true_and, beq_self_eq_true, Bool.true_or, if_true, and_self]
      rw [Content.fullName, hname]
      rfl
    · simp [hx, hname, Name.append_root, show (⟨[]⟩ : Name) = .root from rfl]
  · have hpos : 0 < p.length := List.length_pos_iff.mpr hp
    have h1 : (i.name.length == o.name.length) = false := by
      rw [beq_eq_false_iff_ne]
      omega
    have h2 : (i.name.length == o.name.length+1) = false := by
      rw [beq_eq_false_iff_ne]
      omega
    rw [h1, h2]
    simp [hp, ho]

def excludesHead (i : Interest) : List Component → Except Violation Bool
  | [] => .ok false
  | c :: _ => i.excludes c

theorem matchesName_append (i : Interest) (p : List Component) (publisher : Option Publisher) :
    i.matchesName (i.name ++ ⟨p⟩) publisher =
      if i.withinMax p.length = true ∧ i.withinMin p.length = true then
        (i.excludesHead p).map fun excluded => !excluded && i.accepts publisher
      else .ok false := by
  have hbegin : i.name.isPrefixOf (i.name ++ ⟨p⟩) = true := Name.isPrefixOf_iff.mpr ⟨⟨p⟩, rfl⟩
  have hlen : (i.name ++ ⟨p⟩ : Name).length-i.name.length = p.length := by
    simp [Name.length]
  have hnext : i.excludesNext (i.name ++ ⟨p⟩) = i.excludesHead p := by
    cases p <;> simp [excludesNext, Name.get?, Name.length, excludesHead]
  rw [matchesName, hbegin, hlen, hnext]
  cases i.withinMax p.length <;> cases i.withinMin p.length <;> rfl

theorem matchesContent_eq {i : Interest} {o : Content} {p : List Component}
    (ho : o.name = i.name ++ ⟨p⟩) :
    i.matchesContent o =
      if i.withinMax (i.suffixCount p.length) = true ∧
          i.withinMin (i.suffixCount p.length) = true then
        (i.excludesHead (i.suffix o p)).map fun excluded =>
          !excluded && i.accepts (some o.publisher)
      else .ok false := by
  rw [matchesContent, candidate_eq ho, matchesName_append, length_suffix]

/-- The path to an answer passes the screening. -/
theorem passes_of_matchesContent {i : Interest} {o : Content} {p : List Component}
    (ho : o.name = i.name ++ ⟨p⟩) (h : i.matchesContent o = .ok true) : i.passes p = true := by
  rw [matchesContent_eq ho] at h
  split at h
  next hwindow =>
    rw [passes, withinMax_mono (i.le_suffixCount p.length) hwindow.1, hwindow.2]
    cases p with
    | nil => rfl
    | cons c q =>
      have hsuffix : i.suffix o (c :: q) = c :: q := by simp [suffix]
      rw [hsuffix, excludesHead] at h
      cases hc : i.excludes c with
      | error v => simp [hc, Except.map] at h
      | ok excluded =>
        cases excluded with
        | true => simp [hc, Except.map] at h
        | false => simp [admitsHead, admits, hc]
  · cases h

theorem isOk_excludesHead {i : Interest} {p : List Component} (hi : i.Settled)
    (hp : ∀ c ∈ p, c.isEmpty = false) (hmax : i.withinMax p.length = true) :
    ∃ excluded, i.excludesHead p = .ok excluded := by
  cases p with
  | nil => exact ⟨false, rfl⟩
  | cons c q =>
    rcases hi with hexact | hall
    · have hone := withinMax_mono (show 1 ≤ (c :: q).length by simp) hmax
      rw [withinMax_one_of_isExact hexact] at hone
      cases hone
    · exact hall c (hp c (by simp))

theorem isEmpty_digestComponent (o : Content) : o.digestComponent.isEmpty = false := by
  have hlen : o.digestComponent.bytes.length = 32 := by
    simp [Content.digestComponent, Component.ofDigest]
  cases hb : o.digestComponent.bytes with
  | nil => simp [hb] at hlen
  | cons b bs => simp [Component.isEmpty, hb]

/-- A settled Interest can be compared with every content at or below its name. -/
theorem isOk_matchesContent {i : Interest} {o : Content} {p : List Component}
    (hi : i.Settled) (ho : o.name = i.name ++ ⟨p⟩) (hp : ∀ c ∈ p, c.isEmpty = false) :
    ∃ hit, i.matchesContent o = .ok hit := by
  rw [matchesContent_eq ho]
  split
  next hwindow =>
    have hsuffix : ∀ c ∈ i.suffix o p, c.isEmpty = false := by
      rw [suffix]
      split
      · simp [isEmpty_digestComponent]
      · exact hp
    have hmax : i.withinMax (i.suffix o p).length = true := by
      rw [length_suffix]
      exact hwindow.1
    obtain ⟨excluded, he⟩ := isOk_excludesHead hi hsuffix hmax
    rw [he]
    exact ⟨_, rfl⟩
  · exact ⟨false, rfl⟩

/-- An answer lies at or below the Interest's name, or the Interest names it with its digest. -/
theorem name_of_matchesContent {i : Interest} {o : Content} (h : i.matchesContent o = .ok true) :
    i.name.isPrefixOf o.name = true ∨ o.fullName = i.name := by
  have hbegin : i.name.isPrefixOf (i.candidate o) = true := by
    by_contra hno
    rw [matchesContent, matchesName] at h
    simp [hno] at h
  rw [candidate] at hbegin
  split at hbegin
  next hfull =>
    rw [Name.isPrefixOf, List.isPrefixOf_iff_prefix] at hbegin
    have hparts : o.fullName.components = o.name.components ++ [o.digestComponent] := rfl
    rw [hparts, List.prefix_concat_iff] at hbegin
    rcases hbegin with heq | hle
    · exact Or.inr (Name.eq_of_components heq.symm)
    · rw [Name.isPrefixOf, List.isPrefixOf_iff_prefix]
      exact Or.inl hle
  · exact Or.inl hbegin

theorem matchesContent_of_length {i : Interest} {o : Content}
    (hlen : i.name.length = o.name.length+1) :
    i.matchesContent o =
      .ok (decide (o.fullName = i.name) && i.withinMin 0 && i.accepts (some o.publisher)) := by
  have hcandidate : i.candidate o = o.fullName := by simp [candidate, hlen]
  rw [matchesContent, hcandidate]
  by_cases hname : o.fullName = i.name
  · have happend : o.fullName = i.name ++ ⟨[]⟩ := by
      rw [hname]
      exact (Name.append_root _).symm
    rw [happend, matchesName_append]
    cases i.withinMin 0 <;> simp [withinMax_zero, excludesHead, Except.map,
      show i.name ++ (⟨[]⟩ : Name) = i.name from Name.append_root _]
  · have hno : i.name.isPrefixOf o.fullName = false := by
      rw [← Bool.not_eq_true, Name.isPrefixOf, List.isPrefixOf_iff_prefix]
      intro hbegin
      have hfull : i.name.components.length = o.fullName.components.length := by
        simpa [Content.fullName, Name.push, Name.length] using hlen
      exact hname (Name.eq_of_components (hbegin.eq_of_length hfull).symm)
    simp [matchesName, hno, hname]

end Interest

end NamedData
