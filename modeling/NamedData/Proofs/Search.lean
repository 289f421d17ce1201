import NamedData.Index.Search
import NamedData.Proofs.Matching
import NamedData.Proofs.Trie

namespace NamedData

variable {R : Type} {resolve : Resolver R} {i : Interest}

namespace Scan

theorem orElse_nothing (t : Unit → Scan R) : nothing.orElse t = t () := by
  simp [orElse, nothing]

theorem orElse_assoc (s : Scan R) (t u : Unit → Scan R) :
    (s.orElse t).orElse u = s.orElse fun _ => (t ()).orElse u := by
  obtain ⟨probed, result⟩ := s
  rcases result with v | (_ | m)
  · rfl
  · cases ht : t () with
    | mk tried found =>
      rcases found with v | (_ | m) <;> simp [orElse, ht, List.append_assoc]
  · rfl

theorem orElse_result_none {s : Scan R} {t : Unit → Scan R} (h : (s.orElse t).result = .ok none) :
    s.result = .ok none ∧ (t ()).result = .ok none := by
  obtain ⟨probed, result⟩ := s
  rcases result with v | (_ | m)
  · cases h
  · exact ⟨rfl, h⟩
  · cases h

theorem first_append (rs ss : List R) :
    first resolve i (rs ++ ss) = (first resolve i rs).orElse fun _ => first resolve i ss := by
  induction rs with
  | nil => exact (orElse_nothing fun _ => first resolve i ss).symm
  | cons r rs ih => rw [List.cons_append, first, first, orElse_assoc, ih]

def answer? (resolve : Resolver R) (i : Interest) (r : R) : Option (Match R) :=
  match resolve r with
  | none => none
  | some o =>
    match i.matchesContent o with
    | .ok true => some ⟨r, o⟩
    | _ => none

/-- Among references whose contents can be compared with the Interest, the first answer is found. -/
theorem first_result {rs : List R}
    (h : ∀ r ∈ rs, ∀ o, resolve r = some o → ∃ hit, i.matchesContent o = .ok hit) :
    (first resolve i rs).result = .ok (rs.findSome? (answer? resolve i)) := by
  induction rs with
  | nil => rfl
  | cons r rs ih =>
    have hrest := ih fun s hs => h s (List.mem_cons_of_mem _ hs)
    have hprobe : (probe resolve i r).result = .ok (answer? resolve i r) := by
      rw [probe, answer?]
      cases hr : resolve r with
      | none => rfl
      | some o =>
        obtain ⟨hit, hhit⟩ := h r (by simp) o hr
        cases hit <;> simp [hhit, Except.map]
    rw [first, orElse, hprobe, List.findSome?_cons]
    cases ha : answer? resolve i r with
    | none => exact hrest
    | some m =>
      change (probe resolve i r).result = _
      rw [hprobe, ha]

theorem visit_eq_first {verdict : Except Violation Verdict} {content rs : List R}
    {below : Unit → Scan R} {gathered : Except Violation (List R)}
    (h : gather verdict content gathered = .ok rs)
    (hbelow : ∀ bs, gathered = .ok bs → below () = first resolve i bs) :
    visit resolve i verdict content below = first resolve i rs := by
  cases verdict with
  | error v => cases h
  | ok verdict =>
    cases verdict with
    | prune =>
      cases h
      rfl
    | skip => exact hbelow rs h
    | keep =>
      cases gathered with
      | error v => cases h
      | ok bs =>
        cases h
        rw [first_append, visit, ← hbelow bs rfl]

end Scan

namespace Forest

theorem leftmost_eq_first {f : Forest R} {depth : Nat} {rs : List R}
    (h : f.candidates i depth = .ok rs) :
    f.leftmost resolve i depth = Scan.first resolve i rs := by
  induction f generalizing depth rs with
  | nil =>
    cases h
    rfl
  | cons c own s below next ihb ihn =>
    rw [candidates] at h
    split at h
    · cases h
    next bs hbs =>
      cases hnext : next.candidates i depth with
      | error v => simp [hnext, Except.map] at h
      | ok ns =>
        have hrs : bs ++ ns = rs := by simpa [hnext, Except.map] using h
        rw [leftmost, ← hrs, Scan.first_append, ihn hnext]
        congr 1
        apply Scan.visit_eq_first hbs
        intro ds hds
        split at hds
        next hmay => simp [hmay, ihb hds]
        next hmay =>
          cases hds
          simp [hmay, Scan.first]

/-- A search that finds nothing has decided on every tree in the forest. -/
theorem isOk_bars_of_leftmost {f : Forest R} {depth : Nat} (hf : f.WellFormed)
    (hmax : i.withinMax depth = true) (h : (f.leftmost resolve i depth).result = .ok none) :
    ∀ c ∈ f.components, ∃ barred, i.bars (some c) depth = .ok barred := by
  induction f with
  | nil => simp [components]
  | cons c own s below next _ ihn =>
    obtain ⟨rfl, _, _, _, hwf⟩ := hf
    obtain ⟨hvisit, hnext⟩ := Scan.orElse_result_none h
    intro d hd
    rcases List.mem_cons.mp hd with rfl | hd
    · cases hb : i.bars (some d) depth with
      | ok barred => exact ⟨barred, rfl⟩
      | error v => simp [Interest.screen, hmax, hb, Except.map, Scan.visit, Scan.fault] at hvisit
    · exact ihn hwf hnext d hd

theorem isOk_bars_of_candidates {f : Forest R} {depth : Nat} {rs : List R} (hf : f.WellFormed)
    (hmax : i.withinMax depth = true) (h : f.candidates i depth = .ok rs) :
    ∀ c ∈ f.components, ∃ barred, i.bars (some c) depth = .ok barred := by
  induction f generalizing rs with
  | nil => simp [components]
  | cons c own s below next _ ihn =>
    obtain ⟨rfl, _, _, _, hwf⟩ := hf
    rw [candidates] at h
    split at h
    · cases h
    next bs hbs =>
      intro d hd
      rcases List.mem_cons.mp hd with rfl | hd
      · cases hb : i.bars (some d) depth with
        | ok barred => exact ⟨barred, rfl⟩
        | error v => simp [Interest.screen, hmax, hb, Except.map, gather] at hbs
      · cases hnext : next.candidates i depth with
        | error v => simp [hnext, Except.map] at h
        | ok ns => exact ihn hwf hnext d hd

theorem filter_walk_eq_nil {P : List Component → Bool} {f : Forest R} {path : List Component}
    (h : ∀ c ∈ f.components, ∀ q, P (path ++ c :: q) = false) :
    (f.walk path).filter (fun e => P e.1) = [] := by
  rw [List.filter_eq_nil_iff]
  intro e he
  obtain ⟨c, hc, q, hq⟩ := exists_of_mem_walk he
  simp [hq, h c hc q]

theorem not_passes_of_mem_walk {f : Forest R} {path : List Component}
    (h : ∀ c ∈ f.components, ∀ q, i.passes (path ++ c :: q) = false) :
    (f.walk path).filter (fun e => i.passes e.1) = [] :=
  filter_walk_eq_nil h

/-- The candidates in a forest are the references at paths that pass the screening. -/
theorem candidates_eq {f : Forest R} {path : List Component} (hf : f.WellFormed)
    (hmax : i.withinMax (path.length+1) = true)
    (hbars : ∀ c ∈ f.components,
      i.bars (some c) (path.length+1) = .ok !i.admitsHead (path ++ [c])) :
    f.candidates i (path.length+1) =
      .ok (((f.walk path).filter fun e => i.passes e.1).flatMap (·.2.state.content)) := by
  induction f generalizing path with
  | nil => rfl
  | cons c own s below next ihb ihn =>
    obtain ⟨rfl, _, _, hwf, hwf'⟩ := hf
    have hnext := ihn hwf' hmax fun d hd => hbars d (List.mem_cons_of_mem _ hd)
    have hbar := hbars c (by simp [components])
    rw [candidates, hnext, Interest.screen, hmax, hbar, Interest.suffixCount_succ]
    cases hadmit : i.admitsHead (path ++ [c]) with
    | false =>
      have hhere : i.passes (path ++ [c]) = false := Interest.not_passes_of_admitsHead hadmit
      have hbelow : (below.walk (path ++ [c])).filter (fun e => i.passes e.1) = [] := by
        apply not_passes_of_mem_walk
        intro d _ q
        apply Interest.not_passes_of_admitsHead
        rw [List.append_assoc, List.singleton_append, Interest.admitsHead_append_cons, hadmit]
      simp [walk, gather, Except.map, hhere, hbelow, List.filter_append]
    | true =>
      have hlen : (path ++ [c]).length = path.length+1 := by simp
      have hhere : i.passes (path ++ [c]) = i.withinMin (path.length+1) := by
        rw [Interest.passes, hadmit, hlen, hmax, Interest.suffixCount_succ]
        simp
      have hbelow : (if i.mayDescend (path.length+1) then below.candidates i (path.length+1+1)
          else .ok []) =
          .ok (((below.walk (path ++ [c])).filter fun e => i.passes e.1).flatMap
            (·.2.state.content)) := by
        rw [Interest.mayDescend_eq]
        cases hmore : i.withinMax (path.length+1+1) with
        | true =>
          rw [← hlen] at hmore ⊢
          refine (if_pos rfl).trans (ihb hwf hmore ?_)
          intro d _
          rw [List.append_assoc, List.singleton_append, Interest.admitsHead_append_cons, hadmit, hlen]
          simp [Interest.bars]
        | false =>
          rw [not_passes_of_mem_walk]
          · rfl
          intro d _ q
          apply Interest.not_passes_of_withinMax _ hmore
          simp only [List.length_append, List.length_cons, List.length_nil]
          omega
      rw [hbelow]
      cases hmin : i.withinMin (path.length+1) <;>
        simp [walk, gather, Except.map, hhere, hmin, List.filter_append]

theorem clip_of_floor? {bound : Component} (h : i.floor? = some bound) (f : Forest R) :
    f.clip i = f.above bound := by
  rw [clip, h]

theorem WellFormed.clip {f : Forest R} (hf : f.WellFormed) : (f.clip i).WellFormed := by
  cases hfloor : i.floor? with
  | none => rwa [Forest.clip, hfloor]
  | some bound =>
    rw [clip_of_floor? hfloor]
    induction f with
    | nil => trivial
    | cons c own s below next _ ih =>
      rw [above]
      split
      · exact hf
      · exact ih hf.2.2.2.2

theorem mem_components_clip {f : Forest R} {c : Component} (hc : c ∈ f.components) :
    c ∈ (f.clip i).components ∨ i.excludes c = .ok true := by
  cases hfloor : i.floor? with
  | none =>
    rw [clip, hfloor]
    exact Or.inl hc
  | some bound =>
    rw [clip_of_floor? hfloor]
    induction f with
    | nil => cases hc
    | cons d own s below next _ ih =>
      rw [above]
      split
      · exact Or.inl hc
      next hd =>
        rcases List.mem_cons.mp hc with rfl | hc
        · exact Or.inr (Interest.excludes_of_floor? hfloor hd)
        · exact ih hc

theorem components_clip_subset (f : Forest R) : (f.clip i).components ⊆ f.components := by
  cases hfloor : i.floor? with
  | none =>
    rw [clip, hfloor]
    exact List.Subset.refl _
  | some bound =>
    rw [clip_of_floor? hfloor]
    induction f with
    | nil => exact List.Subset.refl _
    | cons c own s below next _ ih =>
      rw [above]
      split
      · exact List.Subset.refl _
      · exact fun d hd => List.mem_cons_of_mem _ (ih hd)

/-- Trees up to the floor hold nothing that is looked for, if what is excluded is not. -/
theorem filter_walk_clip {P : List Component → Bool} (f : Forest R)
    (hP : ∀ c q, i.excludes c = .ok true → P (c :: q) = false) :
    ((f.clip i).walk []).filter (fun e => P e.1) = (f.walk []).filter fun e => P e.1 := by
  cases hfloor : i.floor? with
  | none => rw [clip, hfloor]
  | some bound =>
    rw [clip_of_floor? hfloor]
    induction f with
    | nil => rfl
    | cons c own s below next _ ih =>
      rw [above]
      split
      · rfl
      next hc =>
        have hout (q : List Component) : P (c :: q) = false :=
          hP c q (Interest.excludes_of_floor? hfloor hc)
        have hbelow : (below.walk [c]).filter (fun e => P e.1) = [] :=
          filter_walk_eq_nil fun d _ q => hout (d :: q)
        simp [walk, hout, hbelow, List.filter_append, ih]

theorem walk_clip (f : Forest R) :
    ((f.clip i).walk []).filter (fun e => i.passes e.1) =
      (f.walk []).filter fun e => i.passes e.1 := by
  apply filter_walk_clip
  intro c q hc
  apply Interest.not_passes_of_admitsHead
  simp [Interest.admitsHead, Interest.admits, hc]

end Forest

namespace Interest

theorem screener_eq (hi : i.WellFormed) : i.screener = .ok ⟨i, hi⟩ := dif_pos hi

theorem screener_eq_error (hi : ¬i.WellFormed) : i.screener = .error .exclusionOutOfOrder :=
  dif_neg hi

end Interest

namespace Node

theorem screen_here (i : Interest) (own : Option Component) :
    i.screen own 0 = .ok (if i.passes [] then .keep else .skip) := by
  cases own <;> simp [Interest.screen, Interest.withinMax_zero, Interest.bars, Except.map,
    Interest.passes, Interest.admitsHead]

theorem candidates_eq {n : Node R} (hn : n.children.WellFormed)
    (h : i.isExact = false → ∀ c ∈ n.children.components, ∃ excluded, i.excludes c = .ok excluded) :
    n.candidates i =
      .ok ((n.walk.filter fun e => i.passes e.1.components).flatMap (·.2.state.content)) := by
  have hbelow : (if i.mayDescend 0 then (n.children.clip i).candidates i 1 else .ok []) =
      .ok (((n.children.walk []).filter fun e => i.passes e.1).flatMap (·.2.state.content)) := by
    rw [Interest.mayDescend_eq]
    cases hexact : i.isExact with
    | true =>
      have hone := Interest.withinMax_one_of_isExact hexact
      rw [Forest.not_passes_of_mem_walk, hone]
      · rfl
      · intro c _ q
        exact Interest.not_passes_of_withinMax (by simp) hone
    | false =>
      have hone := Interest.withinMax_one_of_not_isExact hexact
      rw [if_pos hone, ← Forest.walk_clip]
      refine @Forest.candidates_eq R i (n.children.clip i) [] hn.clip hone ?_
      intro c hc
      obtain ⟨excluded, he⟩ := h hexact c (Forest.components_clip_subset n.children hc)
      simp [Interest.bars, Interest.admitsHead, Interest.admits, he]
  rw [candidates, hbelow, screen_here, walk, List.filter_cons, List.filter_map, List.flatMap_def,
    List.flatMap_def]
  cases hroot : i.passes [] <;> simp [gather, Except.map, hroot, Function.comp_def]

/-- The search for the first answer scans the candidates. -/
theorem leftmost_eq_first {n : Node R} {rs : List R} (hi : i.WellFormed)
    (h : n.candidates i = .ok rs) : n.leftmost resolve i = Scan.first resolve i rs := by
  rw [leftmost, Interest.screener_eq hi]
  apply Scan.visit_eq_first h
  intro bs hbs
  split at hbs
  next hmay => simp [hmay, Forest.leftmost_eq_first hbs]
  next hmay =>
    cases hbs
    simp [hmay, Scan.first]

theorem rightmost_eq_first {n : Node R} {rs : List R} (hi : i.WellFormed)
    (h : n.candidates i = .ok rs) : n.rightmost resolve i = Scan.first resolve i rs.reverse := by
  simp only [rightmost, Interest.screener_eq hi, h]

theorem isOk_excludes_of_clip {f : Forest R}
    (h : ∀ c ∈ (f.clip i).components, ∃ barred, i.bars (some c) 1 = .ok barred) :
    ∀ c ∈ f.components, ∃ excluded, i.excludes c = .ok excluded := by
  intro c hc
  rcases Forest.mem_components_clip hc with hc | hc
  · simpa [Interest.bars] using h c hc
  · exact ⟨true, hc⟩

theorem isOk_excludes_of_leftmost {n : Node R} (hn : n.children.WellFormed)
    (hexact : i.isExact = false) (h : (n.leftmost resolve i).result = .ok none) :
    ∀ c ∈ n.children.components, ∃ excluded, i.excludes c = .ok excluded := by
  have hone := Interest.withinMax_one_of_not_isExact hexact
  have hbelow : ((n.children.clip i).leftmost resolve i 1).result = .ok none := by
    rw [leftmost] at h
    by_cases hi : i.WellFormed
    · simp only [Interest.screener_eq hi, screen_here, Interest.mayDescend_eq, if_pos hone] at h
      cases hroot : i.passes [] with
      | true =>
        rw [hroot] at h
        exact (Scan.orElse_result_none h).2
      | false =>
        rw [hroot] at h
        exact h
    · rw [Interest.screener_eq_error hi] at h
      cases h
  apply isOk_excludes_of_clip
  exact Forest.isOk_bars_of_leftmost hn.clip hone hbelow

theorem isOk_excludes_of_rightmost {n : Node R} {found : Option (Match R)}
    (hn : n.children.WellFormed) (hexact : i.isExact = false)
    (h : (n.rightmost resolve i).result = .ok found) :
    ∀ c ∈ n.children.components, ∃ excluded, i.excludes c = .ok excluded := by
  have hone := Interest.withinMax_one_of_not_isExact hexact
  apply isOk_excludes_of_clip
  rw [rightmost] at h
  by_cases hi : i.WellFormed
  · rw [Interest.screener_eq hi] at h
    cases hc : n.candidates i with
    | error v => simp [hc, Scan.fault] at h
    | ok rs =>
      rw [candidates, Interest.mayDescend_eq, if_pos hone, screen_here] at hc
      cases hbelow : (n.children.clip i).candidates i 1 with
      | error v =>
        rw [hbelow] at hc
        cases hroot : i.passes [] <;> simp [gather, Except.map, hroot] at hc
      | ok bs => exact Forest.isOk_bars_of_candidates hn.clip hone hbelow
  · rw [Interest.screener_eq_error hi] at h
    cases h

theorem isOk_excludes_of_search {n : Node R} {selector : Selector} (hn : n.children.WellFormed)
    (hexact : i.isExact = false)
    (h : (n.search resolve i selector).result = .ok none) :
    ∀ c ∈ n.children.components, ∃ excluded, i.excludes c = .ok excluded := by
  cases selector with
  | leftmost => exact isOk_excludes_of_leftmost hn hexact h
  | rightmost => exact isOk_excludes_of_rightmost hn hexact h

end Node

end NamedData
