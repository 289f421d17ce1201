import NamedData.Proofs.History
import NamedData.Proofs.Search

namespace NamedData

variable {R : Type} {resolve : Resolver R} {i : Interest}

namespace Interest

/-- A stored reference answers an Interest while it resolves and the content matches. -/
def Answers (i : Interest) (resolve : Resolver R) (e : Match R) : Prop :=
  resolve e.ref = some e.content ∧ i.matchesContent e.content = .ok true

def AnswersBelow (i : Interest) (resolve : Resolver R) (e : Match R) : Prop :=
  i.name.isPrefixOf e.content.name = true ∧ i.Answers resolve e

instance (e : Match R) : Decidable (i.Answers resolve e) :=
  inferInstanceAs (Decidable (_ ∧ _))

instance (e : Match R) : Decidable (i.AnswersBelow resolve e) :=
  inferInstanceAs (Decidable (_ ∧ _))

end Interest

/-- The first of all entries with a property, in the order of names and then of insertion. -/
def IsLeftmost (P : Match R → Prop) (stored : List (Match R)) (e : Match R) : Prop :=
  P e ∧ ∃ before after, stored = before ++ e :: after ∧
    (∀ a ∈ before, P a → e.content.name < a.content.name) ∧
    ∀ a ∈ after, P a → e.content.name ≤ a.content.name

/-- The last of all entries with a property, in the order of names and then of insertion. -/
def IsRightmost (P : Match R → Prop) (stored : List (Match R)) (e : Match R) : Prop :=
  P e ∧ ∃ before after, stored = before ++ e :: after ∧
    (∀ a ∈ before, P a → a.content.name ≤ e.content.name) ∧
    ∀ a ∈ after, P a → a.content.name < e.content.name

theorem IsLeftmost.mem {P : Match R → Prop} {stored : List (Match R)} {e : Match R}
    (h : IsLeftmost P stored e) : e ∈ stored := by
  obtain ⟨_, before, after, hsplit, _⟩ := h
  simp [hsplit]

theorem IsLeftmost.name_le {P : Match R → Prop} {stored : List (Match R)} {e a : Match R}
    (h : IsLeftmost P stored e) (ha : a ∈ stored) (hP : P a) : e.content.name ≤ a.content.name := by
  obtain ⟨_, before, after, hsplit, hbefore, hafter⟩ := h
  rw [hsplit, List.mem_append, List.mem_cons] at ha
  rcases ha with ha | rfl | ha
  · exact (hbefore a ha hP).le
  · exact le_rfl
  · exact hafter a ha hP

theorem IsRightmost.mem {P : Match R → Prop} {stored : List (Match R)} {e : Match R}
    (h : IsRightmost P stored e) : e ∈ stored := by
  obtain ⟨_, before, after, hsplit, _⟩ := h
  simp [hsplit]

theorem eq_or_mem_of_splits {α : Type} {a b : α} {before after before' after' : List α}
    (h : before ++ a :: after = before' ++ b :: after') :
    a = b ∨ (a ∈ before' ∧ b ∈ after) ∨ (b ∈ before ∧ a ∈ after') := by
  rcases List.append_eq_append_iff.mp h with ⟨between, hlong, hrest⟩ | ⟨between, hlong, hrest⟩
  · cases between with
    | nil => exact Or.inl (List.cons.inj hrest).1
    | cons c between =>
      obtain ⟨rfl, rfl⟩ := List.cons.inj hrest
      exact Or.inr (Or.inl ⟨by simp [hlong], by simp⟩)
  · cases between with
    | nil => exact Or.inl (List.cons.inj hrest).1.symm
    | cons c between =>
      obtain ⟨rfl, rfl⟩ := List.cons.inj hrest
      exact Or.inr (Or.inr ⟨by simp [hlong], by simp⟩)

theorem IsLeftmost.unique {P : Match R → Prop} {stored : List (Match R)} {e d : Match R}
    (he : IsLeftmost P stored e) (hd : IsLeftmost P stored d) : e = d := by
  obtain ⟨hPe, before, after, hsplit, hbefore, hafter⟩ := he
  obtain ⟨hPd, before', after', hsplit', hbefore', hafter'⟩ := hd
  rcases eq_or_mem_of_splits (hsplit.symm.trans hsplit') with heq | ⟨hin, hout⟩ | ⟨hin, hout⟩
  · exact heq
  · exact absurd (hbefore' e hin hPe) (not_lt.mpr (hafter d hout hPd))
  · exact absurd (hbefore d hin hPd) (not_lt.mpr (hafter' e hout hPe))

theorem IsRightmost.unique {P : Match R → Prop} {stored : List (Match R)} {e d : Match R}
    (he : IsRightmost P stored e) (hd : IsRightmost P stored d) : e = d := by
  obtain ⟨hPe, before, after, hsplit, hbefore, hafter⟩ := he
  obtain ⟨hPd, before', after', hsplit', hbefore', hafter'⟩ := hd
  rcases eq_or_mem_of_splits (hsplit.symm.trans hsplit') with heq | ⟨hin, hout⟩ | ⟨hin, hout⟩
  · exact heq
  · exact absurd (hafter d hout hPd) (not_lt.mpr (hbefore' e hin hPe))
  · exact absurd (hafter' e hout hPe) (not_lt.mpr (hbefore d hin hPd))

/-- An answer comes back: nothing if no entry has the property, and else a best one. -/
def Selects (result : Except Violation (Option (Match R))) (P : Match R → Prop)
    (stored : List (Match R)) (Best : Match R → Prop) : Prop :=
  ∃ found, result = .ok found ∧ (found = none ↔ ∀ e ∈ stored, ¬P e) ∧
    ∀ e, found = some e → Best e

theorem Selects.imp {result : Except Violation (Option (Match R))} {P Q : Match R → Prop}
    {stored : List (Match R)} {Best Good : Match R → Prop} (h : Selects result P stored Best)
    (hP : ∀ e ∈ stored, P e ↔ Q e) (hBest : ∀ e, Best e → Good e) :
    Selects result Q stored Good := by
  obtain ⟨found, hfound, hnone, hsome⟩ := h
  refine ⟨found, hfound, hnone.trans ?_, fun e he => hBest e (hsome e he)⟩
  exact forall₂_congr fun e he => not_congr (hP e he)

theorem Selects.exists_of_mem {result : Except Violation (Option (Match R))}
    {P Best : Match R → Prop} {stored : List (Match R)} {e : Match R}
    (h : Selects result P stored Best) (he : e ∈ stored) (hP : P e) :
    ∃ a, result = .ok (some a) ∧ Best a := by
  obtain ⟨found, hfound, hnone, hsome⟩ := h
  cases found with
  | none => exact absurd hP (hnone.mp rfl e he)
  | some a => exact ⟨a, hfound, hsome a rfl⟩

section Groups

variable {stored : List (Match R)} {names : List Name} {p : Match R → Bool}

theorem find?_groups_eq_none_iff (hall : ∀ e ∈ stored, p e = true → e.content.name ∈ names) :
    (names.flatMap fun n => stored.filter fun e => e.content.name = n).find? p = none ↔
      ∀ e ∈ stored, ¬p e = true := by
  rw [List.find?_eq_none]
  constructor
  · intro hnone e he hp
    refine hnone e (List.mem_flatMap.mpr ⟨e.content.name, hall e he hp, ?_⟩) hp
    simp [he]
  · intro hnone e he
    obtain ⟨n, _, hn⟩ := List.mem_flatMap.mp he
    exact hnone e (List.mem_of_mem_filter hn)

/-- The first entry that is found among groups has the first name, and the first place of those
with this name. -/
theorem split_of_find?_groups {lt : Name → Name → Prop} {e : Match R} (hnames : names.Pairwise lt)
    (hall : ∀ e ∈ stored, p e = true → e.content.name ∈ names)
    (h : (names.flatMap fun n => stored.filter fun e => e.content.name = n).find? p = some e) :
    ∃ before after, stored = before ++ e :: after ∧
      (∀ a ∈ before, p a = true → lt e.content.name a.content.name) ∧
      ∀ a ∈ after, p a = true →
        a.content.name = e.content.name ∨ lt e.content.name a.content.name := by
  induction names with
  | nil => cases h
  | cons n names ih =>
    obtain ⟨hlt, hnames⟩ := List.pairwise_cons.mp hnames
    rw [List.flatMap_cons, List.find?_append] at h
    cases hn : (stored.filter fun e => e.content.name = n).find? p with
    | some d =>
      rw [hn, Option.some_or, Option.some.injEq] at h
      subst h
      rw [List.find?_filter, List.find?_eq_some_iff_append] at hn
      obtain ⟨hd, before, after, hsplit, hbefore⟩ := hn
      have hname : d.content.name = n := by
        simp only [decide_eq_true_eq] at hd
        exact hd.1
      have hlater (a : Match R) (ha : a ∈ stored) (hp : p a = true) :
          a.content.name = d.content.name ∨ lt d.content.name a.content.name := by
        rw [hname]
        rcases List.mem_cons.mp (hall a ha hp) with heq | hmem
        · exact Or.inl heq
        · exact Or.inr (hlt _ hmem)
      refine ⟨before, after, hsplit, ?_, ?_⟩
      · intro a ha hp
        rcases hlater a (by simp [hsplit, ha]) hp with heq | hlt
        · have hno := hbefore a ha
          simp [heq, hname, hp] at hno
        · exact hlt
      · intro a ha hp
        exact hlater a (by simp [hsplit, ha]) hp
    | none =>
      rw [hn, Option.none_or] at h
      refine ih hnames ?_ h
      intro a ha hp
      rcases List.mem_cons.mp (hall a ha hp) with heq | hmem
      · have hin : a ∈ stored.filter fun e => e.content.name = n := by simp [ha, heq]
        exact absurd hp (List.find?_eq_none.mp hn a hin)
      · exact hmem

end Groups

namespace Interest

def screened (i : Interest) (n : Node R) : List Name :=
  (n.walk.filter fun e => i.passes e.1.components).map fun e => i.name ++ e.1

theorem screened_ascending {n : Node R} (hn : n.children.WellFormed) :
    (i.screened n).Pairwise (· < ·) := by
  rw [screened, List.pairwise_map]
  have hwalk := List.pairwise_map.mp (Node.walk_ascending hn)
  exact (hwalk.filter _).imp fun hlt => Name.append_lt_append i.name hlt

end Interest

namespace History

variable {h : History R} {n : Node R}

theorem first_stored (hf : h.Faithful resolve) {es : List (Match R)} {p : Match R → Bool}
    (hes : es ⊆ h.stored) (hok : ∀ e ∈ es, ∃ hit, i.matchesContent e.content = .ok hit)
    (hp : ∀ e ∈ es, p e = true ↔ i.Answers resolve e) :
    (Scan.first resolve i (es.map (·.ref))).result = .ok (es.find? p) := by
  rw [Scan.first_result]
  · congr 1
    induction es with
    | nil => rfl
    | cons e es ih =>
      have hrest := ih (fun a ha => hes (List.mem_cons_of_mem _ ha))
        (fun a ha => hok a (List.mem_cons_of_mem _ ha))
        (fun a ha => hp a (List.mem_cons_of_mem _ ha))
      have hanswer : Scan.answer? resolve i e.ref = if p e = true then some e else none := by
        rw [Scan.answer?]
        simp only [hp e (by simp), Interest.Answers]
        rcases hf e (hes (by simp)) with hr | hr
        · simp [hr]
        · obtain ⟨hit, hhit⟩ := hok e (by simp)
          cases hit <;> simp [hr, hhit]
      rw [List.map_cons, List.findSome?_cons, List.find?_cons, hanswer, hrest]
      cases p e <;> rfl
  · intro r hr o ho
    obtain ⟨e, he, rfl⟩ := List.mem_map.mp hr
    rcases hf e (hes he) with hnone | hsome
    · cases hnone.symm.trans ho
    · rw [hsome, Option.some.injEq] at ho
      rw [← ho]
      exact hok e he

theorem Recorded.descend?_of_mem (hh : h.Recorded) {e : Match R} (he : e ∈ h.stored) :
    ∃ m, h.index.root.descend? e.content.name.components = some m := by
  have hin : e ∈ h.storedAt e.content.name := by simp [storedAt, he]
  cases hm : h.index.root.descend? e.content.name.components with
  | some m => exact ⟨m, rfl⟩
  | none =>
    have hcontents := hh.contents e.content.name
    rw [Node.contents, Node.state?, hm] at hcontents
    rw [List.map_eq_nil_iff.mp hcontents.symm] at hin
    cases hin

theorem Recorded.content_of_mem_walk (hh : h.Recorded)
    (hn : h.index.root.descend? i.name.components = some n) {e : Name × Node R}
    (he : e ∈ n.walk) :
    e.2.state.content = (h.storedAt (i.name ++ e.1)).map (·.ref) := by
  obtain ⟨hwf, _⟩ := Node.descend?_wellFormed hh.wellFormed hn
  have hdescend : h.index.root.descend? (i.name ++ e.1).components = some e.2 := by
    rw [Name.components_append, Node.descend?_append, hn]
    exact (Node.mem_walk_iff hwf e.1 e.2).mp he
  rw [← hh.contents, Node.contents_of_descend? hdescend]

theorem Recorded.candidates_eq (hh : h.Recorded) (hi : i.Settled)
    (hn : h.index.root.descend? i.name.components = some n) :
    n.candidates i = .ok (((i.screened n).flatMap h.storedAt).map (·.ref)) := by
  obtain ⟨hwf, _⟩ := Node.descend?_wellFormed hh.wellFormed hn
  rw [Node.candidates_eq hwf]
  · rw [Interest.screened, List.flatMap_map, List.map_flatMap, List.flatMap_def, List.flatMap_def]
    congr 2
    apply List.map_congr_left
    intro e he
    exact hh.content_of_mem_walk hn (List.mem_of_mem_filter he)
  · intro hexact c hc
    rcases hi with hi | hi
    · cases hi.symm.trans hexact
    · exact hi c (hwf.isEmpty_of_mem hc)

/-- Screening leaves every answer below the Interest's name. -/
theorem Recorded.mem_screened (hh : h.Recorded)
    (hn : h.index.root.descend? i.name.components = some n) {e : Match R} (he : e ∈ h.stored)
    (ha : i.AnswersBelow resolve e) : e.content.name ∈ i.screened n := by
  obtain ⟨hwf, _⟩ := Node.descend?_wellFormed hh.wellFormed hn
  obtain ⟨p, hp⟩ := Name.isPrefixOf_iff.mp ha.1
  obtain ⟨m, hm⟩ := hh.descend?_of_mem he
  have hwalk : (p, m) ∈ n.walk := by
    rw [Node.mem_walk_iff hwf]
    rwa [hp, Name.components_append, Node.descend?_append, hn] at hm
  have hpass : i.passes p.components = true := Interest.passes_of_matchesContent hp ha.2.2
  rw [hp]
  exact List.mem_map.mpr ⟨(p, m), List.mem_filter.mpr ⟨hwalk, hpass⟩, rfl⟩

theorem Recorded.below_of_mem_screened (hh : h.Recorded) (hi : i.Settled)
    (hn : h.index.root.descend? i.name.components = some n) {e : Match R}
    (he : e ∈ (i.screened n).flatMap h.storedAt) :
    e ∈ h.stored ∧ i.name.isPrefixOf e.content.name = true ∧
      ∃ hit, i.matchesContent e.content = .ok hit := by
  obtain ⟨hwf, _⟩ := Node.descend?_wellFormed hh.wellFormed hn
  obtain ⟨name, hname, hat⟩ := List.mem_flatMap.mp he
  obtain ⟨⟨p, m⟩, hwalk, rfl⟩ := List.mem_map.mp hname
  have hstored := List.mem_filter.mp hat
  have hp : e.content.name = i.name ++ p := by simpa using hstored.2
  have hdescend := (Node.mem_walk_iff hwf p m).mp (List.mem_of_mem_filter hwalk)
  refine ⟨hstored.1, Name.isPrefixOf_iff.mpr ⟨p, hp⟩, ?_⟩
  exact Interest.isOk_matchesContent hi hp (Node.descend?_wellFormed hwf hdescend).2

theorem reverse_flatMap_storedAt (h : History R) (names : List Name) :
    (names.flatMap h.storedAt).reverse =
      names.reverse.flatMap fun n => h.stored.reverse.filter fun e => e.content.name = n := by
  rw [List.reverse_flatMap]
  congr 1
  funext n
  exact (List.filter_reverse).symm

theorem Recorded.first_screened (hh : h.Recorded) (hf : h.Faithful resolve) (hs : i.Settled)
    (hn : h.index.root.descend? i.name.components = some n) {es : List (Match R)}
    (hes : es ⊆ (i.screened n).flatMap h.storedAt) :
    (Scan.first resolve i (es.map (·.ref))).result =
      .ok (es.find? fun e => decide (i.AnswersBelow resolve e)) := by
  have hbelow (e : Match R) (he : e ∈ es) := hh.below_of_mem_screened hs hn (hes he)
  apply first_stored hf
  · exact fun e he => (hbelow e he).1
  · exact fun e he => (hbelow e he).2.2
  · intro e he
    simp [Interest.AnswersBelow, (hbelow e he).2.1]

/-- The search for the first answer selects it among all that is stored. -/
theorem Recorded.leftmost_selects (hh : h.Recorded) (hf : h.Faithful resolve)
    (hi : i.WellFormed) (hs : i.Settled)
    (hn : h.index.root.descend? i.name.components = some n) :
    Selects (n.leftmost resolve i).result (i.AnswersBelow resolve) h.stored
      (IsLeftmost (i.AnswersBelow resolve) h.stored) := by
  have hascend : (i.screened n).Pairwise (· < ·) :=
    Interest.screened_ascending (Node.descend?_wellFormed hh.wellFormed hn).1
  have hcover : ∀ e ∈ h.stored, decide (i.AnswersBelow resolve e) = true →
      e.content.name ∈ i.screened n := by
    intro e he ha
    exact hh.mem_screened hn he (of_decide_eq_true ha)
  have hresult := hh.first_screened hf hs hn (List.Subset.refl _)
  rw [← Node.leftmost_eq_first hi (hh.candidates_eq hs hn)] at hresult
  refine ⟨_, hresult, (find?_groups_eq_none_iff hcover).trans (by simp), ?_⟩
  intro e he
  obtain ⟨before, after, hsplit, hbefore, hafter⟩ := split_of_find?_groups hascend hcover he
  refine ⟨of_decide_eq_true (List.find?_some he :), before, after, hsplit, ?_, ?_⟩
  · intro a ha hanswer
    exact hbefore a ha (decide_eq_true hanswer)
  · intro a ha hanswer
    rcases hafter a ha (decide_eq_true hanswer) with heq | hlt
    · exact heq.ge
    · exact hlt.le

/-- The search for the last answer selects it among all that is stored. -/
theorem Recorded.rightmost_selects (hh : h.Recorded) (hf : h.Faithful resolve)
    (hi : i.WellFormed) (hs : i.Settled)
    (hn : h.index.root.descend? i.name.components = some n) :
    Selects (n.rightmost resolve i).result (i.AnswersBelow resolve) h.stored
      (IsRightmost (i.AnswersBelow resolve) h.stored) := by
  have hdescend : (i.screened n).reverse.Pairwise (· > ·) := by
    rw [List.pairwise_reverse]
    exact Interest.screened_ascending (Node.descend?_wellFormed hh.wellFormed hn).1
  have hcover : ∀ e ∈ h.stored.reverse, decide (i.AnswersBelow resolve e) = true →
      e.content.name ∈ (i.screened n).reverse := by
    intro e he ha
    rw [List.mem_reverse] at he ⊢
    exact hh.mem_screened hn he (of_decide_eq_true ha)
  have hresult := hh.first_screened hf hs hn (List.reverse_subset.mpr (List.Subset.refl _))
  rw [List.map_reverse, ← Node.rightmost_eq_first hi (hh.candidates_eq hs hn),
    reverse_flatMap_storedAt] at hresult
  refine ⟨_, hresult, (find?_groups_eq_none_iff hcover).trans (by simp), ?_⟩
  intro e he
  obtain ⟨after, before, hsplit, hafter, hbefore⟩ := split_of_find?_groups hdescend hcover he
  have hstored : h.stored = before.reverse ++ e :: after.reverse := by
    rw [← List.reverse_reverse h.stored, hsplit]
    simp
  refine ⟨of_decide_eq_true (List.find?_some he :), before.reverse, after.reverse, hstored, ?_, ?_⟩
  · intro a ha hanswer
    rcases hbefore a (List.mem_reverse.mp ha) (decide_eq_true hanswer) with heq | hlt
    · exact heq.le
    · exact hlt.le
  · intro a ha hanswer
    exact hafter a (List.mem_reverse.mp ha) (decide_eq_true hanswer)

end History

end NamedData
