import Mathlib.Data.List.Sort
import NamedData.Proofs.Gaps
import NamedData.Proofs.Probes

namespace NamedData

section Repetitions

theorem eraseReps_loop {α : Type} [BEq α] (a : α) (bs done : List α) :
    List.eraseRepsBy.loop (fun x y => x == y) a bs done = done.reverse ++ (a :: bs).eraseReps := by
  induction bs generalizing a done with
  | nil => simp [List.eraseRepsBy.loop, List.eraseReps, List.eraseRepsBy]
  | cons b bs ih =>
    rw [List.eraseReps, List.eraseRepsBy, List.eraseRepsBy.loop, List.eraseRepsBy.loop]
    cases a == b with
    | true => simp only [ih, List.reverse_nil, List.nil_append]
    | false => simp only [ih, List.reverse_cons, List.reverse_nil, List.nil_append, List.append_assoc]

variable {α : Type} [LinearOrder α] [BEq α] [LawfulBEq α]

theorem eraseReps_cons_cons (a b : α) (l : List α) :
    (a :: b :: l).eraseReps = if a = b then (b :: l).eraseReps else a :: (b :: l).eraseReps := by
  rw [List.eraseReps, List.eraseRepsBy, List.eraseRepsBy.loop]
  split
  next heq =>
    have hab : a = b := by simpa using heq
    rw [eraseReps_loop, if_pos hab, hab]
    rfl
  next hne =>
    have hab : a ≠ b := by simpa using hne
    rw [eraseReps_loop, if_neg hab]
    rfl

theorem mem_eraseReps {a : α} {l : List α} : a ∈ l.eraseReps ↔ a ∈ l := by
  induction l with
  | nil => rfl
  | cons b l ih =>
    cases l with
    | nil => rfl
    | cons c l =>
      rw [eraseReps_cons_cons]
      split
      next hbc => simp [ih, hbc]
      next => simp only [List.mem_cons, ih]

/-- In ascending order equal members are neighbours, so that none is left twice. -/
theorem pairwise_eraseReps {l : List α} (hl : l.Pairwise (· ≤ ·)) :
    l.eraseReps.Pairwise (· < ·) := by
  induction l with
  | nil => exact List.Pairwise.nil
  | cons a l ih =>
    cases l with
    | nil => exact List.pairwise_singleton _ _
    | cons b l =>
      obtain ⟨hleast, hrest⟩ := List.pairwise_cons.mp hl
      rw [eraseReps_cons_cons]
      split
      next => exact ih hrest
      next hne =>
        refine List.pairwise_cons.mpr ⟨?_, ih hrest⟩
        intro c hc
        have hab : a < b := lt_of_le_of_ne (hleast b (by simp)) hne
        rcases List.mem_cons.mp (mem_eraseReps.mp hc) with rfl | hc
        · exact hab
        · exact hab.trans_le ((List.pairwise_cons.mp hrest).1 c hc)

end Repetitions

namespace Exclusion

variable {x : Exclusion} {cs ds : List Component} {c : Component}

def Explicit (x : Exclusion) : Prop := ∀ e ∈ x.elements, e.isRange = false

theorem Explicit.gap_eq_nil (hx : x.Explicit) (c : Component) : x.gap c = [] := by
  rw [gap, List.rtakeWhile_eq_nil_iff]
  intro hne
  have hlast : (x.elements.takeWhile (Element.precedes c)).getLast hne ∈ x.elements :=
    (List.takeWhile_sublist _).mem (List.getLast_mem hne)
  simp [hx _ hlast]

/-- Without ranges, what is excluded is what is listed. -/
theorem Explicit.excludes_eq (hx : x.Explicit) (hwf : x.WellFormed) (c : Component) :
    x.excludes c = .ok (decide (c ∈ x.components)) := by
  rw [Exclusion.excludes_eq hwf, hx.gap_eq_nil]
  simp only [mem_components_iff]
  split
  next hc => simp [hc]
  next hc => simp [hc, anyCovers]

theorem Explicit.floor?_eq_none (hx : x.Explicit) : x.floor? = none := by
  rw [floor?]
  split
  next b es hopens =>
    have hany : Element.isRange .any = false := hx .any (by simp [hopens])
    cases hany
  next => rfl

theorem components_ofComponents (cs : List Component) :
    (ofComponents cs).components = (cs.mergeSort fun a b => !decide (b < a)).eraseReps := by
  simp [components, ofComponents, List.filterMap_map, Function.comp_def, Element.component?]

theorem elements_ofComponents (cs : List Component) :
    (ofComponents cs).elements = (ofComponents cs).components.map .component := by
  rw [components_ofComponents]
  rfl

theorem mem_components_ofComponents : c ∈ (ofComponents cs).components ↔ c ∈ cs := by
  rw [components_ofComponents, mem_eraseReps, List.mem_mergeSort]

theorem wellFormed_ofComponents (cs : List Component) : (ofComponents cs).WellFormed := by
  rw [WellFormed, components_ofComponents]
  apply pairwise_eraseReps
  have hsorted : (cs.mergeSort fun a b => !decide (b < a)).Pairwise
      fun a b => (!decide (b < a)) = true := by
    apply List.pairwise_mergeSort
    · intro a b c hab hbc
      simp only [Bool.not_eq_true', decide_eq_false_iff_not, not_lt] at hab hbc ⊢
      exact hab.trans hbc
    · intro a b
      simpa using le_total a b
  simpa using hsorted

theorem explicit_ofComponents (cs : List Component) : (ofComponents cs).Explicit := by
  intro e he
  rw [elements_ofComponents] at he
  obtain ⟨c, _, rfl⟩ := List.mem_map.mp he
  rfl

theorem mem_elements_ofComponents {e : Element} :
    e ∈ (ofComponents cs).elements ↔ ∃ c ∈ cs, e = .component c := by
  rw [elements_ofComponents, List.mem_map]
  simp only [mem_components_ofComponents, eq_comm]

theorem excludes_ofComponents (cs : List Component) (c : Component) :
    (ofComponents cs).excludes c = .ok (decide (c ∈ cs)) := by
  rw [(explicit_ofComponents cs).excludes_eq (wellFormed_ofComponents cs)]
  simp only [mem_components_ofComponents]

/-- A strictly ascending list is determined by its members. -/
theorem ofComponents_eq_iff : ofComponents cs = ofComponents ds ↔ ∀ c, c ∈ cs ↔ c ∈ ds := by
  constructor
  · intro heq c
    rw [← mem_components_ofComponents, heq, mem_components_ofComponents]
  · intro hmem
    have hcomponents : (ofComponents cs).components = (ofComponents ds).components := by
      apply List.Pairwise.eq_of_mem_iff (wellFormed_ofComponents cs) (wellFormed_ofComponents ds)
      intro c
      rw [mem_components_ofComponents, mem_components_ofComponents, hmem]
    have helements : (ofComponents cs).elements = (ofComponents ds).elements := by
      rw [elements_ofComponents, elements_ofComponents, hcomponents]
    exact congrArg Exclusion.mk helements

end Exclusion

variable {R : Type} {i : Interest}

theorem Scan.isOk_first (htells : ∀ c, ∃ excluded, i.excludes c = .ok excluded)
    (resolve : Resolver R) (rs : List R) : ∃ found, (first resolve i rs).result = .ok found := by
  rw [first_result]
  · exact ⟨_, rfl⟩
  · intro r _ o _
    exact Interest.isOk_matchesContent_iff.mpr fun _ _ c _ => htells c

theorem Interest.isOk_screen (htells : ∀ c, ∃ excluded, i.excludes c = .ok excluded)
    (own : Option Component) (depth : Nat) : ∃ verdict, i.screen own depth = .ok verdict := by
  have hbars : ∃ barred, i.bars own depth = .ok barred := by
    cases own with
    | none => exact ⟨false, rfl⟩
    | some c =>
      rw [bars]
      split
      · exact htells c
      · exact ⟨false, rfl⟩
  obtain ⟨barred, hbarred⟩ := hbars
  rw [screen, hbarred]
  split
  · exact ⟨.prune, rfl⟩
  · exact ⟨_, rfl⟩

theorem isOk_gather {verdict : Except Violation Verdict} {below : Except Violation (List R)}
    (hverdict : ∃ v, verdict = .ok v) (content : List R) (hbelow : ∃ rs, below = .ok rs) :
    ∃ rs, gather verdict content below = .ok rs := by
  obtain ⟨v, rfl⟩ := hverdict
  obtain ⟨rs, rfl⟩ := hbelow
  cases v <;> exact ⟨_, rfl⟩

theorem Forest.isOk_candidates (htells : ∀ c, ∃ excluded, i.excludes c = .ok excluded)
    (f : Forest R) (depth : Nat) : ∃ rs, f.candidates i depth = .ok rs := by
  induction f generalizing depth with
  | nil => exact ⟨[], rfl⟩
  | cons c own s below next ihb ihn =>
    have hbelow : ∃ rs, (if i.mayDescend depth then below.candidates i (depth+1) else .ok []) =
        .ok rs := by
      split
      · exact ihb (depth+1)
      · exact ⟨[], rfl⟩
    obtain ⟨rs, hrs⟩ := isOk_gather (i.isOk_screen htells own depth) s.content hbelow
    obtain ⟨others, hothers⟩ := ihn depth
    rw [candidates, hrs, hothers]
    exact ⟨rs ++ others, rfl⟩

/-- Whatever components the nodes carry, the search can tell of each whether it is excluded. -/
theorem Node.isOk_search (hi : i.WellFormed) (htells : ∀ c, ∃ excluded, i.excludes c = .ok excluded)
    (resolve : Resolver R) (preferred : Selector) (n : Node R) :
    ∃ found, (n.search resolve i preferred).result = .ok found := by
  have hbelow : ∃ rs, (if i.mayDescend 0 then (n.children.clip i).candidates i 1 else .ok []) =
      .ok rs := by
    split
    · exact Forest.isOk_candidates htells _ 1
    · exact ⟨[], rfl⟩
  obtain ⟨rs, hrs⟩ := isOk_gather (i.isOk_screen htells n.component 0) n.state.content hbelow
  cases preferred with
  | leftmost =>
    rw [search, leftmost_eq_first hi hrs]
    exact Scan.isOk_first htells resolve _
  | rightmost =>
    rw [search, rightmost_eq_first hi hrs]
    exact Scan.isOk_first htells resolve _

/-- No Interest whose exclusion ascends and can always tell stops an index. -/
theorem Index.isOk_get (hi : i.WellFormed) (htells : ∀ c, ∃ excluded, i.excludes c = .ok excluded)
    {x : Index R} (hx : x.root.component = none) (resolve : Resolver R) :
    ∃ found, (x.get resolve i).result = .ok found := by
  have hdigest : ∃ found, (x.byDigest resolve i).result = .ok found := by
    rw [byDigest]
    cases i.name.length with
    | zero => exact ⟨none, rfl⟩
    | succ depth =>
      simp only [lookupNode_eq hx]
      cases x.node? i.name depth with
      | none => exact ⟨none, rfl⟩
      | some parent => exact Scan.isOk_first htells resolve _
  cases hexact : i.isExact with
  | true =>
    rw [get, scan, if_pos hexact, lookup_eq hx]
    split
    next hfault => cases hfault
    · exact Scan.isOk_first htells resolve _
    · exact hdigest
  | false =>
    cases hn : x.node? i.name i.name.length with
    | none =>
      rw [get_of_node?_eq_none hx hexact hn]
      exact hdigest
    | some n =>
      rw [get_of_node? hx hexact hn]
      exact Node.isOk_search hi htells resolve _ n

theorem Index.get_of_component {x : Index R} {c : Component} (hx : x.root.component = some c)
    (resolve : Resolver R) (i : Interest) : (x.get resolve i).result = .error .rootComponent := by
  simp only [get, scan, lookup, lookupNode_of_component hx]
  cases i.isExact <;> rfl

namespace Exclusion

/-- The exclusion of some given components ascends, lists them and nothing else, excludes them and
nothing else, and depends on nothing but which components they are. An Interest with it passes the
check that it ascends, and no search for it is stopped. -/
theorem ofComponents_exact (cs : List Component) :
    (ofComponents cs).WellFormed ∧
    (∀ e, e ∈ (ofComponents cs).elements ↔ ∃ c ∈ cs, e = .component c) ∧
    (∀ c, (ofComponents cs).excludes c = .ok (decide (c ∈ cs))) ∧
    (ofComponents cs).floor? = none ∧
    (∀ ds, ofComponents cs = ofComponents ds ↔ ∀ c, c ∈ cs ↔ c ∈ ds) ∧
    ∀ i : Interest, i.exclusion = some (ofComponents cs) →
      i.WellFormed ∧ (∃ s, i.screener = .ok s ∧ s.toInterest = i) ∧
      ∀ (R : Type) (resolve : Resolver R),
        (∀ (n : Node R) preferred, ∃ found, (n.search resolve i preferred).result = .ok found) ∧
        ∀ x : Index R, (x.get resolve i).result ≠ .error .exclusionOutOfOrder ∧
          (x.root.component = none → ∃ found, (x.get resolve i).result = .ok found) := by
  refine ⟨wellFormed_ofComponents cs, fun e => mem_elements_ofComponents,
    excludes_ofComponents cs, (explicit_ofComponents cs).floor?_eq_none,
    fun ds => ofComponents_eq_iff, ?_⟩
  intro i hexclusion
  have hi : i.WellFormed := by
    intro x hx
    rw [hexclusion, Option.mem_some_iff] at hx
    rw [← hx]
    exact wellFormed_ofComponents cs
  have htells (c : Component) : ∃ excluded, i.excludes c = .ok excluded := by
    rw [Interest.excludes, hexclusion]
    exact ⟨_, excludes_ofComponents cs c⟩
  refine ⟨hi, ⟨⟨i, hi⟩, Interest.screener_eq hi, rfl⟩, ?_⟩
  intro R resolve
  refine ⟨fun n preferred => Node.isOk_search hi htells resolve preferred n, ?_⟩
  intro x
  refine ⟨?_, fun hx => Index.isOk_get hi htells hx resolve⟩
  intro hstopped
  cases hx : x.root.component with
  | none =>
    obtain ⟨found, hfound⟩ := Index.isOk_get hi htells hx resolve
    cases hfound.symm.trans hstopped
  | some c => cases (Index.get_of_component hx resolve i).symm.trans hstopped

def exceptBAB : Interest :=
  { Interest.ofName .root with exclusion := some (ofComponents [⟨[98]⟩, ⟨[97]⟩, ⟨[98]⟩]) }

/-- Between a and b lies ab, which begins with a and is not excluded. -/
theorem ofComponents_exact_exceptBAB :
    exceptBAB.exclusion = some (ofComponents [⟨[98]⟩, ⟨[97]⟩, ⟨[98]⟩]) ∧
    ofComponents [⟨[98]⟩, ⟨[97]⟩, ⟨[98]⟩] = ofComponents [⟨[97]⟩, ⟨[98]⟩] ∧
    (ofComponents [⟨[98]⟩, ⟨[97]⟩, ⟨[98]⟩]).excludes ⟨[97]⟩ = .ok true ∧
    (ofComponents [⟨[98]⟩, ⟨[97]⟩, ⟨[98]⟩]).excludes ⟨[97, 98]⟩ = .ok false ∧
    exceptBAB.WellFormed ∧ ∃ found,
      ((History.crowd .leftmost).index.get History.withoutAD exceptBAB).result = .ok found := by
  obtain ⟨_, _, hexcludes, _, hsame, hcarried⟩ := ofComponents_exact [⟨[98]⟩, ⟨[97]⟩, ⟨[98]⟩]
  obtain ⟨hi, _, hreturns⟩ := hcarried exceptBAB rfl
  refine ⟨rfl, (hsame _).mpr ?_, hexcludes _, hexcludes _, hi, ((hreturns _ _).2 _).2 rfl⟩
  intro c
  simp only [List.mem_cons, List.not_mem_nil, or_false]
  tauto

end Exclusion

end NamedData
