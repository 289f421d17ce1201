import NamedData.Proofs.Canonical
import NamedData.Proofs.FullNames
import NamedData.Proofs.Metering
import NamedData.Proofs.Screening

namespace NamedData

variable {R : Type} {resolve : Resolver R} {i : Interest}

namespace Scan

def Misses (resolve : Resolver R) (i : Interest) (r : R) : Prop :=
  ∀ o, resolve r = some o → i.matchesContent o = .ok false

/-- What it means to go through the references that are due, in their order: which ones are resolved,
and what is found. -/
inductive Runs (resolve : Resolver R) (i : Interest) (due : List R) :
    List R → Option (Match R) → Prop
  | exhausted (misses : ∀ r ∈ due, Misses resolve i r) : Runs resolve i due due none
  | hit {before after : List R} {m : Match R} (split : due = before ++ m.ref :: after)
      (misses : ∀ r ∈ before, Misses resolve i r) (answers : i.Answers resolve m) :
      Runs resolve i due (before ++ [m.ref]) (some m)

theorem Runs.cons {r : R} {due probed : List R} {found : Option (Match R)}
    (hr : Misses resolve i r) (h : Runs resolve i due probed found) :
    Runs resolve i (r :: due) (r :: probed) found := by
  cases h with
  | exhausted misses => exact .exhausted (List.forall_mem_cons.mpr ⟨hr, misses⟩)
  | @hit before after m split misses answers =>
    have hsplit : r :: due = (r :: before) ++ m.ref :: after := by rw [split, List.cons_append]
    exact .hit hsplit (List.forall_mem_cons.mpr ⟨hr, misses⟩) answers

theorem first_cons_cases (resolve : Resolver R) (i : Interest) (r : R) (rs : List R) :
    (Misses resolve i r ∧ first resolve i (r :: rs) =
      ⟨r :: (first resolve i rs).probed, (first resolve i rs).result⟩) ∨
    (∃ v, first resolve i (r :: rs) = ⟨[r], .error v⟩) ∨
    ∃ o, i.Answers resolve ⟨r, o⟩ ∧ first resolve i (r :: rs) = ⟨[r], .ok (some ⟨r, o⟩)⟩ := by
  cases hr : resolve r with
  | none =>
    refine Or.inl ⟨?_, by simp [first, probe, orElse, hr]⟩
    intro o ho
    cases hr.symm.trans ho
  | some o =>
    cases ho : i.matchesContent o with
    | error v => exact Or.inr (Or.inl ⟨v, by simp [first, probe, orElse, hr, ho, Except.map]⟩)
    | ok hit =>
      cases hit with
      | true => exact Or.inr (Or.inr ⟨o, ⟨hr, ho⟩, by simp [first, probe, orElse, hr, ho, Except.map]⟩)
      | false =>
        refine Or.inl ⟨?_, by simp [first, probe, orElse, hr, ho, Except.map]⟩
        intro p hp
        rw [← Option.some.inj (hr.symm.trans hp), ho]

theorem first_runs {rs : List R} {found : Option (Match R)}
    (h : (first resolve i rs).result = .ok found) :
    Runs resolve i rs (first resolve i rs).probed found := by
  induction rs with
  | nil =>
    cases h
    exact .exhausted (by simp)
  | cons r rs ih =>
    rcases first_cons_cases resolve i r rs with ⟨hr, hf⟩ | ⟨v, hf⟩ | ⟨o, ho, hf⟩ <;> rw [hf] at h ⊢
    · exact (ih h).cons hr
    · cases h
    · cases h
      have hsplit : r :: rs = [] ++ r :: rs := rfl
      exact .hit hsplit (by simp) ho

theorem begins_first (resolve : Resolver R) (i : Interest) (rs : List R) :
    (first resolve i rs).probed <+: rs := by
  induction rs with
  | nil => exact List.nil_prefix
  | cons r rs ih =>
    rcases first_cons_cases resolve i r rs with ⟨_, hf⟩ | ⟨v, hf⟩ | ⟨o, _, hf⟩ <;> rw [hf]
    · exact (List.cons_prefix_cons).mpr ⟨rfl, ih⟩
    · exact List.prefix_append [r] rs
    · exact List.prefix_append [r] rs

theorem Runs.answers {due probed : List R} {m : Match R} (h : Runs resolve i due probed (some m)) :
    i.Answers resolve m := by
  cases h
  assumption

theorem Runs.eq_of_none {due probed : List R} (h : Runs resolve i due probed none) :
    probed = due := by
  cases h
  rfl

theorem first_none (i : Interest) (rs : List R) :
    first (fun _ => none) i rs = ⟨rs, .ok none⟩ := by
  induction rs with
  | nil => rfl
  | cons r rs ih => simp [first, probe, orElse, ih]

/-- A scan goes through the references, unless it is stopped on the way. -/
def Follows (resolve : Resolver R) (i : Interest) (s : Scan R) (rs : List R) : Prop :=
  s = first resolve i rs ∨ (∃ v, s.result = .error v) ∧ s.probed <+: rs

theorem follows_first (resolve : Resolver R) (i : Interest) (rs : List R) :
    Follows resolve i (first resolve i rs) rs := Or.inl rfl

theorem follows_fault (v : Violation) (rs : List R) : Follows resolve i (fault v) rs :=
  Or.inr ⟨⟨v, rfl⟩, List.nil_prefix⟩

theorem orElse_of_error {s : Scan R} {v : Violation} (h : s.result = .error v)
    (t : Unit → Scan R) : s.orElse t = s := by
  rw [orElse, h]

theorem Follows.orElse {s : Scan R} {t : Unit → Scan R} {rs ts : List R}
    (hs : Follows resolve i s rs) (ht : Follows resolve i (t ()) ts) :
    Follows resolve i (s.orElse t) (rs ++ ts) := by
  rcases hs with rfl | ⟨⟨v, hv⟩, hbegins⟩
  · rcases ht with ht | ⟨⟨v, hv⟩, hbegins⟩
    · left
      rw [first_append, Scan.orElse, Scan.orElse, ht]
    · cases hfirst : (first resolve i rs).result with
      | error w =>
        left
        rw [first_append, orElse_of_error hfirst, orElse_of_error hfirst]
      | ok found =>
        cases found with
        | some m =>
          left
          rw [first_append, Scan.orElse, Scan.orElse, hfirst]
        | none =>
          right
          rw [Scan.orElse, hfirst, (first_runs hfirst).eq_of_none]
          exact ⟨⟨v, hv⟩, (List.prefix_append_right_inj rs).mpr hbegins⟩
  · right
    rw [orElse_of_error hv]
    exact ⟨⟨v, hv⟩, hbegins.trans (List.prefix_append rs ts)⟩

/-- A visit goes through the content of a node that is kept, and then through what is due below one
that is not left out. -/
theorem Follows.visit {verdict : Except Violation Verdict} {content rs : List R}
    {below : Unit → Scan R} (hprune : verdict = .ok .prune → rs = [])
    (hbelow : verdict ≠ .ok .prune → Follows resolve i (below ()) rs) :
    Follows resolve i (Scan.visit resolve i verdict content below)
      ((if verdict = .ok .keep then content else []) ++ rs) := by
  cases verdict with
  | error v => exact follows_fault v _
  | ok verdict =>
    cases verdict with
    | prune =>
      rw [hprune rfl]
      exact follows_first resolve i []
    | skip => exact hbelow (by simp)
    | keep => exact (follows_first resolve i content).orElse (hbelow (by simp))

theorem Follows.begins {s : Scan R} {rs : List R} (h : Follows resolve i s rs) :
    s.probed <+: rs := by
  rcases h with rfl | ⟨_, hbegins⟩
  · exact begins_first resolve i rs
  · exact hbegins

end Scan

namespace Interest

/-- The content at the end of the path `p` is tested: the node there is kept, and none before it is
left out. -/
def Tests (i : Interest) (p : Name) : Prop :=
  i.verdict p p.length = .ok .keep ∧ ∀ depth < p.length, i.verdict p depth ≠ .ok .prune

instance (p : Name) : Decidable (i.Tests p) :=
  inferInstanceAs (Decidable (_ ∧ ∀ depth < p.length, i.verdict p depth ≠ .ok .prune))

/-- No node on the path is left out. -/
def Spares (i : Interest) (path : List Component) : Prop :=
  ∀ depth ≤ path.length, i.verdict ⟨path⟩ depth ≠ .ok .prune

variable {path q : List Component} {c : Component}

theorem verdict_append {depth : Nat} (hdepth : depth ≤ path.length) (q : List Component) :
    i.verdict ⟨path ++ q⟩ depth = i.verdict ⟨path⟩ depth := by
  rw [verdict, verdict, Name.take, Name.take, List.take_append_of_le_length hdepth]

theorem verdict_concat (i : Interest) (path : List Component) (c : Component) :
    i.verdict ⟨path ++ [c]⟩ (path.length+1) = i.screen (some c) (path.length+1) := by
  have hlast : (i.name ++ (⟨path ++ [c]⟩ : Name).take (path.length+1)).last? = some c := by
    simp [Name.last?, Name.take, List.take_of_length_le]
  rw [verdict, hlast]

theorem verdict_root (i : Interest) : i.verdict .root 0 = i.screen none 0 := by
  rw [verdict, screen, screen]
  cases (i.name ++ Name.root.take 0).last? <;> rfl

theorem tests_root (i : Interest) : i.Tests .root ↔ i.screen none 0 = .ok .keep := by
  rw [← verdict_root]
  refine and_iff_left ?_
  intro depth hdepth
  cases hdepth

theorem screen_here_ne_prune (i : Interest) (own : Option Component) :
    i.screen own 0 ≠ .ok .prune := by
  rw [Node.screen_here]
  split <;> simp

theorem spares_nil (i : Interest) : i.Spares [] := by
  intro depth hdepth
  have hroot : i.verdict ⟨[]⟩ 0 ≠ .ok .prune := i.verdict_root ▸ i.screen_here_ne_prune none
  rwa [Nat.le_zero.mp hdepth]

theorem tests_concat (hpath : i.Spares path) :
    i.Tests ⟨path ++ [c]⟩ ↔ i.screen (some c) (path.length+1) = .ok .keep := by
  have hlength : (⟨path ++ [c]⟩ : Name).length = path.length+1 := by simp [Name.length]
  rw [Tests, hlength, verdict_concat, and_iff_left]
  intro depth hdepth
  rw [verdict_append (Nat.le_of_lt_succ hdepth)]
  exact hpath depth (Nat.le_of_lt_succ hdepth)

theorem Spares.concat (hpath : i.Spares path)
    (hc : i.screen (some c) (path.length+1) ≠ .ok .prune) : i.Spares (path ++ [c]) := by
  intro depth hdepth
  rw [List.length_append, List.length_singleton] at hdepth
  by_cases hlast : depth = path.length+1
  · rwa [hlast, verdict_concat]
  · rw [verdict_append (by omega)]
    exact hpath depth (by omega)

theorem not_tests_of_prune (h : i.verdict ⟨path⟩ path.length = .ok .prune) (c : Component)
    (q : List Component) : ¬i.Tests ⟨path ++ c :: q⟩ := by
  intro htests
  refine htests.2 path.length (by simp [Name.length]) ?_
  rw [verdict_append le_rfl, h]

theorem not_tests_of_withinMax {p : Name} {count : Nat} (hp : count ≤ p.length)
    (h : i.withinMax count = false) : ¬i.Tests p := by
  intro htests
  have hkeep := htests.1
  have hmax : i.withinMax p.length = false := by
    by_contra hin
    cases h.symm.trans (withinMax_mono hp (by simpa using hin))
  rw [verdict, screen, hmax] at hkeep
  cases hkeep

theorem not_tests_of_excludes (h : i.excludes c = .ok true) (q : List Component) :
    ¬i.Tests ⟨c :: q⟩ := by
  have hprune : i.verdict ⟨[c]⟩ 1 = .ok .prune := by
    rw [verdict_eq (by simp [Name.length]), if_pos rfl, excludesHead, h]
    simp [Except.map]
  cases q with
  | nil =>
    intro htests
    cases hprune.symm.trans htests.1
  | cons d q => exact @not_tests_of_prune i [c] hprune d q

end Interest

namespace Forest

/-- The references that are due in a forest whose trees begin below the path. -/
def due (i : Interest) (path : List Component) (f : Forest R) : List R :=
  ((f.walk path).filter fun e => i.Tests ⟨e.1⟩).flatMap (·.2.state.content)

variable {path : List Component}

theorem due_cons (i : Interest) (path : List Component) (c : Component) (own : Option Component)
    (s : NodeState R) (below next : Forest R) :
    (cons c own s below next).due i path =
      (if i.Tests ⟨path ++ [c]⟩ then s.content else []) ++ below.due i (path ++ [c]) ++
        next.due i path := by
  rw [due, walk, List.filter_cons]
  split <;> simp_all [due, List.filter_append]

theorem due_eq_nil {f : Forest R}
    (h : ∀ c ∈ f.components, ∀ q, ¬i.Tests ⟨path ++ c :: q⟩) : f.due i path = [] := by
  have hnone : (f.walk path).filter (fun e => i.Tests ⟨e.1⟩) = [] :=
    @filter_walk_eq_nil R (fun q => i.Tests ⟨q⟩) f path fun c hc q => decide_eq_false (h c hc q)
  rw [due, hnone]
  rfl

theorem due_eq_nil_of_mayDescend {f : Forest R} (h : i.mayDescend path.length = false) :
    f.due i path = [] := by
  rw [Interest.mayDescend_eq] at h
  apply due_eq_nil
  intro c _ q
  exact Interest.not_tests_of_withinMax (by simp [Name.length]) h

theorem due_clip (f : Forest R) : (f.clip i).due i [] = f.due i [] := by
  have hclip : ((f.clip i).walk []).filter (fun e => i.Tests ⟨e.1⟩) =
      (f.walk []).filter fun e => i.Tests ⟨e.1⟩ :=
    @filter_walk_clip R i (fun q => i.Tests ⟨q⟩) f fun c q hc =>
      decide_eq_false (Interest.not_tests_of_excludes hc q)
  rw [due, hclip, due]

/-- The search for the first answer goes through what is due, or is stopped on the way. -/
theorem leftmost_follows {f : Forest R} (hf : f.WellFormed) (hpath : i.Spares path) :
    Scan.Follows resolve i (f.leftmost resolve i (path.length+1)) (f.due i path) := by
  induction f generalizing path with
  | nil => exact Scan.follows_first resolve i []
  | cons c own s below next ihb ihn =>
    obtain ⟨rfl, _, _, hbelow, hnext⟩ := hf
    have hlength : (path ++ [c]).length = path.length+1 := by simp
    rw [leftmost, due_cons]
    simp only [Interest.tests_concat hpath]
    apply Scan.Follows.orElse _ (ihn hnext hpath)
    apply Scan.Follows.visit
    · intro hprune
      rw [← Interest.verdict_concat, ← hlength] at hprune
      exact due_eq_nil fun d _ q => Interest.not_tests_of_prune hprune d q
    · intro hspared
      rw [← hlength]
      split
      · exact ihb hbelow (hpath.concat hspared)
      next hmay =>
        rw [due_eq_nil_of_mayDescend (by simpa using hmay)]
        exact Scan.follows_first resolve i []

end Forest

namespace Node

def due (i : Interest) (n : Node R) : List R :=
  (n.walk.filter fun e => i.Tests e.1).flatMap (·.2.state.content)

theorem due_eq (i : Interest) (n : Node R) :
    n.due i = (if i.screen n.component 0 = .ok .keep then n.state.content else []) ++
      (n.children.clip i).due i [] := by
  have hroot : i.screen n.component 0 = .ok .keep ↔ i.Tests .root := by
    rw [Interest.tests_root, screen_here, screen_here]
  simp only [hroot]
  rw [Forest.due_clip, due, Forest.due, walk, List.filter_cons, List.filter_map]
  split <;> simp_all [List.flatMap_map, Function.comp_def]

theorem leftmost_follows (resolve : Resolver R) (hi : i.WellFormed) {n : Node R}
    (hn : n.children.WellFormed) : Scan.Follows resolve i (n.leftmost resolve i) (n.due i) := by
  simp only [leftmost, Interest.screener_eq hi]
  rw [due_eq]
  apply Scan.Follows.visit
  · intro hprune
    exact absurd hprune (i.screen_here_ne_prune n.component)
  · intro _
    split
    · exact Forest.leftmost_follows hn.clip i.spares_nil
    next hmay =>
      have hnothing : (n.children.clip i).due i [] = [] :=
        Forest.due_eq_nil_of_mayDescend (by simpa using hmay)
      rw [hnothing]
      exact Scan.follows_first resolve i []

/-- What the search for the last answer collects is what is due: the search for the first one would
go through the same, if no reference led anywhere. -/
theorem due_of_candidates (hi : i.WellFormed) {n : Node R} (hn : n.children.WellFormed)
    {rs : List R} (h : n.candidates i = .ok rs) : rs = n.due i := by
  have hall : n.leftmost (fun _ => none) i = ⟨rs, .ok none⟩ := by
    rw [leftmost_eq_first hi h, Scan.first_none]
  rcases leftmost_follows (fun _ => none) hi hn with hdue | ⟨⟨v, hv⟩, _⟩
  · rw [hall, Scan.first_none] at hdue
    exact congrArg Scan.probed hdue
  · rw [hall] at hv
    cases hv

end Node

namespace Selector

/-- The order in which a search that prefers this end goes through references. -/
def arrange (preferred : Selector) (rs : List R) : List R :=
  match preferred with
  | .leftmost => rs
  | .rightmost => rs.reverse

theorem mem_arrange {preferred : Selector} {rs : List R} {r : R} :
    r ∈ preferred.arrange rs ↔ r ∈ rs := by
  cases preferred with
  | leftmost => rfl
  | rightmost => exact List.mem_reverse

end Selector

namespace Node

theorem search_eq_first (resolve : Resolver R) (hi : i.WellFormed) (preferred : Selector)
    {n : Node R} (hn : n.children.WellFormed) {rs : List R} (h : n.candidates i = .ok rs) :
    n.search resolve i preferred = Scan.first resolve i (preferred.arrange (n.due i)) := by
  rw [← due_of_candidates hi hn h]
  cases preferred with
  | leftmost => exact leftmost_eq_first hi h
  | rightmost => exact rightmost_eq_first hi h

end Node

namespace Interest

/-- The exclusion can tell of every component that it may be asked about. No index holds an empty
component, but wherever any content is tested, a resolver may come up with one. -/
def Decides (i : Interest) : Prop :=
  i.Settled ∧ (i.isExact = true ∨ (∃ excluded, i.excludes ⟨[]⟩ = .ok excluded) ∨
    ∀ p : Name, (∀ c ∈ p.components, c.isEmpty = false) → i.name ++ p ≠ .root → ¬i.Tests p)

theorem eq_nil_of_isEmpty {c : Component} (h : c.isEmpty = true) : c = ⟨[]⟩ := by
  cases c
  exact congrArg Component.mk (List.isEmpty_iff.mp h)

theorem compares_of_isExact (hexact : i.isExact = true) (o : Content) : i.Compares o := by
  have hmax : i.maxSuffix = some 0 := by simpa [isExact] using hexact
  intro hbegins hwindow c hc
  have hzero : i.suffixLength o = 0 := Nat.le_zero.mp (hwindow.2 0 hmax)
  rw [isPrefixOf_fullName_iff] at hbegins
  by_cases hfull : i.name = o.fullName
  · simp [hfull, Name.get?, Name.length] at hc
  · obtain ⟨p, hp⟩ := Name.isPrefixOf_iff.mp (hbegins.resolve_right hfull)
    rw [suffixLength, if_neg hfull] at hzero
    split at hzero
    · cases hzero
    next hplain =>
      have hlength : o.name.length = i.name.length+p.components.length := by
        rw [hp]
        exact List.length_append
      have hroot : p = .root := Name.eq_of_components (List.length_eq_zero_iff.mp (by omega))
      have hname : i.name = o.name := by rw [hp, hroot, Name.append_root]
      have hnone : i.exclusion = none := by simpa [hname] using hplain
      exact ⟨false, by rw [excludes, hnone]⟩

theorem Decides.compares (h : i.Decides) {p : Name} (hp : ∀ c ∈ p.components, c.isEmpty = false)
    (hroot : i.name ++ p ≠ .root) (htests : i.Tests p) (o : Content) : i.Compares o := by
  obtain ⟨hs, hempty⟩ := h
  by_cases hexact : i.isExact = true
  · exact compares_of_isExact hexact o
  · intro _ _ c _
    cases hc : c.isEmpty with
    | false => exact hs.resolve_left hexact c hc
    | true =>
      rw [eq_nil_of_isEmpty hc]
      exact (hempty.resolve_left hexact).resolve_right fun hnone => hnone p hp hroot htests

end Interest

namespace History

variable {h : History R} {n : Node R}

end History

section Runs

variable (selector : Selector) (ops : List (Operation R)) {n : Node R}

theorem History.exists_tests_of_mem_due
    (hn : (run selector ops).index.root.descend? i.name.components = some n) {r : R}
    (hr : r ∈ n.due i) :
    ∃ p : Name, (∀ c ∈ p.components, c.isEmpty = false) ∧ i.name ++ p ≠ .root ∧ i.Tests p := by
  have hh := recorded_run selector ops
  obtain ⟨hwf, _⟩ := Node.descend?_wellFormed hh.wellFormed hn
  obtain ⟨⟨p, m⟩, he, hmem⟩ := List.mem_flatMap.mp hr
  obtain ⟨hwalk, htests⟩ := List.mem_filter.mp he
  have hdescend := (Node.mem_walk_iff hwf p m).mp hwalk
  refine ⟨p, (Node.descend?_wellFormed hwf hdescend).2, ?_, by simpa using htests⟩
  intro hroot
  have hcontent := hh.content_of_mem_walk hn hwalk
  rw [hroot, storedAt_root] at hcontent
  exact List.not_mem_nil (hcontent ▸ hmem)

/-- A search for an Interest that decides comes back. -/
theorem History.isOk_search (hi : i.WellFormed) (hd : i.Decides)
    (hn : (run selector ops).index.root.descend? i.name.components = some n)
    (resolve : Resolver R) (preferred : Selector) :
    ∃ found, (n.search resolve i preferred).result = .ok found := by
  have hh := recorded_run selector ops
  obtain ⟨hwf, _⟩ := Node.descend?_wellFormed hh.wellFormed hn
  rw [Node.search_eq_first resolve hi preferred hwf (hh.candidates_eq hd.1 hn), Scan.first_result]
  · exact ⟨_, rfl⟩
  · intro r hr o _
    obtain ⟨p, hp, hroot, htests⟩ :=
      exists_tests_of_mem_due selector ops hn (Selector.mem_arrange.mp hr)
    exact Interest.isOk_matchesContent_iff.mpr (hd.compares hp hroot htests o)

end Runs

namespace History

end History

namespace Interest

def stray (i : Interest) (p : Name) : Content := .blank (i.name ++ ⟨⟨[]⟩ :: p.components.tail⟩)

end Interest

namespace Interest

end Interest

end NamedData
