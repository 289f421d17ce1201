import NamedData.Index.Node
import NamedData.Proofs.Order

namespace NamedData

variable {R : Type}

namespace Forest

/-- At every depth the keys ascend strictly, none of them is empty, and every node carries its key. -/
def WellFormed : Forest R → Prop
  | nil => True
  | cons c own _ below next =>
    own = some c ∧ c.isEmpty = false ∧ (∀ d ∈ next.components, c < d) ∧ below.WellFormed ∧
      next.WellFormed

theorem find?_eq_none_iff (c : Component) (f : Forest R) :
    f.find? c = none ↔ c ∉ f.components := by
  induction f with
  | nil => simp [find?, components]
  | cons d own s below next _ ih =>
    by_cases h : c = d
    · simp [find?, components, h]
    · simp [find?, components, h, ih]

theorem mem_components_of_find? {c : Component} {f : Forest R} {n : Node R}
    (h : f.find? c = some n) : c ∈ f.components := by
  by_contra hc
  rw [(find?_eq_none_iff c f).mpr hc] at h
  cases h

/-- What is found in a well-formed forest is well formed, under a component that is not empty. -/
theorem WellFormed.find? {c : Component} {f : Forest R} {n : Node R} (hf : f.WellFormed)
    (h : f.find? c = some n) : n.children.WellFormed ∧ c.isEmpty = false := by
  induction f with
  | nil => cases h
  | cons d own s below next _ ih =>
    obtain ⟨_, hd, _, hbelow, hnext⟩ := hf
    by_cases hc : c = d
    · subst hc
      have hn : (⟨own, s, below⟩ : Node R) = n := by simpa [Forest.find?] using h
      subst hn
      exact ⟨hbelow, hd⟩
    · exact ih hnext (by simpa [Forest.find?, hc] using h)

theorem WellFormed.component_of_find? {c : Component} {f : Forest R} {n : Node R}
    (hf : f.WellFormed) (h : f.find? c = some n) : n.component = some c := by
  induction f with
  | nil => cases h
  | cons d own s below next _ ih =>
    obtain ⟨hown, _, _, _, hnext⟩ := hf
    by_cases hc : c = d
    · subst hc
      have hn : (⟨own, s, below⟩ : Node R) = n := by simpa [Forest.find?] using h
      subst hn
      exact hown
    · exact ih hnext (by simpa [Forest.find?, hc] using h)

theorem WellFormed.isEmpty_of_mem {c : Component} {f : Forest R} (hf : f.WellFormed)
    (h : c ∈ f.components) : c.isEmpty = false := by
  cases hn : f.find? c with
  | none => exact absurd h ((find?_eq_none_iff c f).mp hn)
  | some n => exact (hf.find? hn).2

theorem mem_components_put {c d : Component} {n : Node R} {f : Forest R} :
    d ∈ (f.put c n).components ↔ d = c ∨ d ∈ f.components := by
  induction f with
  | nil => simp [put, components]
  | cons b own s below next _ ih =>
    cases h : compare c b with
    | lt => simp [put, components, h]
    | eq =>
      have hc : c = b := Component.compare_eq_eq.mp h
      subst hc
      simp [put, components, h]
    | gt =>
      simp only [put, components, h, List.mem_cons, ih]
      tauto

theorem find?_put (c d : Component) (n : Node R) (f : Forest R) :
    (f.put c n).find? d = if d = c then some n else f.find? d := by
  induction f with
  | nil => rfl
  | cons b own s below next _ ih =>
    cases h : compare c b with
    | lt =>
      simp only [put, h, find?]
    | eq =>
      have hc : c = b := Component.compare_eq_eq.mp h
      subst hc
      simp only [put, h, find?]
      split <;> rfl
    | gt =>
      have hc : b ≠ c := (Component.compare_eq_gt.mp h).ne
      simp only [put, h, find?, ih]
      by_cases hd : d = b
      · simp [hd, hc]
      · simp [hd]

theorem WellFormed.put {c : Component} {n : Node R} {f : Forest R} (hf : f.WellFormed)
    (hown : n.component = some c) (hc : c.isEmpty = false) (hn : n.children.WellFormed) :
    (f.put c n).WellFormed := by
  induction f with
  | nil => exact ⟨hown, hc, by simp [components], hn, trivial⟩
  | cons b own s below next _ ih =>
    obtain ⟨hb, hkey, hlt, hbelow, hnext⟩ := hf
    cases h : compare c b with
    | lt =>
      have hcb : c < b := Component.compare_eq_lt.mp h
      simp only [Forest.put, h]
      refine ⟨hown, hc, ?_, hn, hb, hkey, hlt, hbelow, hnext⟩
      intro d hd
      rcases List.mem_cons.mp hd with rfl | hd
      · exact hcb
      · exact hcb.trans (hlt d hd)
    | eq =>
      have hcb : c = b := Component.compare_eq_eq.mp h
      subst hcb
      simp only [Forest.put, h]
      exact ⟨hown, hc, hlt, hn, hnext⟩
    | gt =>
      have hbc : b < c := Component.compare_eq_gt.mp h
      simp only [Forest.put, h]
      refine ⟨hb, hkey, ?_, hbelow, ih hnext⟩
      intro d hd
      rcases mem_components_put.mp hd with rfl | hd
      · exact hbc
      · exact hlt d hd

theorem components_put_of_mem {c : Component} {n : Node R} {f : Forest R} (hf : f.WellFormed)
    (hc : c ∈ f.components) : (f.put c n).components = f.components := by
  induction f with
  | nil => cases hc
  | cons d own s below next _ ih =>
    obtain ⟨_, _, hlt, _, hnext⟩ := hf
    rcases List.mem_cons.mp hc with rfl | hc
    · have h : compare c c = .eq := Component.compare_eq_eq.mpr rfl
      simp only [put, h, components]
    · have h : compare c d = .gt := Component.compare_eq_gt.mpr (hlt c hc)
      simp only [put, h, components, ih hnext hc]

theorem exists_of_mem_walk {path : List Component} {f : Forest R} {e : List Component × Node R}
    (h : e ∈ f.walk path) : ∃ c ∈ f.components, ∃ q, e.1 = path ++ c :: q := by
  induction f generalizing path with
  | nil => cases h
  | cons d own s below next ihb ihn =>
    simp only [walk, List.mem_cons, List.mem_append] at h
    rcases h with rfl | h | h
    · exact ⟨d, by simp [components], [], rfl⟩
    · obtain ⟨c, _, q, hq⟩ := ihb h
      exact ⟨d, by simp [components], c :: q, by simp [hq]⟩
    · obtain ⟨c, hc, q, hq⟩ := ihn h
      exact ⟨c, by simp [components, hc], q, hq⟩

theorem WellFormed.walk_ascending {f : Forest R} (hf : f.WellFormed) (path : List Component) :
    (f.walk path).Pairwise (fun a b => a.1 < b.1) := by
  induction f generalizing path with
  | nil => exact List.Pairwise.nil
  | cons d own s below next ihb ihn =>
    obtain ⟨_, _, hlt, hbelow, hnext⟩ := hf
    have hright (p : List Component) (e : List Component × Node R) (he : e ∈ next.walk path) :
        path ++ d :: p < e.1 := by
      obtain ⟨c, hc, q, hq⟩ := exists_of_mem_walk he
      rw [hq]
      exact append_cons_lt path (hlt c hc) p q
    rw [walk, List.pairwise_cons, List.pairwise_append]
    refine ⟨?_, ihb hbelow _, ihn hnext path, ?_⟩
    · intro e he
      rcases List.mem_append.mp he with he | he
      · obtain ⟨c, _, q, hq⟩ := exists_of_mem_walk he
        rw [hq]
        exact lt_append_cons _ c q
      · exact hright [] e he
    · intro a ha b hb
      obtain ⟨c, _, q, hq⟩ := exists_of_mem_walk ha
      rw [hq, List.append_assoc]
      exact hright (c :: q) b hb

/-- The walk meets exactly the nodes that paths lead to. -/
theorem WellFormed.mem_walk_iff {f : Forest R} (hf : f.WellFormed) (path : List Component)
    (c : Component) (q : List Component) (m : Node R) :
    (path ++ c :: q, m) ∈ f.walk path ↔ (f.find? c).bind (Node.descend? q) = some m := by
  induction f generalizing path c q with
  | nil => simp [walk, Forest.find?]
  | cons d own s below next ihb ihn =>
    obtain ⟨_, _, hlt, hbelow, hnext⟩ := hf
    have hleft (h : (path ++ c :: q, m) ∈ below.walk (path ++ [d])) :
        ∃ b r, q = b :: r ∧ c = d := by
      obtain ⟨b, _, r, hr⟩ := exists_of_mem_walk h
      simp only [List.append_assoc, List.singleton_append, List.append_cancel_left_eq,
        List.cons.injEq] at hr
      exact ⟨b, r, hr.2, hr.1⟩
    have hright (h : (path ++ c :: q, m) ∈ next.walk path) : d < c := by
      obtain ⟨b, hb, r, hr⟩ := exists_of_mem_walk h
      simp only [List.append_cancel_left_eq, List.cons.injEq] at hr
      rw [hr.1]
      exact hlt b hb
    simp only [walk, List.mem_cons, List.mem_append, Prod.mk.injEq, List.append_cancel_left_eq,
      List.cons.injEq, Forest.find?]
    by_cases hc : c = d
    · subst hc
      have hno : (path ++ c :: q, m) ∉ next.walk path := fun h => lt_irrefl c (hright h)
      simp only [hno, or_false, true_and, if_true, Option.bind_some]
      cases q with
      | nil =>
        have hno' : (path ++ [c], m) ∉ below.walk (path ++ [c]) := by
          intro h
          obtain ⟨_, _, hq, _⟩ := hleft h
          cases hq
        simp [hno', Node.descend?, eq_comm]
      | cons b r =>
        have h := ihb hbelow (path ++ [c]) b r
        rw [List.append_assoc, List.singleton_append] at h
        simp [h, Node.descend?]
    · have hno : (path ++ c :: q, m) ∉ below.walk (path ++ [d]) := by
        intro h
        obtain ⟨_, _, _, hcd⟩ := hleft h
        exact hc hcd
      simp [hc, hno, ihn hnext path c q]

end Forest

namespace Node

theorem descend?_append (p q : List Component) (n : Node R) :
    n.descend? (p ++ q) = (n.descend? p).bind (descend? q) := by
  induction p generalizing n with
  | nil => rfl
  | cons c p ih =>
    simp only [List.cons_append, descend?]
    cases n.children.find? c with
    | none => rfl
    | some child => exact ih child

theorem descend?_singleton (n : Node R) (c : Component) :
    n.descend? [c] = n.children.find? c := by
  rw [descend?]
  cases n.children.find? c <;> rfl

theorem descend?_wellFormed {n m : Node R} {p : List Component}
    (hn : n.children.WellFormed) (h : n.descend? p = some m) :
    m.children.WellFormed ∧ ∀ c ∈ p, c.isEmpty = false := by
  induction p generalizing n with
  | nil =>
    have hm : n = m := by simpa [descend?] using h
    subst hm
    exact ⟨hn, by simp⟩
  | cons c p ih =>
    obtain ⟨child, hchild, h⟩ := Option.bind_eq_some_iff.mp h
    have hwf := hn.find? hchild
    have hrest := ih hwf.1 h
    refine ⟨hrest.1, ?_⟩
    intro d hd
    rcases List.mem_cons.mp hd with rfl | hd
    · exact hwf.2
    · exact hrest.2 d hd

/-- A node carries the last component of the path that leads to it. -/
theorem component_of_descend? {n m : Node R} {p : List Component}
    (hn : n.children.WellFormed) (h : n.descend? p = some m) :
    m.component = p.getLast?.or n.component := by
  induction p generalizing n with
  | nil =>
    have hm : n = m := by simpa [descend?] using h
    rw [hm]
    rfl
  | cons c p ih =>
    obtain ⟨child, hchild, h⟩ := Option.bind_eq_some_iff.mp h
    rw [ih (hn.find? hchild).1 h, hn.component_of_find? hchild, List.getLast?_cons]
    cases p.getLast? <;> rfl

theorem walk_ascending {n : Node R} (hn : n.children.WellFormed) :
    (n.walk.map (·.1)).Pairwise (· < ·) := by
  have h := hn.walk_ascending []
  rw [walk, List.map_cons, List.pairwise_cons, List.map_map, List.pairwise_map]
  refine ⟨?_, h⟩
  intro m hm
  obtain ⟨e, he, rfl⟩ := List.mem_map.mp hm
  obtain ⟨c, _, q, hq⟩ := Forest.exists_of_mem_walk he
  change [] < e.1
  rw [hq]
  exact lt_append_cons [] c q

theorem mem_walk_iff {n : Node R} (hn : n.children.WellFormed) (p : Name) (m : Node R) :
    (p, m) ∈ n.walk ↔ n.descend? p.components = some m := by
  rw [walk, List.mem_cons, List.mem_map]
  cases hp : p.components with
  | nil =>
    have hroot : p = .root := Name.eq_of_components hp
    have hno : ¬∃ e ∈ n.children.walk [], ((⟨e.1⟩ : Name), e.2) = (p, m) := by
      rintro ⟨e, he, heq⟩
      obtain ⟨c, _, q, hq⟩ := Forest.exists_of_mem_walk he
      have h : e.1 = p.components := congrArg (·.1.components) heq
      rw [hq, hp] at h
      cases h
    rw [or_iff_left hno]
    simp [hroot, descend?, eq_comm]
  | cons c q =>
    have hroot : p ≠ .root := fun h => nomatch hp.symm.trans (congrArg Name.components h)
    have h := hn.mem_walk_iff [] c q m
    rw [List.nil_append] at h
    rw [descend?, ← h]
    constructor
    · rintro (heq | ⟨e, he, heq⟩)
      · exact absurd (congrArg Prod.fst heq) hroot
      · have h1 : e.1 = p.components := congrArg (·.1.components) heq
        have h2 : e.2 = m := congrArg Prod.snd heq
        rwa [← hp, ← h1, ← h2]
    · intro he
      exact Or.inr ⟨_, he, by rw [← hp]⟩

end Node

end NamedData
