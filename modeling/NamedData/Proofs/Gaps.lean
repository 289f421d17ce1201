import Mathlib.Data.List.DropRight
import NamedData.Exclusion.Basic
import NamedData.Proofs.Order

namespace NamedData

/-- A filter can be asked as long as a mask can address its positions. -/
theorem Bloom.isOk_contains_iff (f : Bloom) (c : Component) :
    (∃ found, f.contains c = .ok found) ↔ f.lgBits < 32 := by
  rw [contains, positions]
  split
  next hlg => simp [hlg, Except.map]
  next hlg => simp [hlg, Except.map]

namespace Exclusion

def Element.isRange (e : Element) : Bool := e.component?.isNone

def Element.precedes (c : Component) (e : Element) : Bool := e.component?.all (· < c)

/-- The ranges that stand between the listed components next to `c`. -/
def gap (x : Exclusion) (c : Component) : List Element :=
  (x.elements.takeWhile (Element.precedes c)).rtakeWhile Element.isRange

/-- A range spans `c` if every listed component before it is below `c` and every one after it is
above. -/
def Spans (x : Exclusion) (e : Element) (c : Component) : Prop :=
  e.isRange = true ∧ ∃ before after, x.elements = before ++ e :: after ∧
    (∀ b, .component b ∈ before → b < c) ∧ ∀ b, .component b ∈ after → c < b

/-- The rule: a component is excluded if it is listed, or if a range that spans it is the range of
all components or a filter that holds it. -/
def Forbids (x : Exclusion) (c : Component) : Prop :=
  .component c ∈ x.elements ∨
    ∃ e, x.Spans e c ∧ (e = .any ∨ ∃ f, e = .bloom f ∧ f.contains c = .ok true)

/-- No filter that comes before the first range that covers `c` has more positions than a mask can
address. -/
def Decides (x : Exclusion) (c : Component) : Prop :=
  .component c ∈ x.elements ∨
    ∀ f, .bloom f ∈ (x.gap c).takeWhile (fun e => e.covers c ≠ .ok true) → f.lgBits < 32

section Ranges

variable {c : Component} {ranges : List Element}

theorem Element.covers_iff (e : Element) (c : Component) :
    e.covers c = .ok true ↔ e = .any ∨ ∃ f, e = .bloom f ∧ f.contains c = .ok true := by
  cases e <;> simp [covers]

theorem Element.isOk_covers_iff (e : Element) (c : Component) :
    (∃ covered, e.covers c = .ok covered) ↔ ∀ f, .bloom f = e → f.lgBits < 32 := by
  cases e with
  | component b => simp [covers]
  | any => simp [covers]
  | bloom f => simp [covers, f.isOk_contains_iff c]

theorem anyCovers_eq_true_iff {covered : Bool} (h : anyCovers c ranges = .ok covered) :
    covered = true ↔ ∃ e ∈ ranges, e.covers c = .ok true := by
  induction ranges with
  | nil =>
    have hfalse : covered = false := by simpa [anyCovers] using h.symm
    simp [hfalse]
  | cons e es ih =>
    rw [anyCovers] at h
    cases he : e.covers c with
    | error v => simp [he] at h
    | ok here =>
      cases here with
      | true =>
        have htrue : covered = true := by simpa [he] using h.symm
        simp [htrue, he]
      | false =>
        have hrest : anyCovers c es = .ok covered := by simpa [he] using h
        simp [he, ih hrest]

/-- The ranges are asked in order, up to the first that covers the component. -/
theorem isOk_anyCovers_iff :
    (∃ covered, anyCovers c ranges = .ok covered) ↔
      ∀ f, .bloom f ∈ ranges.takeWhile (fun e => e.covers c ≠ .ok true) → f.lgBits < 32 := by
  induction ranges with
  | nil => simp [anyCovers]
  | cons e es ih =>
    have hask := e.isOk_covers_iff c
    rw [anyCovers, List.takeWhile_cons]
    cases he : e.covers c with
    | error v =>
      have hno : ¬∀ f, .bloom f = e → f.lgBits < 32 := by
        rw [← hask, he]
        simp
      simp only [reduceCtorEq, exists_false, false_iff]
      intro hall
      apply hno
      intro f hf
      apply hall f
      simp [hf]
    | ok here =>
      have hlg := hask.mp ⟨here, he⟩
      cases here with
      | true => simp
      | false =>
        simp only [ne_eq, Except.ok.injEq, Bool.false_eq_true, not_false_eq_true, decide_true,
          if_true, List.mem_cons, or_imp, forall_and]
        rw [ih]
        exact (and_iff_right hlg).symm

end Ranges

section Pass

variable {x : Exclusion} {c : Component}

theorem mem_components_iff {b : Component} : b ∈ x.components ↔ .component b ∈ x.elements := by
  rw [components, List.mem_filterMap]
  constructor
  · intro h
    obtain ⟨e, he, heb⟩ := h
    cases e <;> simp_all [Element.component?]
  · intro h
    exact ⟨_, h, rfl⟩

theorem WellFormed.split {before after : List Element} {b : Component}
    (hx : WellFormed ⟨before ++ .component b :: after⟩) :
    (∀ a, .component a ∈ before → a < b) ∧ ∀ a, .component a ∈ after → b < a := by
  have hparts : (⟨before ++ .component b :: after⟩ : Exclusion).components =
      (⟨before⟩ : Exclusion).components ++ b :: (⟨after⟩ : Exclusion).components := by
    simp [components, List.filterMap_append, Element.component?]
  rw [WellFormed, hparts, List.pairwise_append, List.pairwise_cons] at hx
  obtain ⟨_, ⟨hafter, _⟩, hbefore⟩ := hx
  constructor
  · intro a ha
    exact hbefore a (mem_components_iff.mpr ha) b (by simp)
  · intro a ha
    exact hafter a (mem_components_iff.mpr ha)

theorem Element.precedes_component_iff {b : Component} :
    (component b).precedes c = true ↔ b < c := by
  simp [precedes, component?]

theorem Element.precedes_of_isRange {e : Element} (he : e.isRange = true) (c : Component) :
    e.precedes c = true := by
  rw [precedes, Option.isNone_iff_eq_none.mp he]
  rfl

theorem Element.exists_of_not_isRange {e : Element} (he : e.isRange = false) :
    ∃ b, e = .component b := by
  cases e with
  | component b => exact ⟨b, rfl⟩
  | any => cases he
  | bloom f => cases he

theorem Element.exists_of_not_precedes {e : Element} (he : e.precedes c = false) :
    ∃ b, e = .component b ∧ ¬b < c := by
  cases hrange : e.isRange with
  | true => cases he.symm.trans (precedes_of_isRange hrange c)
  | false =>
    obtain ⟨b, rfl⟩ := exists_of_not_isRange hrange
    refine ⟨b, rfl, fun hlt => ?_⟩
    cases he.symm.trans (precedes_component_iff.mpr hlt)

theorem Element.precedes_of_below {e : Element} (he : ∀ b, .component b = e → b < c) :
    e.precedes c = true := by
  cases hrange : e.isRange with
  | true => exact precedes_of_isRange hrange c
  | false =>
    obtain ⟨b, rfl⟩ := exists_of_not_isRange hrange
    exact precedes_component_iff.mpr (he b rfl)

theorem rtakeWhile_append {α : Type} {p : α → Bool} {front back : List α}
    (hback : ∀ a ∈ back, p a = true) :
    (front ++ back).rtakeWhile p = front.rtakeWhile p ++ back := by
  rw [List.rtakeWhile, List.reverse_append, List.takeWhile_append_of_pos, List.reverse_append,
    List.reverse_reverse, List.rtakeWhile]
  intro a ha
  exact hback a (List.mem_reverse.mp ha)

theorem excludesFrom_range {e : Element} (he : e.isRange = true) (ranges es : List Element) :
    excludesFrom c ranges (e :: es) = excludesFrom c (ranges ++ [e]) es := by
  cases e with
  | component b => cases he
  | any => rfl
  | bloom f => rfl

/-- The pass keeps the ranges since the last component that it read, all of them smaller than `c`.
It ends at `c` itself or with the ranges around it. -/
theorem excludesFrom_eq (c : Component) (read es : List Element)
    (hx : WellFormed ⟨read ++ es⟩) (hread : ∀ e ∈ read, e.precedes c = true) :
    excludesFrom c (read.rtakeWhile Element.isRange) es =
      if .component c ∈ es then .ok true else anyCovers c (gap ⟨read ++ es⟩ c) := by
  induction es generalizing read with
  | nil =>
    have hself := List.takeWhile_eq_self_iff.mpr hread
    simp [excludesFrom, gap, hself]
  | cons e es ih =>
    have hnext : (read ++ [e]) ++ es = read ++ e :: es := by simp
    have hstep (he : e.precedes c = true) (hne : .component c ≠ e) :
        excludesFrom c ((read ++ [e]).rtakeWhile Element.isRange) es =
          if .component c ∈ e :: es then .ok true else anyCovers c (gap ⟨read ++ e :: es⟩ c) := by
      simp only [List.mem_cons, hne, false_or]
      rw [← hnext]
      apply ih
      · rwa [hnext]
      · intro d hd
        rcases List.mem_append.mp hd with hd | hd
        · exact hread d hd
        · rw [List.mem_singleton.mp hd]
          exact he
    cases hrange : e.isRange with
    | true =>
      have he : e.precedes c = true := Element.precedes_of_isRange hrange c
      have hne : .component c ≠ e := by
        intro heq
        rw [← heq] at hrange
        cases hrange
      rw [excludesFrom_range hrange, ← hstep he hne, List.rtakeWhile_concat, if_pos hrange]
    | false =>
      obtain ⟨b, rfl⟩ := Element.exists_of_not_isRange hrange
      rw [excludesFrom]
      cases hcb : compare c b with
      | eq =>
        have heq : c = b := Component.compare_eq_eq.mp hcb
        simp [heq]
      | lt =>
        have hlt : c < b := Component.compare_eq_lt.mp hcb
        have hno : .component c ∉ Element.component b :: es := by
          intro hmem
          rcases List.mem_cons.mp hmem with heq | hmem
          · exact hlt.ne (Element.component.inj heq)
          · exact lt_asymm hlt (hx.split.2 c hmem)
        have hstop : ¬(Element.component b).precedes c = true := by
          rw [Element.precedes_component_iff]
          exact hlt.not_gt
        have hgap : gap ⟨read ++ .component b :: es⟩ c = read.rtakeWhile Element.isRange := by
          rw [gap, List.takeWhile_append_of_pos hread, List.takeWhile_cons_of_neg hstop,
            List.append_nil]
        rw [if_neg hno, hgap]
      | gt =>
        have hlt : b < c := Component.compare_eq_gt.mp hcb
        have hb : (Element.component b).precedes c = true :=
          Element.precedes_component_iff.mpr hlt
        have hne : Element.component c ≠ .component b := by
          intro heq
          exact hlt.ne' (Element.component.inj heq)
        rw [← hstep hb hne, List.rtakeWhile_concat, hrange]
        rfl

/-- What an exclusion says of a component: that it is listed, or what the ranges around it say. -/
theorem excludes_eq (hx : x.WellFormed) (c : Component) :
    x.excludes c = if .component c ∈ x.elements then .ok true else anyCovers c (x.gap c) :=
  excludesFrom_eq c [] x.elements hx (by simp)

theorem lt_of_mem_takeWhile {elements : List Element} {b : Component}
    (hb : .component b ∈ elements.takeWhile (Element.precedes c)) : b < c :=
  Element.precedes_component_iff.mp (List.mem_takeWhile_imp hb)

theorem lt_of_mem_dropWhile (hx : x.WellFormed) (hc : .component c ∉ x.elements) {b : Component}
    (hb : .component b ∈ x.elements.dropWhile (Element.precedes c)) : c < b := by
  cases hhigh : x.elements.dropWhile (Element.precedes c) with
  | nil =>
    rw [hhigh] at hb
    cases hb
  | cons d high =>
    have hd : d.precedes c = false := by
      have hhead := List.head?_dropWhile_not (Element.precedes c) x.elements
      simpa [hhigh] using hhead
    obtain ⟨a, rfl, hnot⟩ := Element.exists_of_not_precedes hd
    have hsplit :
        x.elements.takeWhile (Element.precedes c) ++ .component a :: high = x.elements := by
      rw [← hhigh]
      exact List.takeWhile_append_dropWhile
    have hne : a ≠ c := by
      intro heq
      apply hc
      rw [← heq, ← hsplit]
      simp
    have hca : c < a := lt_of_le_of_ne (not_lt.mp hnot) hne.symm
    have hwf : WellFormed ⟨x.elements.takeWhile (Element.precedes c) ++ .component a :: high⟩ := by
      rw [hsplit]
      exact hx
    rw [hhigh] at hb
    rcases List.mem_cons.mp hb with heq | hb
    · rwa [Element.component.inj heq]
    · exact hca.trans (hwf.split.2 b hb)

/-- Where a component is not listed, the list falls into what is below it, the ranges around it, and
what is above. -/
theorem exists_split_gap (hx : x.WellFormed) (hc : .component c ∉ x.elements) :
    ∃ low high, x.elements = low ++ (x.gap c ++ high) ∧
      (∀ b, .component b ∈ low → b < c) ∧ ∀ b, .component b ∈ high → c < b := by
  obtain ⟨low, hlow⟩ := List.rtakeWhile_suffix Element.isRange
    (x.elements.takeWhile (Element.precedes c))
  refine ⟨low, x.elements.dropWhile (Element.precedes c), ?_, ?_, ?_⟩
  · rw [← List.append_assoc, gap, hlow]
    exact List.takeWhile_append_dropWhile.symm
  · intro b hb
    apply lt_of_mem_takeWhile
    rw [← hlow]
    exact List.mem_append_left _ hb
  · exact fun b hb => lt_of_mem_dropWhile hx hc hb

theorem Spans.mem_gap {e : Element} (h : x.Spans e c) : e ∈ x.gap c := by
  obtain ⟨hrange, before, after, hsplit, hbefore, hafter⟩ := h
  have hlow : ∀ d ∈ before, d.precedes c = true := by
    intro d hd
    apply Element.precedes_of_below
    intro b hb
    exact hbefore b (hb ▸ hd)
  have hranges : ∀ d ∈ after.takeWhile (Element.precedes c), d.isRange = true := by
    intro d hd
    by_contra hno
    obtain ⟨b, rfl⟩ := Element.exists_of_not_isRange (by simpa using hno)
    have hlt : b < c := lt_of_mem_takeWhile hd
    have hgt : c < b := hafter b ((List.takeWhile_sublist _).mem hd)
    exact lt_asymm hgt hlt
  have hgap : x.gap c =
      before.rtakeWhile Element.isRange ++ e :: after.takeWhile (Element.precedes c) := by
    rw [gap, hsplit, List.takeWhile_append_of_pos hlow,
      List.takeWhile_cons_of_pos (Element.precedes_of_isRange hrange c), rtakeWhile_append]
    intro d hd
    rcases List.mem_cons.mp hd with rfl | hd
    · exact hrange
    · exact hranges d hd
  simp [hgap]

theorem mem_gap_iff (hx : x.WellFormed) (hc : .component c ∉ x.elements) (e : Element) :
    e ∈ x.gap c ↔ x.Spans e c := by
  refine ⟨?_, Spans.mem_gap⟩
  intro he
  have hranges : ∀ b, .component b ∉ x.gap c := fun b hb => by cases List.mem_rtakeWhile_imp hb
  obtain ⟨low, high, hsplit, hlow, hhigh⟩ := exists_split_gap hx hc
  obtain ⟨front, back, hgap⟩ := List.append_of_mem he
  refine ⟨List.mem_rtakeWhile_imp he, low ++ front, back ++ high, ?_, ?_, ?_⟩
  · simp [hsplit, hgap]
  · intro b hb
    rcases List.mem_append.mp hb with hb | hb
    · exact hlow b hb
    · exact absurd (by simp [hgap, hb]) (hranges b)
  · intro b hb
    rcases List.mem_append.mp hb with hb | hb
    · exact absurd (by simp [hgap, hb]) (hranges b)
    · exact hhigh b hb

end Pass

/-- The pass follows the rule exactly where it comes to no filter that cannot be asked. -/
theorem excludes_rule_iff (x : Exclusion) (c : Component) (hx : x.WellFormed) :
    (∃ excluded, x.excludes c = .ok excluded ∧ (excluded = true ↔ x.Forbids c)) ↔ x.Decides c := by
  rw [excludes_eq hx, Forbids, Decides]
  by_cases hc : .component c ∈ x.elements
  · simp [hc]
  · simp only [hc, if_false, false_or, ← isOk_anyCovers_iff]
    constructor
    · intro h
      obtain ⟨covered, hcovered, _⟩ := h
      exact ⟨covered, hcovered⟩
    · intro h
      obtain ⟨covered, hcovered⟩ := h
      refine ⟨covered, hcovered, ?_⟩
      rw [anyCovers_eq_true_iff hcovered]
      simp only [mem_gap_iff hx hc, Element.covers_iff]

def aroundC : Exclusion :=
  ⟨[.any, .component ⟨[98]⟩, .bloom (.withCapacity 1 (Vector.replicate 4 0)), .any,
    .bloom ⟨32, 7, Vector.replicate 4 0, []⟩, .component ⟨[100]⟩]⟩

theorem excludes_rule_aroundC : aroundC.WellFormed ∧
    ∃ excluded, aroundC.excludes ⟨[99]⟩ = .ok excluded ∧
      (excluded = true ↔ aroundC.Forbids ⟨[99]⟩) := by
  have hx : aroundC.WellFormed := by decide
  have hasked : (aroundC.gap ⟨[99]⟩).takeWhile (fun e => e.covers ⟨[99]⟩ ≠ .ok true) =
      [.bloom (.withCapacity 1 (Vector.replicate 4 0))] := by decide +kernel
  refine ⟨hx, (excludes_rule_iff aroundC ⟨[99]⟩ hx).mpr (Or.inr ?_)⟩
  intro f hf
  rw [hasked, List.mem_singleton] at hf
  rw [Element.bloom.inj hf]
  decide

def blind : Exclusion := ⟨[.bloom ⟨32, 7, Vector.replicate 4 0, []⟩, .any]⟩

/-- The range of all components is not reached behind a filter that cannot be asked. -/
theorem not_excludes_rule_blind : blind.WellFormed ∧ blind.Forbids ⟨[98]⟩ ∧
    ¬∃ excluded, blind.excludes ⟨[98]⟩ = .ok excluded ∧
      (excluded = true ↔ blind.Forbids ⟨[98]⟩) := by
  refine ⟨by decide, Or.inr ⟨.any, ⟨rfl, [_], [], rfl, ?_, ?_⟩, Or.inl rfl⟩, ?_⟩
  · intro b hb
    cases List.mem_singleton.mp hb
  · intro b hb
    cases hb
  · intro h
    obtain ⟨excluded, hexcluded, _⟩ := h
    cases hexcluded

end Exclusion

end NamedData
