import Mathlib.Data.List.Forall2
import NamedData.Name.Uri
import NamedData.Proofs.Escapes

namespace NamedData

namespace Segment

structure Valid (s : Bytes) : Prop where
  nonempty : s ≠ []
  escaped : Percent.Escaped s
  notDots : s ∉ [[period], [period, period], [period, period, period]]

/-- What a segment stands for. Periods only stand for three periods fewer, and any other segment for
the bytes that are left when the escapes in it are read. -/
inductive Denotes : Bytes → Bytes → Prop
  | dots {s : Bytes} : (∀ b ∈ s, b = period) → Denotes s (s.drop 3)
  | text {s bs : Bytes} : (¬∀ b ∈ s, b = period) → Percent.Denotes s bs → Denotes s bs

/-- What is wrong with a segment that starts at byte `base` of `uri`. -/
inductive Fault (uri : String) (base : Nat) : Bytes → NameError → Prop
  | empty : Fault uri base [] .emptyComponent
  | threeDots : Fault uri base [period, period, period] .emptyComponent
  | dots {s : Bytes} : s ∈ [[period], [period, period]] → Fault uri base s (.dotSegment uri)
  | stray {s : Bytes} {i : Nat} : Percent.FirstStray s i →
      Fault uri base s (.invalidEscape uri (base+i))

section

variable {uri : String} {base : Nat} {s bs : Bytes} {c : Component} {e : NameError}

theorem denotes_dots_iff (hs : ∀ b ∈ s, b = period) : Denotes s bs ↔ bs = s.drop 3 := by
  constructor
  · intro hd
    cases hd with
    | dots _ => rfl
    | text hno _ => exact absurd hs hno
  · rintro rfl
    exact .dots hs

theorem denotes_text_iff (hs : ¬∀ b ∈ s, b = period) : Denotes s bs ↔ Percent.Denotes s bs := by
  constructor
  · intro hd
    cases hd with
    | dots hdots => exact absurd hdots hs
    | text _ hd => exact hd
  · exact .text hs

theorem exists_replicate (hs : ∀ b ∈ s, b = period) : ∃ k, s = List.replicate k period :=
  ⟨s.length, List.eq_replicate_of_mem hs⟩

theorem denotes_replicate (k : Nat) :
    Percent.Denotes (List.replicate k period) (List.replicate k period) := by
  induction k with
  | zero => exact .nil
  | succ k ih => exact .plain (by decide) ih

theorem escaped_replicate (k : Nat) : Percent.Escaped (List.replicate k period) :=
  Percent.escaped_iff.mpr ⟨_, denotes_replicate k⟩

theorem ofSegment_replicate (uri : String) (base k : Nat) :
    Component.ofSegment uri base (List.replicate k period) =
      if k = 0 ∨ k = 3 then .error .emptyComponent
      else if k < 3 then .error (.dotSegment uri)
      else .ok ⟨List.replicate (k-3) period⟩ := by
  match k with
  | 0 => rfl
  | 1 => rfl
  | 2 => rfl
  | 3 => rfl
  | k+4 => simp [Component.ofSegment, Component.ofBytes]

theorem ofSegment_of_text (hs : ¬∀ b ∈ s, b = period) :
    Component.ofSegment uri base s =
      match Percent.decode base s with
      | .error p => .error (.invalidEscape uri p)
      | .ok bs => .ok ⟨bs⟩ := by
  have hall : ¬((!s.isEmpty && s.all (· == period)) = true) := by simpa using fun _ => hs
  have hne : s ≠ [] := by
    rintro rfl
    simp at hs
  rw [Component.ofSegment, if_neg hall]
  cases hd : Percent.decode base s with
  | error p => rfl
  | ok bs =>
    have hbs : bs.isEmpty = false := by
      simpa using (Percent.decode_eq_ok_iff.mp hd).ne_nil hne
    simp [Component.ofBytes, hbs]

theorem valid_replicate_iff {k : Nat} : Valid (List.replicate k period) ↔ 4 ≤ k := by
  constructor
  · intro hv
    have hne := hv.nonempty
    have hdots := hv.notDots
    match k with
    | 0 => exact absurd rfl hne
    | 1 | 2 | 3 => exact absurd (by decide) hdots
    | k+4 => omega
  · intro hk
    match k with
    | k+4 => exact ⟨by simp, escaped_replicate _, by simp [List.replicate_succ]⟩

theorem valid_of_text (hs : ¬∀ b ∈ s, b = period) (hescaped : Percent.Escaped s) : Valid s := by
  refine ⟨?_, hescaped, ?_⟩
  · rintro rfl
    simp at hs
  · intro hdots
    refine hs fun b hb => ?_
    simp only [List.mem_cons, List.not_mem_nil, or_false] at hdots
    rcases hdots with rfl | rfl | rfl <;> simpa using hb

/-- A segment that denotes a component is read as what it stands for. -/
theorem ofSegment_eq_ok_iff :
    Component.ofSegment uri base s = .ok c ↔ Valid s ∧ Denotes s c.bytes := by
  by_cases hs : ∀ b ∈ s, b = period
  · rw [denotes_dots_iff hs]
    obtain ⟨k, rfl⟩ := exists_replicate hs
    rw [ofSegment_replicate, List.drop_replicate, valid_replicate_iff]
    cases c
    split
    · simp
      omega
    split
    · simp
      omega
    · simp [eq_comm]
      omega
  · have hread : Percent.decode base s = .ok c.bytes ↔ Percent.Denotes s c.bytes :=
      Percent.decode_eq_ok_iff
    rw [denotes_text_iff hs, ofSegment_of_text hs, ← hread]
    cases hd : Percent.decode base s with
    | error p => simp
    | ok bs =>
      have hbs := Percent.decode_eq_ok_iff.mp hd
      have hv : Valid s := valid_of_text hs (Percent.escaped_iff.mpr ⟨bs, hbs⟩)
      cases c
      simp [hv]

theorem ofSegment_eq_error_iff :
    Component.ofSegment uri base s = .error e ↔ Fault uri base s e := by
  constructor
  · intro he
    by_cases hs : ∀ b ∈ s, b = period
    · obtain ⟨k, rfl⟩ := exists_replicate hs
      rw [ofSegment_replicate] at he
      match k with
      | 0 => exact (Except.error.inj he) ▸ .empty
      | 1 => exact (Except.error.inj he) ▸ .dots (by decide)
      | 2 => exact (Except.error.inj he) ▸ .dots (by decide)
      | 3 => exact (Except.error.inj he) ▸ .threeDots
      | k+4 => simp [show ¬k+4 < 3 by omega] at he
    · rw [ofSegment_of_text hs] at he
      cases hd : Percent.decode base s with
      | error p =>
        obtain ⟨i, hi, rfl⟩ := Percent.decode_eq_error_iff.mp hd
        rw [hd] at he
        exact (Except.error.inj he) ▸ .stray hi
      | ok bs =>
        rw [hd] at he
        cases he
  · intro hfault
    cases hfault with
    | empty => rfl
    | threeDots => rfl
    | dots hdots =>
      simp only [List.mem_cons, List.not_mem_nil, or_false] at hdots
      rcases hdots with rfl | rfl <;> rfl
    | @stray _ i hi =>
      have hs : ¬∀ b ∈ s, b = period := by
        intro hs
        obtain ⟨k, rfl⟩ := exists_replicate hs
        exact hi.not_escaped (escaped_replicate k)
      rw [ofSegment_of_text hs, Percent.decode_eq_error_iff.mpr ⟨i, hi, rfl⟩]

theorem Fault.not_valid (he : Fault uri base s e) : ¬Valid s := by
  intro hv
  cases he with
  | empty => exact hv.nonempty rfl
  | threeDots => exact hv.notDots (by decide)
  | dots hdots => exact hv.notDots (by simp at hdots ⊢; tauto)
  | stray hi => exact hi.not_escaped hv.escaped

theorem Valid.exists_ofSegment (hs : Valid s) (uri : String) (base : Nat) :
    ∃ c, Component.ofSegment uri base s = .ok c := by
  cases hr : Component.ofSegment uri base s with
  | ok c => exact ⟨c, rfl⟩
  | error e => exact absurd hs (ofSegment_eq_error_iff.mp hr).not_valid

theorem Denotes.ne_nil (hd : Denotes s bs) (hs : Valid s) : bs ≠ [] := by
  cases hd with
  | dots hdots =>
    obtain ⟨k, rfl⟩ := exists_replicate hdots
    have hk : 4 ≤ k := valid_replicate_iff.mp hs
    rw [List.drop_replicate, Ne, List.replicate_eq_nil_iff]
    omega
  | text _ hd => exact Percent.Denotes.ne_nil hd hs.nonempty

end

end Segment

namespace Name

/-- Where the path of a URI starts: after the scheme, if the URI begins with it. -/
def pathStart (uri : String) : Nat :=
  if scheme.isPrefixOf (Bytes.ofText uri) then scheme.length else 0

def path (uri : String) : Bytes := (Bytes.ofText uri).drop (pathStart uri)

/-- The segments of a path: the parts between its slashes, without an empty one at the end. -/
def trim : List Bytes → List Bytes
  | [] => []
  | [[]] => []
  | s :: rest => s :: trim rest

def spell (segs : List Bytes) : Bytes := segs.flatMap (slash :: ·)

/-- A path consists of these segments with a slash before each, and there may be one more slash at
the end. -/
structure Segmented (path : Bytes) (segs : List Bytes) : Prop where
  noSlash : ∀ s ∈ segs, slash ∉ s
  spelled : path = spell segs ++ [slash] ∨ path = spell segs ∧ segs ≠ [] ∧ segs.getLast? ≠ some []

theorem spell_cons (s : Bytes) (segs : List Bytes) :
    spell (s :: segs) = slash :: (s ++ spell segs) := by
  simp [spell]

section Parts

variable {uri : String} {base : Nat} {s : Bytes} {parts segs : List Bytes}

theorem trim_cons (h : s = [] → parts ≠ []) : trim (s :: parts) = s :: trim parts := by
  rw [trim]
  exact h

theorem trim_append (segs : List Bytes) : trim (segs ++ [[]]) = segs := by
  induction segs with
  | nil => rfl
  | cons s segs ih => rw [List.cons_append, trim_cons (by simp), ih]

theorem trim_eq_self (h : segs.getLast? ≠ some []) : trim segs = segs := by
  induction segs with
  | nil => rfl
  | cons s segs ih =>
    rw [trim_cons, ih]
    · intro hlast
      rw [List.getLast?_cons, hlast] at h
      exact h rfl
    · rintro rfl rfl
      exact h rfl

theorem trim_cases (parts : List Bytes) :
    parts = trim parts ++ [[]] ∨ parts = trim parts ∧ parts.getLast? ≠ some [] := by
  by_cases h : parts.getLast? = some []
  · obtain ⟨init, rfl⟩ := List.getLast?_eq_some_iff.mp h
    exact Or.inl (by rw [trim_append])
  · exact Or.inr ⟨(trim_eq_self h).symm, h⟩

theorem ofSegments_cons (h : s = [] → parts ≠ []) :
    ofSegments uri base (s :: parts) =
      match Component.ofSegment uri base s with
      | .error e => .error e
      | .ok c => (ofSegments uri (base+s.length+1) parts).map (c :: ·) := by
  cases s with
  | nil =>
    cases parts with
    | nil => exact absurd rfl (h rfl)
    | cons t parts => rfl
  | cons b s => rfl

theorem ofSegments_eq_ok_iff {cs : List Component} :
    ofSegments uri base parts = .ok cs ↔
      (∀ s ∈ trim parts, Segment.Valid s) ∧
        List.Forall₂ (fun s c => Segment.Denotes s c.bytes) (trim parts) cs := by
  fun_induction trim parts generalizing base cs with
  | case1 => simp [ofSegments, eq_comm]
  | case2 => simp [ofSegments, eq_comm]
  | case3 s rest h ih =>
    rw [ofSegments_cons h, List.forall_mem_cons, List.forall₂_cons_left_iff]
    cases hr : Component.ofSegment uri base s with
    | error e =>
      have hs : ¬Segment.Valid s := (Segment.ofSegment_eq_error_iff.mp hr).not_valid
      simp [hs]
    | ok c =>
      have hs : Segment.Valid s := (Segment.ofSegment_eq_ok_iff.mp hr).1
      have hc (d : Component) : Segment.Denotes s d.bytes ↔ d = c := by
        have hd : Component.ofSegment uri base s = .ok d ↔ _ := Segment.ofSegment_eq_ok_iff
        rw [hr, Except.ok.injEq, and_iff_right hs] at hd
        rw [← hd, eq_comm]
      simp only [map_eq_ok_iff, ih, hs, true_and, hc]
      constructor
      · rintro ⟨cs, rfl, hrest, hcs⟩
        exact ⟨hrest, c, cs, rfl, hcs, rfl⟩
      · rintro ⟨hrest, _, cs, rfl, hcs, rfl⟩
        exact ⟨cs, rfl, hrest, hcs⟩

/-- Reading stops at the first segment that denotes no component, and tells its fault. -/
theorem ofSegments_eq_error_iff {e : NameError} :
    ofSegments uri base parts = .error e ↔
      ∃ before s after, trim parts = before ++ s :: after ∧ (∀ t ∈ before, Segment.Valid t) ∧
        Segment.Fault uri (base+(spell before).length) s e := by
  have hbase (base : Nat) (s : Bytes) (before : List Bytes) :
      base+(spell (s :: before)).length = base+s.length+1+(spell before).length := by
    rw [spell_cons, List.length_cons, List.length_append]
    omega
  fun_induction trim parts generalizing base with
  | case1 => simp [ofSegments]
  | case2 => simp [ofSegments]
  | case3 s rest h ih =>
    rw [ofSegments_cons h]
    constructor
    · intro he
      cases hr : Component.ofSegment uri base s with
      | error e' =>
        simp only [hr, Except.error.injEq] at he
        rw [Segment.ofSegment_eq_error_iff, he] at hr
        exact ⟨[], s, trim rest, rfl, by simp, hr⟩
      | ok c =>
        simp only [hr, map_eq_error_iff, ih] at he
        obtain ⟨before, t, after, hsplit, hbefore, hfault⟩ := he
        have hs : Segment.Valid s := (Segment.ofSegment_eq_ok_iff.mp hr).1
        exact ⟨s :: before, t, after, by rw [hsplit, List.cons_append],
          List.forall_mem_cons.mpr ⟨hs, hbefore⟩, by rwa [hbase]⟩
    · rintro ⟨before, t, after, hsplit, hbefore, hfault⟩
      cases before with
      | nil =>
        obtain ⟨rfl, _⟩ := List.cons.inj hsplit
        have hr : Component.ofSegment uri base s = .error e :=
          Segment.ofSegment_eq_error_iff.mpr hfault
        rw [hr]
      | cons b before =>
        obtain ⟨rfl, hrest⟩ := List.cons.inj hsplit
        obtain ⟨hs, hbefore⟩ := List.forall_mem_cons.mp hbefore
        obtain ⟨c, hc⟩ := hs.exists_ofSegment uri base
        rw [hbase] at hfault
        simp only [hc, map_eq_error_iff, ih]
        exact ⟨before, t, after, hrest, hbefore, hfault⟩

theorem exists_segments (body : Bytes) : ∃ s rest, segments body = s :: rest := by
  induction body with
  | nil => exact ⟨[], [], rfl⟩
  | cons b body ih =>
    obtain ⟨s, rest, hsegs⟩ := ih
    by_cases hb : b = slash
    · exact ⟨[], segments body, by rw [segments, if_pos hb]⟩
    · exact ⟨b :: s, rest, by rw [segments, if_neg hb, hsegs, List.modifyHead_cons]⟩

theorem spell_segments (body : Bytes) : spell (segments body) = slash :: body := by
  induction body with
  | nil => rfl
  | cons b body ih =>
    rw [segments]
    split
    next hb => rw [spell_cons, ih, hb, List.nil_append]
    next =>
      obtain ⟨s, rest, hsegs⟩ := exists_segments body
      rw [hsegs, spell_cons, List.cons.injEq] at ih
      rw [hsegs, List.modifyHead_cons, spell_cons, List.cons_append, ih.2]

theorem slash_notMem_segments (body : Bytes) : ∀ s ∈ segments body, slash ∉ s := by
  induction body with
  | nil => simp [segments]
  | cons b body ih =>
    rw [segments]
    split
    · exact List.forall_mem_cons.mpr ⟨List.not_mem_nil, ih⟩
    next hb =>
      obtain ⟨s, rest, hsegs⟩ := exists_segments body
      rw [hsegs, List.forall_mem_cons] at ih
      rw [hsegs, List.modifyHead_cons, List.forall_mem_cons]
      exact ⟨by simp [ih.1, Ne.symm hb], ih.2⟩

theorem segments_of_notMem (hs : slash ∉ s) : segments s = [s] := by
  induction s with
  | nil => rfl
  | cons b s ih =>
    rw [List.mem_cons, not_or] at hs
    rw [segments, if_neg (Ne.symm hs.1), ih hs.2, List.modifyHead_cons]

theorem segments_append (hs : slash ∉ s) (body : Bytes) :
    segments (s ++ slash :: body) = s :: segments body := by
  induction s with
  | nil => rfl
  | cons b s ih =>
    rw [List.mem_cons, not_or] at hs
    rw [List.cons_append, segments, if_neg (Ne.symm hs.1), ih hs.2, List.modifyHead_cons]

theorem segments_eq {body : Bytes} (hparts : ∀ s ∈ parts, slash ∉ s)
    (hbody : spell parts = slash :: body) : segments body = parts := by
  induction parts generalizing body with
  | nil => cases hbody
  | cons s rest ih =>
    obtain ⟨hs, hrest⟩ := List.forall_mem_cons.mp hparts
    rw [spell_cons, List.cons.injEq] at hbody
    rw [← hbody.2]
    cases rest with
    | nil => rw [spell, List.flatMap_nil, List.append_nil, segments_of_notMem hs]
    | cons t rest =>
      have hnext := spell_cons t rest
      rw [hnext, segments_append hs, ih hrest hnext]

/-- The segments of a path that begins with a slash are the parts after it, without an empty one at
the end. -/
theorem segmented_iff {p : Bytes} :
    Segmented p segs ↔ ∃ body, p = slash :: body ∧ trim (segments body) = segs := by
  have hend (segs : List Bytes) : spell (segs ++ [[]]) = spell segs ++ [slash] := by
    simp [spell]
  constructor
  · rintro ⟨hslash, hpath | ⟨hpath, hne, hlast⟩⟩
    · rw [← hend] at hpath
      obtain ⟨body, hbody⟩ : ∃ body, spell (segs ++ [[]]) = slash :: body := by
        cases segs <;> exact ⟨_, rfl⟩
      have hparts := segments_eq (by simpa [or_imp, forall_and] using hslash) hbody
      exact ⟨body, hpath.trans hbody, by rw [hparts, trim_append]⟩
    · obtain ⟨body, hbody⟩ : ∃ body, spell segs = slash :: body := by
        cases segs with
        | nil => exact absurd rfl hne
        | cons s rest => exact ⟨_, rfl⟩
      exact ⟨body, hpath.trans hbody, by rw [segments_eq hslash hbody, trim_eq_self hlast]⟩
  · rintro ⟨body, rfl, rfl⟩
    have hslash := slash_notMem_segments body
    rw [← spell_segments]
    rcases trim_cases (segments body) with hparts | ⟨hparts, hlast⟩
    · rw [hparts] at hslash
      refine ⟨fun s hs => hslash s (List.mem_append_left _ hs), Or.inl ?_⟩
      rw [← hend, ← hparts]
    · rw [← hparts]
      obtain ⟨s, rest, hsegs⟩ := exists_segments body
      exact ⟨hslash, Or.inr ⟨rfl, by simp [hsegs], hlast⟩⟩

theorem Segmented.head? {p : Bytes} (h : Segmented p segs) : p.head? = some slash := by
  obtain ⟨body, rfl, _⟩ := segmented_iff.mp h
  rfl

theorem Segmented.unique {p : Bytes} {segs' : List Bytes} (h : Segmented p segs)
    (h' : Segmented p segs') : segs = segs' := by
  obtain ⟨body, rfl, rfl⟩ := segmented_iff.mp h
  obtain ⟨body', hbody, rfl⟩ := segmented_iff.mp h'
  rw [(List.cons.inj hbody).2]

end Parts

section Texts

variable {uri : String} {base : Nat} {p : Bytes} {n : Name} {e : NameError}

theorem ofPath_eq_ok_iff :
    ofPath uri base p = .ok n ↔ ∃ segs, Segmented p segs ∧ (∀ s ∈ segs, Segment.Valid s) ∧
      List.Forall₂ (fun s c => Segment.Denotes s c.bytes) segs n.components := by
  cases p with
  | nil => simp [ofPath, segmented_iff]
  | cons b body =>
    rw [ofPath]
    split
    next hb =>
      subst hb
      simp only [map_eq_ok_iff, ofSegments_eq_ok_iff, segmented_iff, List.cons.injEq, true_and]
      constructor
      · rintro ⟨cs, rfl, hvalid, hcs⟩
        exact ⟨_, ⟨body, rfl, rfl⟩, hvalid, hcs⟩
      · rintro ⟨_, ⟨_, rfl, rfl⟩, hvalid, hcs⟩
        exact ⟨n.components, rfl, hvalid, hcs⟩
    next hb => simp [segmented_iff, hb]

theorem ofPath_eq_error_iff :
    ofPath uri base p = .error e ↔
      p.head? ≠ some slash ∧ e = .notAbsolute uri ∨
      ∃ before s after, Segmented p (before ++ s :: after) ∧ (∀ t ∈ before, Segment.Valid t) ∧
        Segment.Fault uri (base+1+(spell before).length) s e := by
  cases p with
  | nil => simp [ofPath, segmented_iff, eq_comm]
  | cons b body =>
    rw [ofPath]
    split
    next hb =>
      subst hb
      simp [map_eq_error_iff, ofSegments_eq_error_iff, segmented_iff]
    next hb => simp [segmented_iff, hb, eq_comm]

theorem ofText_eq_ofPath (uri : String) : ofText uri = ofPath uri (pathStart uri) (path uri) := by
  rw [ofText, path, pathStart]
  split <;> rfl

theorem ofText_eq_ok_iff :
    ofText uri = .ok n ↔ ∃ segs, Segmented (path uri) segs ∧ (∀ s ∈ segs, Segment.Valid s) ∧
      List.Forall₂ (fun s c => Segment.Denotes s c.bytes) segs n.components := by
  rw [ofText_eq_ofPath, ofPath_eq_ok_iff]

theorem ofText_eq_error_iff :
    ofText uri = .error e ↔
      (path uri).head? ≠ some slash ∧ e = .notAbsolute uri ∨
      ∃ before s after, Segmented (path uri) (before ++ s :: after) ∧
        (∀ t ∈ before, Segment.Valid t) ∧
        Segment.Fault uri (pathStart uri+1+(spell before).length) s e := by
  rw [ofText_eq_ofPath, ofPath_eq_error_iff]

theorem isEmpty_of_ofText (h : ofText uri = .ok n) : ∀ c ∈ n.components, c.isEmpty = false := by
  obtain ⟨segs, _, hvalid, hcs⟩ := ofText_eq_ok_iff.mp h
  intro c hc
  obtain ⟨i, hi, rfl⟩ := List.getElem_of_mem hc
  have hlen := hcs.length_eq
  have hden : Segment.Denotes segs[i] n.components[i].bytes := hcs.get (by omega) hi
  simpa [Component.isEmpty] using hden.ne_nil (hvalid _ (List.getElem_mem _))

/-- Reading accepts the texts of the grammar. It yields one component for each segment, none of them
empty, or tells what is wrong with the first segment that denotes none. -/
theorem ofText_grammar (uri : String) :
    ((∃ n, ofText uri = .ok n) ↔ ∃ segs, Segmented (path uri) segs ∧ ∀ s ∈ segs, Segment.Valid s) ∧
    (∀ n, ofText uri = .ok n → (∀ c ∈ n.components, c.isEmpty = false) ∧
      ∃ segs, Segmented (path uri) segs ∧
        List.Forall₂ (fun s c => Segment.Denotes s c.bytes) segs n.components) ∧
    ∀ e, ofText uri = .error e ↔
      (path uri).head? ≠ some slash ∧ e = .notAbsolute uri ∨
      ∃ before s after, Segmented (path uri) (before ++ s :: after) ∧
        (∀ t ∈ before, Segment.Valid t) ∧
        Segment.Fault uri (pathStart uri+1+(spell before).length) s e := by
  refine ⟨?_, ?_, fun e => ofText_eq_error_iff⟩
  · constructor
    · rintro ⟨n, hn⟩
      obtain ⟨segs, hsegs, hvalid, _⟩ := ofText_eq_ok_iff.mp hn
      exact ⟨segs, hsegs, hvalid⟩
    · rintro ⟨segs, hsegs, hvalid⟩
      cases hr : ofText uri with
      | ok n => exact ⟨n, rfl⟩
      | error e =>
        rcases ofText_eq_error_iff.mp hr with ⟨hhead, _⟩ | ⟨before, s, after, hsplit, _, hfault⟩
        · exact absurd hsegs.head? hhead
        · rw [hsegs.unique hsplit] at hvalid
          exact absurd (hvalid s (by simp)) hfault.not_valid
  · intro n hn
    obtain ⟨segs, hsegs, _, hcs⟩ := ofText_eq_ok_iff.mp hn
    exact ⟨isEmpty_of_ofText hn, segs, hsegs, hcs⟩

theorem ofText_grammar_periods :
    (ofText "ccnx:/a%2f/...../" = .ok ⟨[⟨[0x61, slash]⟩, ⟨[period, period]⟩]⟩ ∧
      ∃ segs, Segmented (path "ccnx:/a%2f/...../") segs ∧
        List.Forall₂ (fun s (c : Component) => Segment.Denotes s c.bytes) segs
          [⟨[0x61, slash]⟩, ⟨[period, period]⟩]) ∧
    ofText "/a/./%" = .error (.dotSegment "/a/./%") ∧
      ¬∃ segs, Segmented (path "/a/./%") segs ∧ ∀ s ∈ segs, Segment.Valid s := by
  have hread : ofText "ccnx:/a%2f/...../" = .ok ⟨[⟨[0x61, slash]⟩, ⟨[period, period]⟩]⟩ := by
    decide
  have hfail : ofText "/a/./%" = .error (.dotSegment "/a/./%") := by decide
  refine ⟨⟨hread, ((ofText_grammar "ccnx:/a%2f/...../").2.1 _ hread).2⟩, hfail, ?_⟩
  rw [← (ofText_grammar "/a/./%").1, hfail]
  simp

end Texts

end Name

end NamedData
