import NamedData.Proofs.RoundTrip

namespace NamedData

namespace Bytes

theorem ofText_eq_ofChars (s : String) : ofText s = ofChars s.toList := by
  rw [← ofText_ofList, String.ofList_toList]

/-- A byte below 0x80 is the whole form of its character. -/
theorem eq_singleton_of_mem {c : Char} {b : UInt8} (hb : b ∈ String.utf8EncodeChar c)
    (hlow : b < 0x80) : String.utf8EncodeChar c = [b] := by
  have hlt : b.toNat < 128 := UInt8.lt_iff_toNat_lt.mp hlow
  rw [String.utf8EncodeChar] at hb ⊢
  by_cases hascii : c.val.toNat ≤ 0x7F
  · rw [if_pos hascii] at hb ⊢
    rw [List.mem_singleton.mp hb]
  · rw [if_neg hascii] at hb
    have hhigh (n : Nat) (hn : 128 ≤ n%256) : b ≠ UInt8.ofNat n := by
      intro h
      rw [h, UInt8.toNat_ofNat'] at hlt
      omega
    split_ifs at hb <;>
      simp (disch := omega) only [List.mem_cons, List.not_mem_nil, hhigh, or_false] at hb

theorem exists_ofChars_split {cs : List Char} {front rest : Bytes} {b : UInt8} (hlow : b < 0x80)
    (h : ofChars cs = front ++ b :: rest) :
    ∃ ds es, ofChars ds = front ∧ ofChars es = rest := by
  induction cs generalizing front with
  | nil => simp [ofChars] at h
  | cons c cs ih =>
    have hcons (ds : List Char) : ofChars (c :: ds) = String.utf8EncodeChar c ++ ofChars ds :=
      List.flatMap_cons
    rw [hcons, List.append_eq_append_iff] at h
    cases h with
    | inl h =>
      obtain ⟨more, hfront, hcs⟩ := h
      obtain ⟨ds, es, hds, hes⟩ := ih hcs
      exact ⟨c :: ds, es, by rw [hcons, hds, hfront], hes⟩
    | inr h =>
      obtain ⟨back, hchar, hback⟩ := h
      cases back with
      | nil =>
        have hrest : ofChars cs = [] ++ b :: rest := hback.symm
        obtain ⟨ds, es, hds, hes⟩ := ih hrest
        exact ⟨c :: ds, es, by rw [hcons, hds, hchar, List.append_nil, List.append_nil], hes⟩
      | cons d back =>
        obtain ⟨hd, hrest⟩ := List.cons.inj hback
        have hmem : b ∈ String.utf8EncodeChar c := by simp [hchar, hd]
        have hwhole := eq_singleton_of_mem hmem hlow
        have hlength := congrArg List.length (hchar.symm.trans hwhole)
        rw [List.length_append, List.length_cons, List.length_singleton] at hlength
        have hfront : front = [] := List.eq_nil_of_length_eq_zero (by omega)
        have hnone : back = [] := List.eq_nil_of_length_eq_zero (by omega)
        exact ⟨[], cs, hfront.symm, by rw [hrest, hnone]; rfl⟩

/-- What stands before a slash in a text is a text, and so is what stands behind it. -/
theorem exists_text_split {text : String} {front rest : Bytes}
    (h : ofText text = front ++ slash :: rest) :
    ∃ before after, ofText before = front ∧ ofText after = rest := by
  rw [ofText_eq_ofChars] at h
  obtain ⟨ds, es, hds, hes⟩ := exists_ofChars_split (by decide) h
  exact ⟨String.ofList ds, String.ofList es, by rw [ofText_ofList, hds], by rw [ofText_ofList, hes]⟩

end Bytes

namespace Percent

def Ended (rest : Bytes) : Prop := ∀ b ∈ rest.head?, b = slash

section Positions

variable {front s rest : Bytes} {i j : Nat}

theorem ended_cons (rest : Bytes) : Ended (slash :: rest) := by
  intro b hb
  exact (Option.some.inj hb).symm

theorem not_isDigit_slash : ¬Hex.IsDigit slash := by
  intro h
  obtain ⟨v, hv⟩ := h
  grind [Hex.Denotes, slash]

theorem Ended.not_isDigit {b : UInt8} {tail : Bytes} (h : Ended (b :: tail)) : ¬Hex.IsDigit b := by
  rw [h b rfl]
  exact not_isDigit_slash

theorem followed_append_iff (hrest : Ended rest) : Followed (s ++ rest) ↔ Followed s := by
  constructor
  · intro h
    obtain ⟨hi, lo, tail, hsplit, hhi, hlo⟩ := h
    match s, hsplit with
    | [], hsplit =>
      rw [List.nil_append] at hsplit
      exact absurd hhi (hsplit ▸ hrest).not_isDigit
    | [a], hsplit =>
      have hnext : rest = lo :: tail := (List.cons.inj hsplit).2
      exact absurd hlo (hnext ▸ hrest).not_isDigit
    | a :: b :: s, hsplit =>
      obtain ⟨ha, hnext⟩ := List.cons.inj hsplit
      obtain ⟨hb, _⟩ := List.cons.inj hnext
      exact ⟨a, b, s, rfl, ha ▸ hhi, hb ▸ hlo⟩
  · intro h
    obtain ⟨hi, lo, tail, hs, hhi, hlo⟩ := h
    exact ⟨hi, lo, tail ++ rest, by rw [hs]; rfl, hhi, hlo⟩

theorem StrayAt.lt_length (h : StrayAt s i) : i < s.length := by
  obtain ⟨after, hdrop, _⟩ := h
  by_contra hge
  rw [List.drop_eq_nil_of_le (by omega)] at hdrop
  cases hdrop

theorem strayAt_append_left (hrest : Ended rest) (hi : i < s.length) :
    StrayAt (s ++ rest) i ↔ StrayAt s i := by
  have hdrop : (s ++ rest).drop i = s.drop i ++ rest := List.drop_append_of_le_length (by omega)
  rw [StrayAt, StrayAt, hdrop, List.drop_eq_getElem_cons hi]
  simp only [List.cons_append, List.cons.injEq]
  constructor
  · intro h
    obtain ⟨after, ⟨hsign, hafter⟩, hno⟩ := h
    rw [← hafter, followed_append_iff hrest] at hno
    exact ⟨_, ⟨hsign, rfl⟩, hno⟩
  · intro h
    obtain ⟨after, ⟨hsign, hafter⟩, hno⟩ := h
    rw [← hafter, ← followed_append_iff hrest] at hno
    exact ⟨_, ⟨hsign, rfl⟩, hno⟩

theorem strayAt_append_right : StrayAt (front ++ rest) (front.length+i) ↔ StrayAt rest i := by
  rw [StrayAt, StrayAt, List.drop_append, List.drop_eq_nil_of_le (by omega), List.nil_append,
    Nat.add_sub_cancel_left]

/-- Behind a front without stray signs the first one is the first of what follows. -/
theorem firstStray_append (hfront : ∀ j < front.length, ¬StrayAt (front ++ rest) j) :
    FirstStray (front ++ rest) (front.length+i) ↔ FirstStray rest i := by
  constructor
  · intro h
    obtain ⟨hi, hfirst⟩ := h
    refine ⟨strayAt_append_right.mp hi, fun j hj hstray => ?_⟩
    exact hfirst (front.length+j) (by omega) (strayAt_append_right.mpr hstray)
  · intro h
    obtain ⟨hi, hfirst⟩ := h
    refine ⟨strayAt_append_right.mpr hi, fun j hj => ?_⟩
    by_cases hlt : j < front.length
    · exact hfront j hlt
    · have hsum : front.length+(j-front.length) = j := by omega
      rw [← hsum, strayAt_append_right]
      exact hfirst _ (by omega)

theorem FirstStray.append_left (hrest : Ended rest) (h : FirstStray s i) :
    FirstStray (s ++ rest) i := by
  have hi := h.1.lt_length
  refine ⟨(strayAt_append_left hrest hi).mpr h.1, fun j hj => ?_⟩
  rw [strayAt_append_left hrest (by omega)]
  exact h.2 j hj

theorem FirstStray.unique (hi : FirstStray s i) (hj : FirstStray s j) : i = j := by
  have hle : ¬i < j := fun h => hj.2 i h hi.1
  have hge : ¬j < i := fun h => hi.2 j h hj.1
  omega

theorem not_strayAt_append_of_notMem (hfront : sign ∉ front) (hi : i < front.length) :
    ¬StrayAt (front ++ rest) i := by
  intro h
  obtain ⟨after, hdrop, _⟩ := h
  rw [List.drop_append_of_le_length (by omega), List.drop_eq_getElem_cons hi] at hdrop
  have hsign : front[i] = sign := (List.cons.inj hdrop).1
  exact hfront (hsign ▸ List.getElem_mem hi)

end Positions

end Percent

/-- A segment is a text, and this text is read as a component. -/
def Segment.Acceptable (s : Bytes) : Prop :=
  ∃ text c, Bytes.ofText text = s ∧ Component.ofText text = .ok c

theorem Segment.Acceptable.valid {s : Bytes} (h : Acceptable s) : Valid s := by
  obtain ⟨text, c, htext, hread⟩ := h
  rw [← htext]
  exact (ofSegment_eq_ok_iff.mp hread).1

namespace Name

open Percent

/-- Where a segment ends that stands behind others in the path of a URI. -/
def segmentEnd (uri : String) (before : List Bytes) (s : Bytes) : Nat :=
  pathStart uri+(spell (before ++ [s])).length

/-- The first stray percent sign of an absolute URI, where every segment that ends before it is
acceptable. -/
structure EscapeFault (uri : String) (offset : Nat) : Prop where
  absolute : (path uri).head? = some slash
  firstStray : FirstStray (Bytes.ofText uri) offset
  acceptable : ∀ before s after, Segmented (path uri) (before ++ s :: after) →
    segmentEnd uri before s ≤ offset → Segment.Acceptable s

section Places

variable {uri : String} {before after segs : List Bytes} {s rest : Bytes} {i j offset : Nat}

theorem spell_append (segs more : List Bytes) : spell (segs ++ more) = spell segs ++ spell more :=
  List.flatMap_append

theorem ended_spell_append (segs : List Bytes) (hrest : Ended rest) : Ended (spell segs ++ rest) := by
  cases segs with
  | nil => exact hrest
  | cons s segs =>
    rw [spell_cons]
    exact ended_cons _

theorem not_strayAt_spell (hrest : Ended rest) (hsegs : ∀ s ∈ segs, Escaped s)
    (hj : j < (spell segs).length) : ¬StrayAt (spell segs ++ rest) j := by
  induction segs generalizing j with
  | nil => cases hj
  | cons s segs ih =>
    obtain ⟨hs, hmore⟩ := List.forall_mem_cons.mp hsegs
    rw [spell_cons, List.length_cons, List.length_append] at hj
    rw [spell_cons, List.cons_append, List.append_assoc]
    cases j with
    | zero =>
      intro h
      cases (strayAt_cons_zero.mp h).1
    | succ j =>
      rw [strayAt_cons_succ]
      by_cases hin : j < s.length
      · rw [strayAt_append_left (ended_spell_append segs hrest) hin]
        exact hs j
      · have hsum : s.length+(j-s.length) = j := by omega
        rw [← hsum, strayAt_append_right]
        exact ih hmore (by omega)

/-- A URI is its path behind the scheme, in which there is no percent sign. -/
theorem exists_front (uri : String) :
    ∃ front, Bytes.ofText uri = front ++ path uri ∧ front.length = pathStart uri ∧ sign ∉ front := by
  rw [path, pathStart]
  split
  next hscheme =>
    obtain ⟨rest, hrest⟩ := List.isPrefixOf_iff_prefix.mp hscheme
    refine ⟨scheme, ?_, rfl, by decide⟩
    rw [← hrest, List.drop_left]
  next => exact ⟨[], rfl, rfl, List.not_mem_nil⟩

theorem Segmented.exists_tail {p : Bytes} (h : Segmented p segs) :
    ∃ tail, p = spell segs ++ tail ∧ Ended tail ∧ sign ∉ tail := by
  cases h.spelled with
  | inl hslash => exact ⟨[slash], hslash, ended_cons [], by decide⟩
  | inr hend =>
    refine ⟨[], by rw [hend.1, List.append_nil], ?_, List.not_mem_nil⟩
    intro b hb
    cases hb

theorem exists_frame (h : Segmented (path uri) (segs ++ after)) :
    ∃ front rest, Bytes.ofText uri = front ++ (spell segs ++ rest) ∧
      front.length = pathStart uri ∧ sign ∉ front ∧ Ended rest := by
  obtain ⟨front, huri, hlength, hfront⟩ := exists_front uri
  obtain ⟨tail, hpath, htail, _⟩ := h.exists_tail
  refine ⟨front, spell after ++ tail, ?_, hlength, hfront, ended_spell_append after htail⟩
  rw [huri, hpath, spell_append, List.append_assoc]

/-- Up to the end of segments without stray signs there is none in the URI. -/
theorem not_strayAt_uri (h : Segmented (path uri) (segs ++ after)) (hsegs : ∀ s ∈ segs, Escaped s)
    (hj : j < pathStart uri+(spell segs).length) : ¬StrayAt (Bytes.ofText uri) j := by
  obtain ⟨front, rest, huri, hlength, hfront, hrest⟩ := exists_frame h
  rw [huri]
  by_cases hin : j < front.length
  · exact not_strayAt_append_of_notMem hfront hin
  · have hsum : front.length+(j-front.length) = j := by omega
    rw [← hsum, strayAt_append_right]
    exact not_strayAt_spell hrest hsegs (by omega)

theorem exists_around (h : Segmented (path uri) (before ++ s :: after)) :
    ∃ front rest, Bytes.ofText uri = front ++ slash :: (s ++ rest) ∧
      front.length = pathStart uri+(spell before).length ∧ Ended rest := by
  have hall : Segmented (path uri) ((before ++ [s]) ++ after) := by rwa [List.append_assoc]
  obtain ⟨front, rest, huri, hlength, _, hrest⟩ := exists_frame hall
  refine ⟨front ++ spell before, rest, ?_, by rw [List.length_append, hlength], hrest⟩
  rw [huri, spell_append, spell_cons, spell, spell, List.flatMap_nil, List.append_nil,
    List.append_assoc, List.append_assoc, List.cons_append]

/-- The first stray sign of a segment is that of the URI if the segments before it have none. -/
theorem firstStray_uri (h : Segmented (path uri) (before ++ s :: after))
    (hbefore : ∀ t ∈ before, Escaped t) (hi : FirstStray s i) :
    FirstStray (Bytes.ofText uri) (pathStart uri+1+(spell before).length+i) := by
  have hfree (j : Nat) : j < pathStart uri+(spell before).length → ¬StrayAt (Bytes.ofText uri) j :=
    not_strayAt_uri h hbefore
  obtain ⟨front, rest, huri, hlength, hrest⟩ := exists_around h
  have hplace : pathStart uri+1+(spell before).length+i = front.length+(i+1) := by omega
  rw [← hlength, huri] at hfree
  rw [huri, hplace, firstStray_append hfree, firstStray_plain (by decide)]
  exact ⟨i, rfl, hi.append_left hrest⟩

theorem escaped_uri (h : Segmented (path uri) segs) (hsegs : ∀ s ∈ segs, Escaped s) :
    Escaped (Bytes.ofText uri) := by
  intro j hstray
  have hall : Segmented (path uri) (segs ++ []) := by rwa [List.append_nil]
  by_cases hin : j < pathStart uri+(spell segs).length
  · exact not_strayAt_uri hall hsegs hin hstray
  · obtain ⟨front, huri, hlength, _⟩ := exists_front uri
    obtain ⟨tail, hpath, _, htail⟩ := h.exists_tail
    have hsum : (front ++ spell segs).length+(j-(front ++ spell segs).length) = j := by
      rw [List.length_append]
      omega
    rw [huri, hpath, ← List.append_assoc, ← hsum, strayAt_append_right] at hstray
    obtain ⟨rest, hdrop, _⟩ := hstray
    apply htail
    exact List.mem_of_mem_drop (i := j-(front ++ spell segs).length) (by rw [hdrop]; simp)

end Places

section Reports

variable {uri u : String} {before after before' after' segs : List Bytes} {s s' : Bytes}
  {offset : Nat}

theorem acceptable_of_valid (h : Segmented (path uri) (before ++ s :: after))
    (hs : Segment.Valid s) : Segment.Acceptable s := by
  obtain ⟨front, rest, huri, _, hrest⟩ := exists_around h
  obtain ⟨_, tail, _, htail⟩ := Bytes.exists_text_split huri
  have hsegment : ∃ text, Bytes.ofText text = s := by
    cases rest with
    | nil => exact ⟨tail, by rw [htail, List.append_nil]⟩
    | cons b rest =>
      have hb : b = slash := hrest b rfl
      rw [hb] at htail
      obtain ⟨text, _, htext, _⟩ := Bytes.exists_text_split htail
      exact ⟨text, htext⟩
  obtain ⟨text, htext⟩ := hsegment
  obtain ⟨c, hc⟩ := hs.exists_ofSegment text 0
  exact ⟨text, c, htext, by rw [Component.ofText, htext, hc]⟩

theorem segmentEnd_eq (uri : String) (before : List Bytes) (s : Bytes) :
    segmentEnd uri before s = pathStart uri+1+(spell before).length+s.length := by
  rw [segmentEnd, spell_append, spell_cons, spell, spell, List.flatMap_nil, List.append_nil,
    List.length_append, List.length_cons]
  omega

theorem segmentEnd_mono (uri : String) (h : before ++ [s] <+: before' ++ [s']) :
    segmentEnd uri before s ≤ segmentEnd uri before' s' := by
  obtain ⟨more, hmore⟩ := h
  rw [segmentEnd, segmentEnd, ← hmore, spell_append (before ++ [s]), List.length_append]
  omega

theorem mem_of_segmentEnd_lt (h : before ++ s :: after = before' ++ s' :: after')
    (hend : segmentEnd uri before' s' < segmentEnd uri before s) : s' ∈ before := by
  have hfront : before ++ [s] <+: before ++ s :: after := ⟨after, by simp⟩
  have hfront' : before' ++ [s'] <+: before ++ s :: after := ⟨after', by simp [h]⟩
  have hnot : ¬before ++ [s] <+: before' ++ [s'] := fun hle =>
    Nat.not_le_of_lt hend (segmentEnd_mono uri hle)
  have hone := List.prefix_or_prefix_of_prefix hfront hfront'
  cases List.prefix_concat_iff.mp (hone.resolve_left hnot) with
  | inl hsame => exact absurd (hsame ▸ List.prefix_rfl) hnot
  | inr hbefore => exact hbefore.subset (by simp)

theorem fault_of_firstStray {base i : Nat} {e : NameError} (he : Segment.Fault uri base s e)
    (hi : FirstStray s i) : e = .invalidEscape uri (base+i) := by
  have hread : Component.ofSegment uri base s = .error e := Segment.ofSegment_eq_error_iff.mpr he
  rw [Segment.ofSegment_eq_error_iff.mpr (.stray hi)] at hread
  exact (Except.error.inj hread).symm

theorem escapeFault_of_ofText (h : ofText uri = .error (.invalidEscape u offset)) :
    u = uri ∧ EscapeFault uri offset := by
  cases ofText_eq_error_iff.mp h with
  | inl h => cases h.2
  | inr h =>
    obtain ⟨before, s, after, hsegs, hvalid, hfault⟩ := h
    cases hfault with
    | @stray _ i hi =>
      have hbefore : ∀ t ∈ before, Escaped t := fun t ht => (hvalid t ht).escaped
      refine ⟨rfl, hsegs.head?, firstStray_uri hsegs hbefore hi, ?_⟩
      intro before' s' after' hsegs' hend
      have hlt : segmentEnd uri before' s' < segmentEnd uri before s := by
        have hin := hi.1.lt_length
        rw [segmentEnd_eq uri before s]
        omega
      exact acceptable_of_valid hsegs' (hvalid s' (mem_of_segmentEnd_lt (hsegs.unique hsegs') hlt))

theorem EscapeFault.ofText (h : EscapeFault uri offset) :
    ofText uri = .error (.invalidEscape uri offset) := by
  cases hr : Name.ofText uri with
  | ok n =>
    obtain ⟨segs, hsegs, hvalid, _⟩ := ofText_eq_ok_iff.mp hr
    exact absurd (escaped_uri hsegs fun s hs => (hvalid s hs).escaped) h.firstStray.not_escaped
  | error e =>
    cases ofText_eq_error_iff.mp hr with
    | inl hslash => exact absurd h.absolute hslash.1
    | inr hsegment =>
      obtain ⟨before, s, after, hsegs, hvalid, hfault⟩ := hsegment
      have hbefore : ∀ t ∈ before, Escaped t := fun t ht => (hvalid t ht).escaped
      by_cases hs : Escaped s
      · have hall : Segmented (path uri) ((before ++ [s]) ++ after) := by rwa [List.append_assoc]
        have hend : segmentEnd uri before s ≤ offset := by
          by_contra hlt
          rw [segmentEnd] at hlt
          refine not_strayAt_uri hall ?_ (by omega) h.firstStray.1
          simpa [or_imp, forall_and] using ⟨hbefore, hs⟩
        exact absurd (h.acceptable before s after hsegs hend).valid hfault.not_valid
      · obtain ⟨i, hi⟩ := exists_firstStray hs
        rw [fault_of_firstStray hfault hi, (firstStray_uri hsegs hbefore hi).unique h.firstStray]

end Reports

/-- A URI is refused for an escape exactly if it is absolute and every segment that ends before its
first stray percent sign is acceptable; told is the place of this sign in the whole URI. A text that
is read as one component is refused for its first stray sign wherever there is one. -/
theorem invalidEscape_iff :
    (∀ uri u offset, ofText uri = .error (.invalidEscape u offset) ↔
      u = uri ∧ EscapeFault uri offset) ∧
    ∀ text u offset, Component.ofText text = .error (.invalidEscape u offset) ↔
      u = text ∧ FirstStray (Bytes.ofText text) offset := by
  constructor
  · intro uri u offset
    refine ⟨escapeFault_of_ofText, fun h => ?_⟩
    rw [h.1]
    exact h.2.ofText
  · intro text u offset
    rw [Component.ofText, Segment.ofSegment_eq_error_iff]
    generalize Bytes.ofText text = s
    constructor
    · intro h
      cases h with
      | stray hi =>
        rw [Nat.zero_add]
        exact ⟨rfl, hi⟩
    · intro h
      rw [h.1, ← Nat.zero_add offset]
      exact .stray h.2

/-- The offset counts the scheme and both bytes of an accented letter. -/
theorem invalidEscape_accent :
    ofText "ccnx:/\u00e9/..../%4/./%" = .error (.invalidEscape "ccnx:/\u00e9/..../%4/./%" 14) ∧
    EscapeFault "ccnx:/\u00e9/..../%4/./%" 14 ∧
    FirstStray (Bytes.ofText "\u00e9/%4") 3 := by
  have hname : ofText "ccnx:/\u00e9/..../%4/./%" =
      .error (.invalidEscape "ccnx:/\u00e9/..../%4/./%" 14) := by decide
  have hcomponent : Component.ofText "\u00e9/%4" = .error (.invalidEscape "\u00e9/%4" 3) := by
    decide
  exact ⟨hname, ((invalidEscape_iff.1 _ _ _).mp hname).2,
    ((invalidEscape_iff.2 _ _ _).mp hcomponent).2⟩

end Name

end NamedData
