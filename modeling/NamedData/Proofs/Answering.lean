import NamedData.Proofs.Canonical

namespace NamedData

variable {R : Type} {resolve : Resolver R} {i : Interest}

theorem Content.fullName_inj {o p : Content} (h : o.fullName = p.fullName) :
    o.name = p.name ∧ o.digest = p.digest := by
  have hparts : o.name.components ++ [o.digestComponent] =
      p.name.components ++ [p.digestComponent] := congrArg Name.components h
  obtain ⟨hname, hlast⟩ := List.append_singleton_inj.mp hparts
  have hdigest : o.digest.toList = p.digest.toList := congrArg Component.bytes hlast
  exact ⟨Name.eq_of_components hname, Vector.toList_inj.mp hdigest⟩

theorem Content.length_fullName (o : Content) : o.fullName.length = o.name.length+1 := by
  simp [fullName, Name.push, Name.length]

namespace Interest

theorem Answers.below {e : Match R} (h : i.Answers resolve e)
    (hfull : e.content.fullName ≠ i.name) : i.AnswersBelow resolve e := by
  rcases name_of_matchesContent h.2 with hbelow | heq
  · exact ⟨hbelow, h⟩
  · exact absurd heq hfull

theorem AnswersBelow.name_of_isExact {e : Match R} (h : i.AnswersBelow resolve e)
    (hexact : i.isExact = true) : e.content.name = i.name := by
  obtain ⟨p, hp⟩ := Name.isPrefixOf_iff.mp h.1
  have hpass : i.passes p.components = true := passes_of_matchesContent hp h.2.2
  have hone := withinMax_one_of_isExact hexact
  cases hcomponents : p.components with
  | nil =>
    have hroot : p = .root := Name.eq_of_components hcomponents
    rw [hp, hroot, Name.append_root]
  | cons c q =>
    rw [hcomponents, not_passes_of_withinMax (by simp) hone] at hpass
    cases hpass

theorem wellFormed_ofName (n : Name) : (ofName n).WellFormed := by
  simp [WellFormed, ofName]

theorem settled_ofName (n : Name) : (ofName n).Settled := by
  apply settled_of_lgBits
  simp [ofName]

end Interest

namespace Index

variable {x : Index R} {n : Node R}

theorem get_of_node? (hx : x.root.component = none) (hexact : i.isExact = false)
    (hn : x.node? i.name i.name.length = some n) :
    (x.get resolve i).result = (n.search resolve i (x.selector i)).result := by
  simp [get, scan, hexact, lookupNode_eq hx, hn]

theorem get_of_node?_eq_none (hx : x.root.component = none) (hexact : i.isExact = false)
    (hn : x.node? i.name i.name.length = none) :
    (x.get resolve i).result = (x.byDigest resolve i).result := by
  simp [get, scan, hexact, lookupNode_eq hx, hn]

end Index

namespace History

variable {h : History R}

/-- The stored contents whose full names are as long as a name and agree with it but for the
digest. -/
def holders (h : History R) (n : Name) : List (Match R) :=
  match n.length with
  | 0 => []
  | depth+1 => h.storedAt (n.take depth)

theorem mem_holders {n : Name} {e : Match R} :
    e ∈ h.holders n ↔ e ∈ h.stored ∧ n.length = e.content.name.length+1 ∧
      e.content.name = n.take e.content.name.length := by
  rw [holders]
  split
  next hlen =>
    simp [hlen]
  next depth hlen =>
    have htake : (n.take depth).length = depth := by
      rw [Name.length] at hlen
      simp [Name.take, Name.length, hlen]
    rw [storedAt, List.mem_filter, decide_eq_true_eq]
    constructor
    · rintro ⟨he, hname⟩
      have hdepth : e.content.name.length = depth := by rw [hname, htake]
      exact ⟨he, by rw [hlen, hdepth], by rw [hdepth, hname]⟩
    · rintro ⟨he, hlength, hname⟩
      have hdepth : depth = e.content.name.length := by omega
      exact ⟨he, by rw [hdepth]; exact hname⟩

theorem mem_holders_of_fullName {n : Name} {e : Match R} (he : e ∈ h.stored)
    (hn : e.content.fullName = n) : e ∈ h.holders n := by
  refine mem_holders.mpr ⟨he, by rw [← hn, Content.length_fullName], ?_⟩
  apply Name.eq_of_components
  rw [← hn]
  exact (List.take_left).symm

theorem first_selects (hf : h.Faithful resolve) {es : List (Match R)} {P : Match R → Prop}
    [DecidablePred P] (hes : es ⊆ h.stored)
    (hok : ∀ e ∈ es, ∃ hit, i.matchesContent e.content = .ok hit)
    (hP : ∀ e ∈ es, P e ↔ i.Answers resolve e) (hall : ∀ e ∈ h.stored, P e → e ∈ es) :
    Selects (Scan.first resolve i (es.map (·.ref))).result P h.stored
      (fun e => e ∈ h.stored ∧ P e) := by
  have hresult : (Scan.first resolve i (es.map (·.ref))).result =
      .ok (es.find? fun e => decide (P e)) := by
    apply first_stored hf hes hok
    intro e he
    rw [decide_eq_true_eq, hP e he]
  refine ⟨_, hresult, ?_, ?_⟩
  · rw [List.find?_eq_none]
    constructor
    · intro hnone e he hp
      exact hnone e (hall e he hp) (decide_eq_true hp)
    · intro hnone e he hp
      exact hnone e (hes he) (of_decide_eq_true hp)
  · intro e he
    have hp : P e := of_decide_eq_true (List.find?_some he :)
    exact ⟨hes (List.mem_of_find?_eq_some he), hp⟩

theorem Recorded.byDigest_eq (hh : h.Recorded) (resolve : Resolver R) (i : Interest) :
    h.index.byDigest resolve i = Scan.first resolve i ((h.holders i.name).map (·.ref)) := by
  rw [Index.byDigest, holders]
  cases hlen : i.name.length with
  | zero => rfl
  | succ depth =>
    have hnode : h.index.node? i.name depth =
        h.index.root.descend? (i.name.take depth).components := by
      rw [Index.node?, if_pos (by omega)]
      rfl
    have hcontents := hh.contents (i.name.take depth)
    rw [Node.contents, Node.state?] at hcontents
    simp only [Index.lookupNode_eq hh.root, hnode, ← hcontents]
    cases h.index.root.descend? (i.name.take depth).components <;> rfl

theorem Recorded.byDigest_selects (hh : h.Recorded) (hf : h.Faithful resolve) (i : Interest) :
    Selects (h.index.byDigest resolve i).result
      (fun e => e.content.fullName = i.name ∧ i.Answers resolve e) h.stored
      (fun e => e ∈ h.stored ∧ e.content.fullName = i.name ∧ i.Answers resolve e) := by
  have hmatches (e : Match R) (he : e ∈ h.holders i.name) :=
    Interest.matchesContent_of_length (mem_holders.mp he).2.1
  rw [hh.byDigest_eq]
  apply first_selects hf
  · exact fun e he => (mem_holders.mp he).1
  · exact fun e he => ⟨_, hmatches e he⟩
  · intro e he
    constructor
    · exact fun ha => ha.2
    · intro ha
      have hhit := ha.2
      rw [hmatches e he] at hhit
      simp only [Except.ok.injEq, Bool.and_eq_true, decide_eq_true_eq] at hhit
      exact ⟨hhit.1.1, ha⟩
  · exact fun e he ha => mem_holders_of_fullName he ha.1

theorem Recorded.node?_of_below (hh : h.Recorded) {n : Name} {e : Match R} (he : e ∈ h.stored)
    (hn : n.isPrefixOf e.content.name = true) : ∃ m, h.index.node? n n.length = some m := by
  obtain ⟨p, hp⟩ := Name.isPrefixOf_iff.mp hn
  obtain ⟨m, hm⟩ := hh.descend?_of_mem he
  rw [hp, Name.components_append, Node.descend?_append] at hm
  obtain ⟨k, hk, _⟩ := Option.bind_eq_some_iff.mp hm
  exact ⟨k, (Index.node?_length _ n).trans hk⟩

/-- Whichever end is preferred, a search comes back with an answer if there is one. -/
theorem Recorded.search_selects (hh : h.Recorded) (hf : h.Faithful resolve) (hi : i.WellFormed)
    (hs : i.Settled) {n : Node R} (hn : h.index.root.descend? i.name.components = some n)
    (selector : Selector) :
    Selects (n.search resolve i selector).result (i.AnswersBelow resolve) h.stored
      (fun e => e ∈ h.stored ∧ i.AnswersBelow resolve e) := by
  cases selector with
  | leftmost =>
    refine (hh.leftmost_selects hf hi hs hn).imp (fun e _ => Iff.rfl) ?_
    exact fun e he => ⟨he.mem, he.1⟩
  | rightmost =>
    refine (hh.rightmost_selects hf hi hs hn).imp (fun e _ => Iff.rfl) ?_
    exact fun e he => ⟨he.mem, he.1⟩

theorem Recorded.byDigest_selects_of_not_answers (hh : h.Recorded) (hf : h.Faithful resolve)
    (hno : ∀ e ∈ h.stored, ¬i.Answers resolve e) :
    Selects (h.index.byDigest resolve i).result (i.Answers resolve) h.stored
      (fun e => e ∈ h.stored ∧ i.Answers resolve e) := by
  refine (hh.byDigest_selects hf i).imp ?_ fun e he => ⟨he.1, he.2.2⟩
  intro e he
  exact ⟨fun ha => ha.2, fun ha => absurd ha (hno e he)⟩

theorem name_of_mem_storedAt {n : Name} {e : Match R} (he : e ∈ h.storedAt n) :
    e.content.name = n := by
  simpa using (List.mem_filter.mp he).2

theorem isOk_matchesContent_of_isExact (hexact : i.isExact = true) {e : Match R}
    (he : e ∈ h.storedAt i.name) : ∃ hit, i.matchesContent e.content = .ok hit := by
  refine Interest.isOk_matchesContent (p := []) (Or.inl hexact) ?_ (by simp)
  rw [name_of_mem_storedAt he]
  exact (Name.append_root i.name).symm

/-- An Interest for the name itself is answered from the entry of the name, if it has one. -/
theorem Recorded.get_selects_of_isExact (hh : h.Recorded) (hf : h.Faithful resolve)
    (hexact : i.isExact = true)
    (hbelow : ∀ e ∈ h.stored, i.Answers resolve e → i.AnswersBelow resolve e) :
    Selects (h.index.get resolve i).result (i.Answers resolve) h.stored
      (fun e => e ∈ h.stored ∧ i.Answers resolve e) := by
  have hhere (e : Match R) (he : e ∈ h.stored) (ha : i.Answers resolve e) :
      e ∈ h.storedAt i.name := by
    have hname := (hbelow e he ha).name_of_isExact hexact
    simp [storedAt, he, hname]
  rw [Index.get, Index.scan, if_pos hexact, hh.lookup_eq]
  by_cases hnil : h.storedAt i.name = []
  · simp only [hnil, if_true]
    apply hh.byDigest_selects_of_not_answers hf
    intro e he ha
    have hmem := hhere e he ha
    rw [hnil] at hmem
    cases hmem
  · simp only [hnil, if_false]
    apply first_selects hf
    · exact fun e he => List.mem_of_mem_filter he
    · exact fun e he => isOk_matchesContent_of_isExact hexact he
    · exact fun e _ => Iff.rfl
    · exact hhere

/-- A settled Interest whose name is not the full name of a live content is answered by whatever
matches, wherever it is stored. -/
theorem Recorded.get_selects (hh : h.Recorded) (hf : h.Faithful resolve) (hi : i.WellFormed)
    (hs : i.Settled ∨ ∃ c ∈ i.name.components, c.isEmpty = true)
    (hfull : ∀ e ∈ h.stored, resolve e.ref = some e.content → e.content.fullName ≠ i.name) :
    Selects (h.index.get resolve i).result (i.Answers resolve) h.stored
      (fun e => e ∈ h.stored ∧ i.Answers resolve e) := by
  have hbelow (e : Match R) (he : e ∈ h.stored) (ha : i.Answers resolve e) :
      i.AnswersBelow resolve e := ha.below (hfull e he ha.1)
  cases hexact : i.isExact with
  | true => exact hh.get_selects_of_isExact hf hexact hbelow
  | false =>
    cases hn : h.index.node? i.name i.name.length with
    | none =>
      rw [Index.get_of_node?_eq_none hh.root hexact hn]
      apply hh.byDigest_selects_of_not_answers hf
      intro e he ha
      obtain ⟨m, hm⟩ := hh.node?_of_below he (hbelow e he ha).1
      cases hn.symm.trans hm
    | some n =>
      have hsettled := hh.settled_of_node? hn hs
      rw [Index.get_of_node? hh.root hexact hn]
      rw [Index.node?_length] at hn
      refine (hh.search_selects hf hi hsettled hn (h.index.selector i)).imp ?_ ?_
      · exact fun e he => ⟨fun ha => ha.2, hbelow e he⟩
      · exact fun e he => ⟨he.1, he.2.2⟩

theorem Recorded.mem_lookup (hh : h.Recorded) {e : Match R} (he : e ∈ h.stored) :
    ∃ rs, h.index.lookup e.content.name = .ok (some rs) ∧ e.ref ∈ rs := by
  have hin : e ∈ h.storedAt e.content.name := by simp [storedAt, he]
  refine ⟨_, ?_, List.mem_map.mpr ⟨e, hin, rfl⟩⟩
  rw [hh.lookup_eq, if_neg (List.ne_nil_of_mem hin)]

section FullNames

variable {e : Match R}

theorem Recorded.node?_fullName_iff (hh : h.Recorded) (he : e ∈ h.stored) :
    (∃ m, h.index.node? e.content.fullName e.content.fullName.length = some m) ↔
      ∃ n ∈ h.named, e.content.fullName.isPrefixOf n = true := by
  have hfilled : ∀ c ∈ e.content.fullName.components, c.isEmpty = false := by
    obtain ⟨m, hm⟩ := hh.descend?_of_mem he
    intro c hc
    rcases List.mem_append.mp hc with hc | hc
    · exact (Node.descend?_wellFormed hh.wellFormed hm).2 c hc
    · rw [List.mem_singleton.mp hc]
      exact Interest.isEmpty_digestComponent e.content
  have hroot : ¬e.content.fullName.components <+: [] := by
    intro hno
    have hnil := congrArg List.length (List.prefix_nil.mp hno)
    cases hnil.symm.trans e.content.length_fullName
  have hnodes := hh.nodes e.content.fullName.components
  rw [Node.state?, Option.isSome_map, Option.isSome_iff_exists] at hnodes
  rw [Index.node?_length, hnodes]
  simp only [Node.Reaches, Name.isPrefixOf, List.isPrefixOf_iff_prefix, List.mem_cons,
    exists_eq_or_imp, Name.root_components, hroot, false_and, false_or]
  constructor
  · rintro ⟨n, hn, hbegin, _⟩
    exact ⟨n, hn, hbegin⟩
  · rintro ⟨n, hn, hbegin⟩
    exact ⟨n, hn, hbegin, hfilled⟩

/-- A full name with a node of its own is answered from below that node. -/
theorem Recorded.get_fullName_ne (hh : h.Recorded) (hf : h.Faithful resolve) {m : Node R}
    (hm : h.index.node? e.content.fullName e.content.fullName.length = some m) (r : R) :
    (h.index.get resolve (.ofName e.content.fullName)).result ≠ .ok (some ⟨r, e.content⟩) := by
  intro hget
  have hsearch := (Index.get_of_node? hh.root rfl hm).symm.trans hget
  rw [Index.node?_length] at hm
  obtain ⟨found, hfound, _, hsome⟩ := hh.search_selects hf (Interest.wellFormed_ofName _)
    (Interest.settled_ofName _) hm (h.index.selector (.ofName e.content.fullName))
  have hbelow := (hsome ⟨r, e.content⟩ (Except.ok.inj (hfound.symm.trans hsearch))).2.1
  have hlen : e.content.name.length < e.content.fullName.length := by
    rw [Content.length_fullName]
    omega
  cases hbelow.symm.trans (Name.isPrefixOf_of_length_lt hlen)

/-- A full name without a node leads to the content, if the digest is its own. -/
theorem Recorded.get_fullName_eq (hh : h.Recorded) (hf : h.Faithful resolve) (he : e ∈ h.stored)
    (hlive : resolve e.ref = some e.content)
    (hown : ∀ a ∈ h.stored, resolve a.ref = some a.content → a.content.name = e.content.name →
      a.content ≠ e.content → a.content.digest ≠ e.content.digest)
    (hnode : h.index.node? e.content.fullName e.content.fullName.length = none) :
    ∃ r, (h.index.get resolve (.ofName e.content.fullName)).result =
      .ok (some ⟨r, e.content⟩) := by
  have hget : (h.index.get resolve (.ofName e.content.fullName)).result =
      (h.index.byDigest resolve (.ofName e.content.fullName)).result :=
    Index.get_of_node?_eq_none hh.root rfl hnode
  have hanswer : (Interest.ofName e.content.fullName).Answers resolve e := by
    refine ⟨hlive, ?_⟩
    rw [Interest.matchesContent_of_length e.content.length_fullName]
    simp [Interest.ofName, Interest.withinMin, Interest.accepts]
  obtain ⟨found, hfound, hnone, hsome⟩ :=
    hh.byDigest_selects hf (.ofName e.content.fullName)
  cases found with
  | none => exact absurd ⟨rfl, hanswer⟩ (hnone.mp rfl e he)
  | some a =>
    obtain ⟨ha, hfull, hlivea, _⟩ := hsome a rfl
    obtain ⟨hname, hdigest⟩ := Content.fullName_inj hfull
    have hcontent : a.content = e.content := by
      by_contra hne
      exact hown a ha hlivea hname hne hdigest
    exact ⟨a.ref, by rw [hget, hfound, ← hcontent]⟩

end FullNames

end History

/-- In every index that a run can build, an Interest that names no live content by its digest is
answered if anything at all matches, and then with a stored content that does. -/
def Interest.GetComplete (i : Interest) : Prop :=
  ∀ (R : Type) (selector : Selector) (ops : List (Operation R)) (resolve : Resolver R),
    (History.run selector ops).Faithful resolve →
    (∀ e ∈ (History.run selector ops).stored, resolve e.ref = some e.content →
      e.content.fullName ≠ i.name) →
    Selects ((History.run selector ops).index.get resolve i).result (i.Answers resolve)
      (History.run selector ops).stored
      (fun e => e ∈ (History.run selector ops).stored ∧ i.Answers resolve e ∧
        ∃ rs, (History.run selector ops).index.lookup e.content.name = .ok (some rs) ∧ e.ref ∈ rs)

/-- The Interests that are answered wherever something matches are those that are settled, and
those whose name no index can hold. -/
theorem Interest.getComplete_iff (i : Interest) (hi : i.WellFormed) :
    i.GetComplete ↔ i.Settled ∨ ∃ c ∈ i.name.components, c.isEmpty = true := by
  constructor
  · intro hall
    by_contra hs
    obtain ⟨hexact, o, n, c, hn, hwf, hmem, hundecided⟩ := exists_undecided .leftmost hs
    obtain ⟨found, hfound, hnone, _⟩ :=
      hall Unit .leftmost [.insert (fun _ => none) o () .epoch] (fun _ => none)
        (History.faithful_none _) (fun _ _ hr => nomatch hr)
    have hnothing : found = none := hnone.mpr fun e _ => History.not_answers_none i e
    have hsearch := (Index.get_of_node? (History.recorded_run _ _).root hexact hn).symm.trans hfound
    rw [hnothing] at hsearch
    obtain ⟨excluded, hex⟩ := Node.isOk_excludes_of_search hwf hexact hsearch c hmem
    exact hundecided excluded hex
  · intro hs R selector ops resolve hf hfull
    have hh := History.recorded_run selector ops
    refine (hh.get_selects hf hi hs hfull).imp (fun e _ => Iff.rfl) ?_
    exact fun e he => ⟨he.1, he.2, hh.mem_lookup he.1⟩

/-- Both contents under c answer, and the index comes up with one of them. -/
theorem Interest.getComplete_beyondB : beyondB.WellFormed ∧
    ∃ e, ((History.crowd .rightmost).index.get History.withoutAD beyondB).result = .ok (some e) ∧
      e.content.name = Content.blankAC.name ∧
      ∃ rs, (History.crowd .rightmost).index.lookup Content.blankAC.name = .ok (some rs) ∧
        e.ref ∈ rs := by
  have hi : beyondB.WellFormed := by decide
  have hfull : ∀ e ∈ (History.crowd .rightmost).stored,
      History.withoutAD e.ref = some e.content → e.content.fullName ≠ beyondB.name := by
    intro e he _ hname
    have hlen := congrArg Name.length hname
    rw [History.stored_crowd] at he
    obtain ⟨o, ho, rfl⟩ := List.mem_map.mp he
    have hlength : ∀ o ∈ [Content.blankAD, .blankAB, .blankAC, .filledAC], o.name.length = 2 := by
      decide
    rw [Content.length_fullName, hlength o ho] at hlen
    cases hlen
  have hselects : Selects ((History.crowd .rightmost).index.get History.withoutAD beyondB).result
      (beyondB.Answers History.withoutAD) (History.crowd .rightmost).stored
      (fun e => e ∈ (History.crowd .rightmost).stored ∧ beyondB.Answers History.withoutAD e ∧
        ∃ rs, (History.crowd .rightmost).index.lookup e.content.name = .ok (some rs) ∧ e.ref ∈ rs) :=
    (getComplete_iff beyondB hi).mpr (Or.inl settled_beyondB) Content .rightmost _ _
      (History.faithful_crowd .rightmost) hfull
  have hmem : ⟨.blankAC, .blankAC⟩ ∈ (History.crowd .rightmost).stored := by
    rw [History.stored_crowd]
    decide
  obtain ⟨e, hfound, he, ha, hlookup⟩ := hselects.exists_of_mem hmem (by decide)
  have hanswers : ∀ o ∈ [Content.blankAD, .blankAB, .blankAC, .filledAC],
      beyondB.Answers History.withoutAD ⟨o, o⟩ → o.name = Content.blankAC.name := by decide
  have hname : e.content.name = Content.blankAC.name := by
    rw [History.stored_crowd] at he
    obtain ⟨o, ho, rfl⟩ := List.mem_map.mp he
    exact hanswers o ho ha
  exact ⟨hi, e, hfound, hname, hname ▸ hlookup⟩

theorem Interest.not_getComplete_overflowing :
    overflowing.WellFormed ∧ ¬overflowing.GetComplete := by
  refine ⟨by decide, ?_⟩
  intro hall
  obtain ⟨found, hfound, _⟩ := hall Unit .leftmost [.insert (fun _ => none) .blankAC () .epoch]
    (fun _ => none) (History.faithful_none _) (fun _ _ hr => nomatch hr)
  cases hfound

/-- A stored content with a digest of its own can be fetched by its full name exactly as long as
no name that was to be inserted goes on after it. -/
theorem Index.get_fullName_iff (selector : Selector) (ops : List (Operation R))
    (resolve : Resolver R) (e : Match R) (hf : (History.run selector ops).Faithful resolve)
    (he : e ∈ (History.run selector ops).stored) (hlive : resolve e.ref = some e.content)
    (hown : ∀ a ∈ (History.run selector ops).stored, resolve a.ref = some a.content →
      a.content.name = e.content.name → a.content ≠ e.content →
        a.content.digest ≠ e.content.digest) :
    (∃ r, ((History.run selector ops).index.get resolve (.ofName e.content.fullName)).result =
      .ok (some ⟨r, e.content⟩)) ↔
    ∀ n ∈ (History.run selector ops).named, e.content.fullName.isPrefixOf n = false := by
  have hh := History.recorded_run selector ops
  have hnode := hh.node?_fullName_iff he
  constructor
  · rintro ⟨r, hget⟩ n hn
    rw [← Bool.not_eq_true]
    intro hbegin
    obtain ⟨m, hm⟩ := hnode.mpr ⟨n, hn, hbegin⟩
    exact hh.get_fullName_ne hf hm r hget
  · intro hall
    apply hh.get_fullName_eq hf he hlive hown
    rw [Option.eq_none_iff_forall_ne_some]
    intro m hm
    obtain ⟨n, hn, hbegin⟩ := hnode.mp ⟨m, hm⟩
    cases hbegin.symm.trans (hall n hn)

namespace History

def twins : History Content :=
  run .leftmost [.insert some .blankAC .blankAC .epoch, .insert some .filledAC .filledAC .epoch]

theorem stored_twins : twins.stored = [⟨.blankAC, .blankAC⟩, ⟨.filledAC, .filledAC⟩] := rfl

theorem mem_stored_twins {e : Match Content} :
    e ∈ twins.stored ↔ e = ⟨.blankAC, .blankAC⟩ ∨ e = ⟨.filledAC, .filledAC⟩ := by
  rw [stored_twins, List.mem_cons, List.mem_singleton]

theorem faithful_twins : twins.Faithful some := by
  intro e he
  rcases mem_stored_twins.mp he with rfl | rfl
  · exact Or.inr rfl
  · exact Or.inr rfl

theorem digest_filledAC_ne : Content.filledAC.digest ≠ Content.blankAC.digest := by decide +kernel

end History

/-- Each of two contents that are live under one name is found by its own full name. -/
theorem Index.get_fullName_twins :
    History.twins.Faithful some ∧
    ∀ e ∈ History.twins.stored,
      (∀ a ∈ History.twins.stored, some a.ref = some a.content →
        a.content.name = e.content.name → a.content ≠ e.content →
          a.content.digest ≠ e.content.digest) ∧
      ∃ r, (History.twins.index.get some (.ofName e.content.fullName)).result =
        .ok (some ⟨r, e.content⟩) := by
  refine ⟨History.faithful_twins, ?_⟩
  intro e he
  have hlive : some e.ref = some e.content := by
    rcases History.mem_stored_twins.mp he with rfl | rfl <;> rfl
  have hown : ∀ a ∈ History.twins.stored, some a.ref = some a.content →
      a.content.name = e.content.name → a.content ≠ e.content →
        a.content.digest ≠ e.content.digest := by
    intro a ha _ _ hne
    rcases History.mem_stored_twins.mp ha with rfl | rfl <;>
      rcases History.mem_stored_twins.mp he with rfl | rfl
    · exact absurd rfl hne
    · exact History.digest_filledAC_ne.symm
    · exact History.digest_filledAC_ne
    · exact absurd rfl hne
  have hfound := Index.get_fullName_iff .leftmost _ some e History.faithful_twins he hlive hown
  refine ⟨hown, hfound.mpr ?_⟩
  intro n hn
  have hshort : n.length < e.content.fullName.length := by
    have hnames : ∀ n ∈ History.twins.named, n.length = 2 := by decide
    have hname : e.content.name.length = 2 := by
      rcases History.mem_stored_twins.mp he with rfl | rfl <;> rfl
    rw [Content.length_fullName, hnames n hn, hname]
    decide
  exact Name.isPrefixOf_of_length_lt hshort

namespace History

def beyondAC : Content := .blank (Content.blankAC.fullName.push ⟨[100]⟩)

def shadowed : History Content :=
  run .leftmost [.insert some .blankAC .blankAC .epoch, .insert some beyondAC beyondAC .epoch]

theorem mem_stored_shadowed {e : Match Content} (he : e ∈ shadowed.stored) :
    e = ⟨.blankAC, .blankAC⟩ ∨ e = ⟨beyondAC, beyondAC⟩ := by
  rcases mem_stored_insert.mp he with he | ⟨_, he⟩
  · rcases mem_stored_insert.mp he with he | ⟨_, he⟩
    · cases he
    · exact Or.inl he
  · exact Or.inr he

theorem blankAC_mem_stored_shadowed : ⟨.blankAC, .blankAC⟩ ∈ shadowed.stored := by
  apply mem_stored_insert.mpr
  refine Or.inl (mem_stored_insert.mpr (Or.inr ⟨?_, rfl⟩))
  exact accepts_start .leftmost some .blankAC .epoch (by decide) (by decide)

theorem fullName_isPrefixOf_beyondAC :
    Content.blankAC.fullName.isPrefixOf beyondAC.name = true :=
  Name.isPrefixOf_iff.mpr ⟨⟨[⟨[100]⟩]⟩, rfl⟩

end History

/-- A content whose full name goes on in another name is not found under it. -/
theorem Index.get_fullName_shadowed :
    History.shadowed.Faithful some ∧ ⟨.blankAC, .blankAC⟩ ∈ History.shadowed.stored ∧
    (∀ a ∈ History.shadowed.stored, some a.ref = some a.content →
      a.content.name = Content.blankAC.name → a.content ≠ .blankAC →
        a.content.digest ≠ Content.blankAC.digest) ∧
    ∀ r, (History.shadowed.index.get some (.ofName Content.blankAC.fullName)).result ≠
      .ok (some ⟨r, .blankAC⟩) := by
  have hh : History.shadowed.Recorded := History.recorded_run _ _
  have hf : History.shadowed.Faithful some := by
    intro e he
    rcases History.mem_stored_shadowed he with rfl | rfl
    · exact Or.inr rfl
    · exact Or.inr rfl
  refine ⟨hf, History.blankAC_mem_stored_shadowed, ?_, ?_⟩
  · intro a ha _ hname hne
    rcases History.mem_stored_shadowed ha with rfl | rfl
    · exact absurd rfl hne
    · have hlen : History.beyondAC.name.length = 4 := by
        simp [History.beyondAC, Content.blank, Name.push, Name.length, Content.fullName,
          Content.blankAC]
      rw [hname] at hlen
      cases hlen
  · obtain ⟨m, hm⟩ := (hh.node?_fullName_iff History.blankAC_mem_stored_shadowed).mpr
      ⟨History.beyondAC.name, by simp [History.shadowed, History.run, History.step],
        History.fullName_isPrefixOf_beyondAC⟩
    exact fun r => hh.get_fullName_ne hf hm r

end NamedData
