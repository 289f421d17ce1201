import NamedData.Proofs.Parking
import NamedData.Proofs.Versions

namespace NamedData

variable {R : Type}

namespace Index

def listing? (x : Index R) : Operation R → Option Listing
  | .insert resolve o r now =>
    match (x.insert resolve o r now).result with
    | .ok a => a.listing
    | .error _ => none
  | .enumerate i responder =>
    match (x.enumerate i responder).result with
    | .ok l => l
    | .error _ => none
  | .get _ _ => none

theorem listingAt_setPending {x : Index R} (hx : x.root.children.WellFormed) {n : Name}
    (hn : (x.node? n n.length).isSome) (k : Name) (pending : Bool) :
    (x.setPending n pending).listingAt k = x.listingAt k := by
  have htime : ((x.setPending n pending).standing k).1 = (x.standing k).1 := by
    rw [standing_setPending hn]
    split <;> rfl
  rw [listingAt, childrenAt_setPending hx]
  exact congrArg _ htime

/-- The request finds a child: its answer lists it. -/
def Finds (x : Index R) (i : Interest) (responder : Component) (c : Component) : Prop :=
  ∃ l, (x.enumerate i responder).result = .ok (some l) ∧ c ∈ l.children

theorem finds_newerThan_iff {x : Index R} (hx : x.root.component = none) {n : Name}
    {c : Component} (hn : .enumeration ∉ n.components) (hc : c ∈ x.childrenAt n)
    (responder : Component)
    {held : Timestamp} (hheld : held.Short) (htime : (x.stateAt n).lastModified.Short) :
    x.Finds (.newerThan n responder held) responder c ↔ held < (x.stateAt n).lastModified := by
  have hnil : x.childrenAt n ≠ [] := List.ne_nil_of_mem hc
  have houtcome : x.enumerate (.newerThan n responder held) responder = _ :=
    enumerate_newerThan hx hn (isSome_node?_of_mem hc) responder none none hheld htime
  rw [Finds, houtcome]
  by_cases hlater : held < (x.stateAt n).lastModified
  · simp [hnil, hlater, listingAt, hc]
  · simp [hlater]

end Index

def times (ops : List (Operation R)) : List Timestamp := ops.filterMap Operation.time?

theorem times_append (ops later : List (Operation R)) :
    times (ops ++ later) = times ops ++ times later := List.filterMap_append

theorem Turn.mem_times_iff {t : Timestamp} {ts : List Turn} :
    t ∈ ts.filterMap time? ↔ .gained t ∈ ts := by
  rw [List.mem_filterMap]
  constructor
  · rintro ⟨u, hu, ht⟩
    cases u with
    | gained now => exact (Option.some.inj ht) ▸ hu
    | deferred => cases ht
    | answered => cases ht
  · intro h
    exact ⟨_, h, rfl⟩

theorem lt_getLast?_iff {ts : List Timestamp} (hts : ts.Pairwise (· ≤ ·)) (v : Timestamp) :
    v < ts.getLast?.getD v ↔ ∃ t ∈ ts, v < t := by
  cases hlast : ts.getLast? with
  | none => simp [List.getLast?_eq_none_iff.mp hlast, Timestamp.lt_iff]
  | some last =>
    rw [Option.getD_some]
    constructor
    · intro hlater
      exact ⟨last, List.mem_of_getLast? hlast, hlater⟩
    · rintro ⟨t, ht, hlater⟩
      obtain ⟨init, rfl⟩ := List.getLast?_eq_some_iff.mp hlast
      rcases List.mem_append.mp ht with hinit | heq
      · have hle := (List.pairwise_append.mp hts).2.2 t hinit last (by simp)
        rw [Timestamp.lt_iff] at hlater ⊢
        rw [Timestamp.le_iff] at hle
        omega
      · rwa [← List.mem_singleton.mp heq]

namespace History

variable {h : History R}

/-- A listing that is handed out is that of a node as it stands then. -/
theorem Recorded.listingAt_of_listing? (hh : h.Recorded) {op : Operation R} {l : Listing}
    (hl : h.index.listing? op = some l) : ∃ n, l = (h.step op).index.listingAt n := by
  cases op with
  | insert resolve o r now =>
    rw [Index.listing?] at hl
    split at hl
    next a ha =>
      have hresult : (h.index.insert resolve o r now).result = .ok ⟨a.inserted, some l⟩ := by
        rw [ha, ← hl]
      obtain ⟨n, _, _, hn⟩ := Index.exists_of_listing_insert hh.wellFormed hresult
      exact ⟨n, hn⟩
    · cases hl
  | enumerate i responder =>
    rcases h.index.enumerate_cases i responder with
      ⟨result, hx, hno, _⟩ | ⟨n, m, _, hm, hx | hx⟩ <;> rw [Index.listing?, hx] at hl
    · cases result with
      | error v => cases hl
      | ok found => exact absurd (congrArg Except.ok hl) (hno l)
    · cases hl
    · have hnode : (h.index.node? n n.length).isSome := by rw [hm, Option.isSome_some]
      refine ⟨n, ?_⟩
      rw [History.step, hx, Index.listingAt_setPending hh.wellFormed hnode,
        ← Index.listingAt_of_node? hm]
      exact (Option.some.inj hl).symm
  | get resolve i => cases hl

theorem Recorded.version_of_listing? (hh : h.Recorded) {op : Operation R} {l : Listing} {n : Name}
    (hl : h.index.listing? op = some l) (hn : l.name = n.push .enumeration) :
    l.version = ((h.step op).index.stateAt n).lastModified := by
  obtain ⟨k, hk⟩ := hh.listingAt_of_listing? hl
  have hname : k = n := by
    rw [hk] at hn
    exact Name.eq_of_components (List.append_cancel_right (congrArg Name.components hn))
  rw [hk, hname]
  rfl

theorem times_turns (h : History R) (n : Name) (ops : List (Operation R)) :
    ((h.turns n ops).filterMap Turn.time?).Sublist (times ops) := by
  induction ops generalizing h with
  | nil => exact List.Sublist.refl []
  | cons op ops ih =>
    have hop : ((h.index.turn? n op).toList.filterMap Turn.time?).Sublist op.time?.toList := by
      cases op with
      | insert resolve o r now =>
        rw [Index.turn?]
        split <;> simp [Turn.time?, Operation.time?]
      | enumerate i responder =>
        rw [Index.turn?]
        split
        · split <;> exact List.Sublist.refl []
        · exact List.Sublist.refl []
      | get resolve i => exact List.Sublist.refl []
    have hcons : times (op :: ops) = op.time?.toList ++ times ops := by
      cases hop : op.time? <;> simp [times, hop]
    rw [turns, List.filterMap_append, hcons]
    exact hop.append (ih _)

/-- A node was last modified when it last gained a child. -/
theorem Recorded.lastModified_foldl (hh : h.Recorded) (n : Name) (ops : List (Operation R)) :
    ((ops.foldl History.step h).index.stateAt n).lastModified =
      ((h.turns n ops).filterMap Turn.time?).getLast?.getD (h.index.stateAt n).lastModified := by
  have hstanding := congrArg Prod.fst (hh.standing_foldl n ops)
  rw [Turn.foldl_mark] at hstanding
  exact hstanding

theorem short_lastModified_run (selector : Selector) {ops : List (Operation R)}
    (hops : ∀ t ∈ times ops, t.Short) (n : Name) :
    ((run selector ops).index.stateAt n).lastModified.Short := by
  have hstart : ((start selector : History R).index.stateAt n).lastModified = .epoch :=
    congrArg Prod.fst (standing_start selector n)
  rw [run, (recorded_start selector).lastModified_foldl, hstart]
  cases hlast : (((start selector).turns n ops).filterMap Turn.time?).getLast? with
  | none => exact Nat.two_pow_pos 48
  | some t => exact hops t ((times_turns _ n ops).subset (List.mem_of_getLast? hlast))

/-- In a run with ascending times a listing of a node was handed out, and the node has gained a child
since that is not on it. -/
structure Outdated (selector : Selector) (before : List (Operation R)) (op : Operation R)
    (after : List (Operation R)) (n : Name) (l : Listing) (c : Component) : Prop where
  ascending : (times (before ++ op :: after)).Pairwise (· ≤ ·)
  short : ∀ t ∈ times (before ++ op :: after), t.Short
  unmarked : .enumeration ∉ n.components
  name : l.name = n.push .enumeration
  handedOut : (run selector before).index.listing? op = some l
  child : c ∈ (run selector (before ++ op :: after)).index.childrenAt n
  missing : c ∉ l.children

section Outdated

variable {selector : Selector} {before : List (Operation R)} {op : Operation R}
  {after : List (Operation R)} {n : Name} {l : Listing} {c : Component}

theorem run_append (selector : Selector) (ops later : List (Operation R)) :
    run selector (ops ++ later) = later.foldl History.step (run selector ops) :=
  List.foldl_append

theorem Outdated.version_eq (h : Outdated selector before op after n l c) :
    l.version = ((run selector (before ++ [op])).index.stateAt n).lastModified := by
  rw [run_append]
  exact (recorded_run selector before).version_of_listing? h.handedOut h.name

/-- Polling from an outdated listing finds the child exactly if the node has gained one at a later
tick than that of the listing. -/
theorem finds_outdated_iff (h : Outdated selector before op after n l c) (responder : Component) :
    (run selector (before ++ op :: after)).index.Finds (.newerThan n responder l.version)
        responder c ↔
      ∃ t, .gained t ∈ (run selector (before ++ [op])).turns n after ∧ l.version < t := by
  have hascending := h.ascending
  have hshort := h.short
  rw [List.append_cons, times_append] at hascending hshort
  have hheld : l.version.Short := by
    rw [h.version_eq]
    exact short_lastModified_run selector (fun t ht => hshort t (List.mem_append_left _ ht)) n
  have hgains : (((run selector (before ++ [op])).turns n after).filterMap
      Turn.time?).Pairwise (· ≤ ·) :=
    (List.pairwise_append.mp hascending).2.1.sublist (times_turns _ n after)
  have hlast := (recorded_run selector (before ++ [op])).lastModified_foldl n after
  rw [← run_append, ← List.append_cons, ← h.version_eq] at hlast
  rw [Index.finds_newerThan_iff (recorded_run selector _).root h.unmarked h.child responder hheld
      (short_lastModified_run _ h.short n),
    hlast, lt_getLast?_iff hgains]
  simp only [Turn.mem_times_iff]

end Outdated

def addB (t : Timestamp) : Operation Unit := .insert (fun _ => none) (.blank (nameA.push ⟨[98]⟩)) () t

def addC (t : Timestamp) : Operation Unit := .insert (fun _ => none) (.blank (nameA.push ⟨[99]⟩)) () t

def listingB : Listing := ⟨nameA.push .enumeration, [⟨[98]⟩], ⟨5⟩⟩

/-- The child c came at the next tick, and is found. -/
theorem finds_outdated_nextTick :
    Outdated .leftmost [addB ⟨5⟩] askA [addC ⟨6⟩] nameA listingB ⟨[99]⟩ ∧
    (run .leftmost ([addB ⟨5⟩] ++ askA :: [addC ⟨6⟩])).index.Finds
      (.newerThan nameA nrepo listingB.version) nrepo ⟨[99]⟩ := by
  have h : Outdated .leftmost [addB ⟨5⟩] askA [addC ⟨6⟩] nameA listingB ⟨[99]⟩ :=
    ⟨by decide, by decide, by decide, rfl, by decide, by decide, by decide⟩
  exact ⟨h, (finds_outdated_iff h nrepo).mpr ⟨⟨6⟩, by decide, by decide⟩⟩

/-- The child c came within the tick of the listing, and the request for what is newer waits. -/
theorem not_finds_outdated_sameTick :
    Outdated .leftmost [addB ⟨5⟩] askA [addC ⟨5⟩] nameA listingB ⟨[99]⟩ ∧
    ((run .leftmost ([addB ⟨5⟩] ++ askA :: [addC ⟨5⟩])).index.enumerate
      (.newerThan nameA nrepo listingB.version) nrepo).result = .ok none := by
  refine ⟨⟨by decide, by decide, by decide, rfl, by decide, by decide, by decide⟩, ?_⟩
  decide

end History

end NamedData
