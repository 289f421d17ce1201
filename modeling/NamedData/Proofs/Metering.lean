import NamedData.Proofs.Polling
import NamedData.Telemetry.Counters

namespace NamedData

variable {R : Type}

namespace Counters

theorem value_cons (k : Counter) (rest : List Counter) (e : Event) :
    value ⟨k :: rest⟩ e = if k.first.key = e.key then k.count else value ⟨rest⟩ e := by
  rw [value, value, List.find?_cons]
  by_cases hk : k.first.key = e.key
  · simp [hk]
  · have hne : (k.first.key == e.key) = false := by simpa using hk
    simp [hk, hne]

theorem value_record (c : Counters) (e f : Event) :
    (c.record e).value f = c.value f + if e.key = f.key then 1 else 0 := by
  obtain ⟨counters⟩ := c
  rw [record]
  induction counters with
  | nil =>
    have hzero : value ⟨[]⟩ f = 0 := rfl
    rw [bump, value_cons, hzero, Nat.zero_add]
  | cons k rest ih =>
    rw [bump, value_cons]
    by_cases he : k.first.key = e.key
    · rw [if_pos he, value_cons]
      by_cases hf : k.first.key = f.key
      · simp [hf, ← he]
      · simp [hf, ← he]
    · rw [if_neg he, value_cons, ih]
      by_cases hf : k.first.key = f.key
      · have hef : e.key ≠ f.key := fun h => he (hf.trans h.symm)
        simp [hf, hef]
      · simp [hf]

theorem value_recordAll (c : Counters) (es : List Event) (f : Event) :
    (c.recordAll es).value f = c.value f + es.countP fun e => e.key = f.key := by
  induction es generalizing c with
  | nil => rfl
  | cons e es ih =>
    have hrest := ih (c.record e)
    rw [recordAll] at hrest ⊢
    rw [List.foldl_cons, hrest, value_record, List.countP_cons]
    simp only [decide_eq_true_eq]
    omega

end Counters

theorem Sink.counters_foldl (c : Counters) (es : List Event) :
    (es.foldl record (.counting c)).counters = c.recordAll es := by
  induction es generalizing c with
  | nil => rfl
  | cons e es ih => exact ih (c.record e)

def searchLabels : List String := ["exact", "leftmost", "rightmost"]

def indexEvents : List Event :=
  [.inserted, .duplicate, .stale, .duration, .answered, .deferred] ++
    searchLabels.flatMap fun label => [.search label true, .search label false]

/-- The hashes of the labels keep apart what an index reports. -/
theorem key_injective : ∀ e ∈ indexEvents, ∀ f ∈ indexEvents, e.key = f.key → e = f := by
  decide +kernel

theorem mem_indexEvents_search {label : String} (hlabel : label ∈ searchLabels) (hit : Bool) :
    .search label hit ∈ indexEvents := by
  refine List.mem_append_right _ (List.mem_flatMap.mpr ⟨label, hlabel, ?_⟩)
  cases hit <;> simp

theorem Counters.value_eq_count {es : List Event} (hes : es ⊆ indexEvents) {f : Event}
    (hf : f ∈ indexEvents) : (zero.recordAll es).value f = es.count f := by
  rw [value_recordAll, List.count_eq_countP]
  have hzero : zero.value f = 0 := rfl
  rw [hzero, Nat.zero_add]
  apply List.countP_congr
  intro e he
  have hkey : e.key = f.key ↔ e = f := ⟨key_injective e (hes he) f hf, fun h => by rw [h]⟩
  simp [hkey]

def Event.given (e : Event) (cause : Bool) : List Event := if cause then [e] else []

@[simp] theorem Event.given_true (e : Event) : e.given true = [e] := rfl

@[simp] theorem Event.given_false (e : Event) : e.given false = [] := rfl

theorem staleEvents_eq (resolve : Resolver R) (rs : List R) :
    staleEvents resolve rs = List.replicate (staleEvents resolve rs).length .stale := by
  rw [staleEvents, List.map_const', List.length_replicate]

def Operation.isGet : Operation R → Bool
  | .get _ _ => true
  | _ => false

namespace Index

def report (x : Index R) : Operation R → List Event
  | .insert resolve o r now => (x.insert resolve o r now).events
  | .enumerate i responder => (x.enumerate i responder).events
  | .get resolve i => (x.get resolve i).events

def stores (x : Index R) : Operation R → Bool
  | .insert resolve o r now => x.accepts resolve o r now
  | _ => false

/-- An insertion under a name other than the root returns and has added nothing. -/
def refuses (x : Index R) : Operation R → Bool
  | .insert resolve o r now =>
    match (x.insert resolve o r now).result with
    | .ok a => !o.name.isRoot && !a.inserted
    | .error _ => false
  | _ => false

/-- A request for a listing comes back without one and then waits at the node it names. -/
def parks (x : Index R) : Operation R → Bool
  | .enumerate i responder =>
    match (x.enumerate i responder).result with
    | .ok none => (i.name.before? .enumeration).any fun n =>
        ((x.enumerate i responder).index.stateAt n).pending
    | _ => false
  | _ => false

/-- What a lookup that comes back counts as: the end it prefers, unless only the name itself is asked
for, and whether it has found anything. -/
def conclusion? (selector : Selector) (x : Index R) : Operation R → Option (String × Bool)
  | .get resolve i =>
    match (x.get resolve i).result with
    | .ok found =>
      some (if i.maxSuffix = some 0 then "exact" else (i.selector.getD selector).label, found.isSome)
    | .error _ => none
  | _ => none

def outcome (selector : Selector) (x : Index R) (op : Operation R) : List Event :=
  Event.answered.given (x.listing? op).isSome ++ Event.deferred.given (x.parks op) ++
  Event.inserted.given (x.stores op) ++ Event.duplicate.given (x.refuses op) ++
  ((x.conclusion? selector op).map fun c => Event.search c.1 c.2).toList ++
  Event.duration.given op.isGet

variable {x : Index R}

theorem seekEvents_perm (x : Index R) (resolve : Resolver R) (o : Content) (now : Timestamp)
    (es : List Event) :
    ∃ k, (x.seekEvents resolve o now ++ es).Perm (List.replicate k .stale ++
      (Event.answered.given (x.growth o.name now).listing.isSome ++ es)) := by
  refine ⟨(staleEvents resolve (seekEqual resolve o (x.root.contents o.name.components)).1).length, ?_⟩
  rw [seekEvents, List.append_assoc, ← staleEvents_eq]
  exact List.perm_append_comm_assoc _ _ _

theorem report_insert (hx : x.root.children.WellFormed) (selector : Selector) (resolve : Resolver R)
    (o : Content) (r : R) (now : Timestamp) :
    ∃ k, (x.report (.insert resolve o r now)).Perm
      (List.replicate k .stale ++ x.outcome selector (.insert resolve o r now)) := by
  simp only [report, outcome, listing?, parks, stores, accepts, refuses, conclusion?, Operation.isGet]
  rcases insert_cases hx resolve o r now with
    ⟨hroot, h⟩ | ⟨hroot, v, _, h⟩ | ⟨hroot, _, _, h⟩ | ⟨hroot, _, _, h⟩ <;> rw [h]
  · exact ⟨0, by simp [hroot]⟩
  · exact ⟨0, by simp⟩
  · simpa [hroot] using x.seekEvents_perm resolve o now [.duplicate]
  · simpa [hroot] using x.seekEvents_perm resolve o now [.inserted]

theorem report_enumerate (x : Index R) (selector : Selector) (i : Interest) (responder : Component) :
    x.report (.enumerate i responder) = x.outcome selector (.enumerate i responder) := by
  simp only [report, outcome, listing?, parks, stores, refuses, conclusion?, Operation.isGet]
  rcases x.enumerate_cases i responder with
    ⟨result, hx, hno, hfault⟩ | ⟨n, m, hn, hm, hx | hx⟩ <;> rw [hx]
  · rcases result with v | _ | l
    · simp
    · have hdropped : ((i.name.before? .enumeration).any fun n => (x.stateAt n).pending) = false := by
        cases hn : i.name.before? .enumeration with
        | none => rfl
        | some n =>
          have hm : x.node? n n.length = none := by
            by_contra hm
            obtain ⟨v, hv⟩ := hfault n hn (Option.isSome_iff_ne_none.mpr hm)
            cases hv
          rw [node?_length] at hm
          simp [stateAt, Node.state?, hm, NodeState.fresh]
      simp [hdropped]
    · exact absurd rfl (hno l)
  · have hparked : ((x.setPending n true).stateAt n).pending = true := by
      have hstanding := standing_setPending (x := x) (n := n) (by simp [hm]) n true
      rw [if_pos rfl] at hstanding
      exact congrArg Prod.snd hstanding
    simp [hn, hparked]
  · simp

theorem report_get (x : Index R) (resolve : Resolver R) (i : Interest) :
    ∃ k, (x.report (.get resolve i)).Perm
      (List.replicate k .stale ++ x.outcome x.defaultSelector (.get resolve i)) := by
  refine ⟨(staleEvents resolve (x.scan resolve i).probed).length, ?_⟩
  simp only [report, outcome, listing?, parks, stores, refuses, conclusion?, Operation.isGet, get,
    scanEvents, searchEvents, searchLabel, Interest.isExact, Index.selector]
  rw [← staleEvents_eq]
  cases (x.scan resolve i).result <;> simp [Except.toOption]

/-- What an operation reports is its outcome, besides the stale references that it met. -/
theorem exists_report_perm (hx : x.root.children.WellFormed) (op : Operation R) :
    ∃ k, (x.report op).Perm (List.replicate k .stale ++ x.outcome x.defaultSelector op) := by
  cases op with
  | insert resolve o r now => exact report_insert hx x.defaultSelector resolve o r now
  | enumerate i responder =>
    refine ⟨0, ?_⟩
    rw [report_enumerate x x.defaultSelector]
    rfl
  | get resolve i => exact x.report_get resolve i

def causes (selector : Selector) (x : Index R) (op : Operation R) : Event → Bool
  | .answered => (x.listing? op).isSome
  | .deferred => x.parks op
  | .inserted => x.stores op
  | .duplicate => x.refuses op
  | .search label hit => x.conclusion? selector op = some (label, hit)
  | .duration => op.isGet
  | _ => false

theorem count_outcome (x : Index R) (selector : Selector) (op : Operation R) (e : Event) :
    (x.outcome selector op).count e = if x.causes selector op e then 1 else 0 := by
  have hgiven (f : Event) (cause : Bool) :
      (f.given cause).count e = if cause = true ∧ f = e then 1 else 0 := by
    cases cause <;> simp [List.count_singleton]
  have hsearch (found : Option Event) :
      found.toList.count e = if found = some e then 1 else 0 := by
    cases found <;> simp [List.count_singleton]
  simp only [outcome, List.count_append, hgiven, hsearch]
  cases e <;> simp [causes] <;> rfl

theorem count_report (hx : x.root.children.WellFormed) (op : Operation R) {e : Event}
    (he : e ≠ .stale) :
    (x.report op).count e = if x.causes x.defaultSelector op e then 1 else 0 := by
  obtain ⟨k, hperm⟩ := exists_report_perm hx op
  rw [hperm.count_eq, List.count_append, List.count_replicate, count_outcome]
  simp [Ne.symm he]

theorem label_of_conclusion? {selector : Selector} {op : Operation R} {c : String × Bool}
    (hc : x.conclusion? selector op = some c) : c.1 ∈ searchLabels := by
  cases op with
  | get resolve i =>
    rw [conclusion?] at hc
    split at hc
    · rw [← Option.some.inj hc]
      split
      · simp [searchLabels]
      · cases i.selector.getD selector <;> simp [Selector.label, searchLabels]
    · cases hc
  | insert resolve o r now => cases hc
  | enumerate i responder => cases hc

theorem outcome_subset (x : Index R) (selector : Selector) (op : Operation R) :
    x.outcome selector op ⊆ indexEvents := by
  have hgiven (e f : Event) (cause : Bool) (he : e ∈ indexEvents) (hf : f ∈ e.given cause) :
      f ∈ indexEvents := by
    cases cause with
    | false => cases hf
    | true => rwa [List.mem_singleton.mp hf]
  intro e he
  simp only [outcome, List.mem_append, or_assoc] at he
  rcases he with he | he | he | he | he | he
  · exact hgiven .answered e _ (by simp [indexEvents]) he
  · exact hgiven .deferred e _ (by simp [indexEvents]) he
  · exact hgiven .inserted e _ (by simp [indexEvents]) he
  · exact hgiven .duplicate e _ (by simp [indexEvents]) he
  · rw [Option.mem_toList] at he
    obtain ⟨c, hc, rfl⟩ := Option.map_eq_some_iff.mp he
    exact mem_indexEvents_search (label_of_conclusion? hc) c.2
  · exact hgiven .duration e _ (by simp [indexEvents]) he

theorem report_subset (hx : x.root.children.WellFormed) (op : Operation R) :
    x.report op ⊆ indexEvents := by
  obtain ⟨k, hperm⟩ := exists_report_perm hx op
  intro e he
  rcases List.mem_append.mp (hperm.mem_iff.mp he) with hstale | he
  · rw [(List.mem_replicate.mp hstale).2]
    simp [indexEvents]
  · exact x.outcome_subset x.defaultSelector op he

end Index

namespace History

variable {h : History R}

/-- The operations of a session, each with the index that it meets. -/
def visits (h : History R) : List (Operation R) → List (Index R × Operation R)
  | [] => []
  | op :: ops => (h.index, op) :: (h.step op).visits ops

def reports (h : History R) (ops : List (Operation R)) : List Event :=
  (h.visits ops).flatMap fun v => v.1.report v.2

theorem reports_cons (h : History R) (op : Operation R) (ops : List (Operation R)) :
    h.reports (op :: ops) = h.index.report op ++ (h.step op).reports ops := rfl

theorem Recorded.reports_subset (hh : h.Recorded) (ops : List (Operation R)) :
    h.reports ops ⊆ indexEvents := by
  induction ops generalizing h with
  | nil => exact List.nil_subset _
  | cons op ops ih =>
    rw [reports_cons]
    exact List.append_subset.mpr ⟨Index.report_subset hh.wellFormed op, ih (hh.step op)⟩

theorem Recorded.count_reports (hh : h.Recorded) (ops : List (Operation R)) {e : Event}
    (he : e ≠ .stale) :
    (h.reports ops).count e =
      (h.visits ops).countP fun v => v.1.causes h.index.defaultSelector v.2 e := by
  induction ops generalizing h with
  | nil => rfl
  | cons op ops ih =>
    rw [reports_cons, List.count_append, ih (hh.step op), hh.defaultSelector_step,
      Index.count_report hh.wellFormed op he, visits, List.countP_cons, Nat.add_comm]

/-- The counter of an event tells how many operations of a session had the outcome that the event
stands for. -/
theorem value_reports (selector : Selector) (ops : List (Operation R)) {e : Event}
    (he : e ∈ indexEvents) (hstale : e ≠ .stale) :
    (((start selector).reports ops).foldl Sink.record (.counting .zero)).counters.value e =
      ((start selector).visits ops).countP fun v => v.1.causes selector v.2 e := by
  have hh : (start selector : History R).Recorded := recorded_start selector
  rw [Sink.counters_foldl, Counters.value_eq_count (hh.reports_subset ops) he]
  exact hh.count_reports ops hstale

theorem Recorded.objects_step (hh : h.Recorded) (op : Operation R) :
    (h.step op).index.objects = h.index.objects + if h.index.stores op then 1 else 0 := by
  cases op with
  | insert resolve o r now =>
    rw [History.step, Index.stores, Index.accepts]
    rcases Index.insert_cases hh.wellFormed resolve o r now with
      ⟨_, hx⟩ | ⟨_, v, _, hx⟩ | ⟨_, _, _, hx⟩ | ⟨_, _, _, hx⟩ <;> rw [hx] <;> rfl
  | enumerate i responder =>
    rw [History.step]
    rcases h.index.enumerate_index i responder with hi | ⟨n, pending, hi⟩ <;> rw [hi] <;> rfl
  | get resolve i => rfl

theorem Recorded.objects_foldl (hh : h.Recorded) (ops : List (Operation R)) :
    (ops.foldl History.step h).index.objects =
      h.index.objects + (h.visits ops).countP fun v => v.1.stores v.2 := by
  induction ops generalizing h with
  | nil => rfl
  | cons op ops ih =>
    rw [List.foldl_cons, ih (hh.step op), hh.objects_step, visits]
    simp only [List.countP_cons]
    omega

theorem map_visits (h : History R) (ops : List (Operation R)) :
    (h.visits ops).map (·.2) = ops := by
  induction ops generalizing h with
  | nil => rfl
  | cons op ops ih => rw [visits, List.map_cons, ih]

/-- After every session the counters agree with what its operations returned. -/
theorem counters_run (selector : Selector) (ops : List (Operation R)) :
    let visits := (start selector : History R).visits ops
    let c := (((start selector).reports ops).foldl Sink.record (.counting .zero)).counters
    c.value .inserted = (run selector ops).index.objects ∧
    c.value .duplicate = visits.countP (fun v => v.1.refuses v.2) ∧
    (∀ label ∈ searchLabels, ∀ hit, c.value (.search label hit) =
      visits.countP fun v => v.1.conclusion? selector v.2 = some (label, hit)) ∧
    c.value .duration = ops.countP Operation.isGet ∧
    c.value .answered = visits.countP (fun v => (v.1.listing? v.2).isSome) ∧
    c.value .deferred = visits.countP fun v => v.1.parks v.2 := by
  intro visits c
  have hvalue (e : Event) (he : e ∈ indexEvents) (hstale : e ≠ .stale) :
      c.value e = visits.countP fun v => v.1.causes selector v.2 e :=
    value_reports selector ops he hstale
  have hobjects := (recorded_start selector : (start selector : History R).Recorded).objects_foldl ops
  have hgets : ops.countP Operation.isGet = visits.countP fun v => v.2.isGet := by
    rw [← map_visits (start selector) ops, List.countP_map]
    rfl
  refine ⟨?_, ?_, ?_, ?_, ?_, ?_⟩
  · rw [run, hobjects, hvalue .inserted (by simp [indexEvents]) (by simp)]
    exact (Nat.zero_add _).symm
  · exact hvalue .duplicate (by simp [indexEvents]) (by simp)
  · intro label hlabel hit
    exact hvalue (.search label hit) (mem_indexEvents_search hlabel hit) (by simp)
  · rw [hgets]
    exact hvalue .duration (by simp [indexEvents]) (by simp)
  · exact hvalue .answered (by simp [indexEvents]) (by simp)
  · exact hvalue .deferred (by simp [indexEvents]) (by simp)

def disordered : Interest :=
  { Interest.ofName nameA with exclusion := some ⟨[.component ⟨[98]⟩, .component ⟨[97]⟩]⟩ }

/-- A content is stored, refused the second time and found; a request waits at it for a child; and an
insertion and a lookup are stopped. -/
def session : List (Operation Unit) :=
  let find : Resolver Unit := fun _ => some (.blank nameA)
  [.insert find (.blank nameA) () ⟨5⟩, .insert find (.blank nameA) () ⟨6⟩, .get find (.ofName nameA),
    askA, .insert find (.blank (nameA.push ⟨[98]⟩)) () ⟨7⟩, .insert find (.blank ⟨[⟨[]⟩]⟩) () ⟨8⟩,
    .get find disordered]

theorem counters_run_session :
    let c := (((start .leftmost).reports session).foldl Sink.record (.counting .zero)).counters
    c.value .inserted = 2 ∧ c.value .duplicate = 1 ∧ c.value (.search "leftmost" true) = 1 ∧
      c.value .duration = 2 ∧ c.value .answered = 1 ∧ c.value .deferred = 1 := by
  intro c
  obtain ⟨hinserted, hduplicate, hsearch, hduration, hanswered, hdeferred⟩ :=
    counters_run .leftmost session
  refine ⟨hinserted.trans (by decide), hduplicate.trans (by decide), ?_, hduration.trans (by decide),
    hanswered.trans (by decide), hdeferred.trans (by decide)⟩
  exact (hsearch "leftmost" (by simp [searchLabels]) true).trans (by decide)

end History

end NamedData
