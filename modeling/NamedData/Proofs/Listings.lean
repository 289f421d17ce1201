import NamedData.Proofs.Stamps
import NamedData.Proofs.Undated

namespace NamedData

variable {R : Type}

theorem Name.notMem_of_before? {n p : Name} {e : Component} (h : n.before? e = some p) :
    e ∉ p.components := by
  obtain ⟨k, hk, rfl⟩ := Option.map_eq_some_iff.mp h
  obtain ⟨_, _, hfirst⟩ := List.findIdx?_eq_some_iff_getElem.mp hk
  intro hmem
  obtain ⟨j, hj, heq⟩ := List.mem_take_iff_getElem.mp hmem
  exact hfirst j (by omega) (by simpa using heq)

theorem Listing.childNames_ascending {l : Listing} (hl : l.children.Pairwise (· < ·)) :
    l.childNames.Pairwise (· < ·) := by
  rw [childNames, List.pairwise_map]
  exact hl.imp fun h => append_cons_lt [] h [] []

namespace Index

variable {x : Index R} {n : Name}

theorem childrenAt_ascending (hx : x.root.children.WellFormed) (n : Name) :
    (x.childrenAt n).Pairwise (· < ·) := by
  rw [childrenAt, Node.branches]
  cases hm : x.root.descend? n.components with
  | none => exact List.Pairwise.nil
  | some m => exact (Node.descend?_wellFormed hx hm).1.components_ascending

theorem isSome_node?_of_pending (h : (x.stateAt n).pending = true) :
    (x.node? n n.length).isSome := by
  rw [node?_length]
  cases hm : x.root.descend? n.components with
  | some m => rfl
  | none => simp [stateAt, Node.state?, hm, NodeState.fresh] at h

theorem pending_setPending (hn : (x.node? n n.length).isSome) (pending : Bool) :
    ((x.setPending n pending).stateAt n).pending = pending := by
  have hstanding := standing_setPending hn n pending
  rw [if_pos rfl] at hstanding
  exact congrArg Prod.snd hstanding

theorem setPending_eq_self (hx : x.root.children.WellFormed) {pending : Bool}
    (h : (x.stateAt n).pending = pending) : x.setPending n pending = x := by
  have hroot : x.root.modify (fun s => { s with pending := pending }) n.components = x.root := by
    apply Node.ext_state? (Node.modify_component _ _ _) (Node.wellFormed_modify _ _ hx) hx
    intro q
    rw [Node.state?_modify]
    split
    next hq =>
      subst hq
      rw [stateAt] at h
      cases hs : x.root.state? n.components with
      | none => rfl
      | some s => simp [hs, ← h]
    · rfl
  rw [setPending, hroot]

/-- The command alone, after the name of a node, is a request for whatever listing is at hand. -/
theorem enumerate_ofName (hx : x.root.component = none) (hn : .enumeration ∉ n.components)
    (hchildren : x.childrenAt n ≠ []) (responder : Component) :
    x.enumerate (.ofName (n.push .enumeration)) responder =
      ⟨x.setPending n false, [.answered], .ok (some (x.listingAt n))⟩ := by
  have hbefore : (Interest.ofName (n.push .enumeration)).name.before? .enumeration = some n := by
    have hcut := Name.before?_command hn .root
    rwa [Name.append_root] at hcut
  obtain ⟨c, hc⟩ := List.exists_mem_of_ne_nil _ hchildren
  obtain ⟨m, hm⟩ := Option.isSome_iff_exists.mp (isSome_node?_of_mem hc)
  have hwants : wants (.ofName (n.push .enumeration)) responder n m = .ok (decide True) := by
    rw [wants, responseName_eq]
    exact Interest.matchesName_append (.ofName (n.push .enumeration)) _ _
  rw [enumerate_of_wants hx hbefore hm hwants, if_pos ⟨hchildren, trivial⟩]

/-- A request that names another responder names its node all the same. It wants nothing there. -/
theorem enumerate_of_ne (hx : x.root.component = none) (hn : .enumeration ∉ n.components)
    (hnode : (x.node? n n.length).isSome) {i : Interest} {other responder : Component}
    (hother : other ≠ responder)
    (hi : ((n.push .enumeration).push other).isPrefixOf i.name = true) :
    x.enumerate i responder = ⟨x.setPending n true, [.deferred], .ok none⟩ := by
  obtain ⟨m, hm⟩ := Option.isSome_iff_exists.mp hnode
  obtain ⟨p, hp⟩ := Name.isPrefixOf_iff.mp hi
  have hname : i.name = n.push .enumeration ++ ⟨other :: p.components⟩ := by
    rw [hp]
    apply Name.eq_of_components
    simp [Name.push]
  have hbefore : i.name.before? .enumeration = some n := by
    rw [hname]
    exact Name.before?_command hn _
  have hno : i.name.isPrefixOf
      (NamedData.responseName (n.push .enumeration) responder m.state.lastModified) = false := by
    rw [← Bool.not_eq_true, Name.isPrefixOf, List.isPrefixOf_iff_prefix, hname, responseName_eq]
    simp [hother]
  have hwants : wants i responder n m = .ok (decide False) := by
    simp [wants, Interest.matchesName, hno]
  rw [enumerate_of_wants hx hbefore hm hwants, if_neg fun h => h.2]

theorem notMem_of_turn? {op : Operation R} (h : x.turn? n op = some .deferred) :
    .enumeration ∉ n.components := by
  cases op with
  | insert resolve o r now =>
    rw [turn?] at h
    split at h <;> cases h
  | enumerate i responder =>
    rw [turn?] at h
    split at h
    next hi => exact Name.notMem_of_before? hi.1
    · cases h
  | get resolve i => cases h

end Index

namespace History

/-- A request can wait only at a node whose name is without the command: whatever stands behind the
first command in the name of a request is none of the node's name. -/
theorem notMem_of_pending (selector : Selector) (ops : List (Operation R)) :
    ∀ n : Name, ((run selector ops).index.stateAt n).pending = true → .enumeration ∉ n.components := by
  refine run_induction (P := fun h => ∀ n : Name, (h.index.stateAt n).pending = true →
    .enumeration ∉ n.components) ?_ ?_ ops
  · intro n hn
    have hstart := congrArg Prod.snd (standing_start (R := R) selector n)
    cases hn.symm.trans hstart
  · intro h hh ih op n hn
    have hstep := congrArg Prod.snd (hh.standing_step n op)
    cases hturn : h.index.turn? n op with
    | none =>
      rw [hturn] at hstep
      exact ih n (hstep.symm.trans hn)
    | some t =>
      rw [hturn] at hstep
      have ht : t = .deferred := by simpa [Turn.mark] using hstep.symm.trans hn
      exact Index.notMem_of_turn? (ht ▸ hturn)

/-- Whenever an insertion hands out a listing, it is that of a node on the way to the new content:
the node was there before, its name is without the command, and it has gained the next component of
the name. The listing has all children of the node and the time of the insertion, and whichever
responder is asked for the listings of the node next hands out the same one and changes nothing. -/
theorem listing_insert_run (selector : Selector) (ops : List (Operation R)) (resolve : Resolver R)
    (o : Content) (r : R) (now : Timestamp) {inserted : Bool} {l : Listing}
    (h : ((run selector ops).index.insert resolve o r now).result = .ok ⟨inserted, some l⟩) :
    let x := (run selector ops).index
    let y := (x.insert resolve o r now).index
    ∃ (n : Name) (c : Component), l.name = n.push .enumeration ∧ .enumeration ∉ n.components ∧
      (x.node? n n.length).isSome ∧ (n.push c).isPrefixOf o.name = true ∧
      l.children = y.childrenAt n ∧ c ∈ l.children ∧ l.childNames.Pairwise (· < ·) ∧
      l.version = now ∧
      ∀ responder, (y.enumerate (.ofName l.name) responder).result = .ok (some l) ∧
        (y.enumerate (.ofName l.name) responder).index = y := by
  intro x y
  have hh : (run selector ops).Recorded := recorded_run selector ops
  have hx : x.root.children.WellFormed := hh.wellFormed
  have hroot : y.root.component = none := (hh.step (.insert resolve o r now)).root
  have hy : y.root.children.WellFormed := Index.wellFormed_insert hx
  obtain ⟨n, hpending, hgains, rfl⟩ := Index.exists_of_listing_insert hx h
  have hn : .enumeration ∉ n.components := notMem_of_pending selector ops n hpending
  obtain ⟨c, hc, hbegins⟩ : ∃ c, c ∈ y.childrenAt n ∧ (n.push c).isPrefixOf o.name = true := by
    have hstep : x.Gains ((run selector ops).step (.insert resolve o r now)).index n := hgains
    obtain ⟨_, _, _, _, c, hop, hc, _, hbegins, _⟩ := hh.exists_insert_of_gains hstep
    cases hop
    exact ⟨c, hc, hbegins⟩
  have hstanding : y.standing n = (now, false) := by
    rw [Index.standing_insert hx, if_pos ((Index.gains_insert_iff hx n).mp hgains)]
  refine ⟨n, c, rfl, hn, Index.isSome_node?_of_pending hpending, hbegins, rfl, hc,
    Listing.childNames_ascending (Index.childrenAt_ascending hy n), congrArg Prod.fst hstanding, ?_⟩
  intro responder
  have hanswer := Index.enumerate_ofName hroot hn (List.ne_nil_of_mem hc) responder
  rw [Index.setPending_eq_self hy (congrArg Prod.snd hstanding)] at hanswer
  exact ⟨congrArg Outcome.result hanswer, congrArg Outcome.index hanswer⟩

/-- A request waits at the name a, and the first child answers it, as the next request would be. -/
theorem listing_insert_run_askA :
    let x := (run .leftmost [.insert (fun _ => none) (.blank nameA) () ⟨5⟩, askA]).index
    let added := x.insert (fun _ => none) (.blank (nameA.push ⟨[99]⟩)) () ⟨6⟩
    let l : Listing := ⟨nameA.push .enumeration, [⟨[99]⟩], ⟨6⟩⟩
    added.result = .ok ⟨true, some l⟩ ∧
    ∀ responder, (added.index.enumerate (.ofName l.name) responder).result = .ok (some l) ∧
      (added.index.enumerate (.ofName l.name) responder).index = added.index := by
  intro x added l
  have hresult : added.result = .ok ⟨true, some l⟩ := by decide
  obtain ⟨_, _, _, _, _, _, _, _, _, _, hanswer⟩ := listing_insert_run .leftmost _ _ _ _ _ hresult
  exact ⟨hresult, hanswer⟩

/-- After every run, at a node whose name is without the command, a request that excludes the
versions up to the one it holds is answered exactly if the node has a child and was modified later,
and then with all its children and the time of its last modification; otherwise it waits. So does
whatever request names another responder. -/
theorem newerThan_run (selector : Selector) (ops : List (Operation R)) {n : Name}
    (hn : .enumeration ∉ n.components)
    (hnode : ((run selector ops).index.node? n n.length).isSome) (responder : Component) :
    let x := (run selector ops).index
    (∀ (held : Timestamp) (prefers : Option Selector) (publisher : Option Publisher),
      held.Short → (x.stateAt n).lastModified.Short →
      let i := { Interest.newerThan n responder held with selector := prefers, publisher := publisher }
      let z := x.enumerate i responder
      let newer := x.childrenAt n ≠ [] ∧ held < (x.stateAt n).lastModified
      ((∃ l, z.result = .ok (some l)) ↔ newer) ∧
      (∀ l, z.result = .ok (some l) → l.name = n.push .enumeration ∧ l.children = x.childrenAt n ∧
        l.childNames.Pairwise (· < ·) ∧ l.version = (x.stateAt n).lastModified) ∧
      (¬newer → z.result = .ok none ∧ (z.index.stateAt n).pending = true)) ∧
    ∀ (i : Interest) (other : Component), other ≠ responder →
      ((n.push .enumeration).push other).isPrefixOf i.name = true →
      (x.enumerate i responder).result = .ok none ∧
        ((x.enumerate i responder).index.stateAt n).pending = true := by
  intro x
  have hroot : x.root.component = none := (recorded_run selector ops).root
  have hx : x.root.children.WellFormed := (recorded_run selector ops).wellFormed
  constructor
  · intro held prefers publisher hheld htime i z newer
    have hz := Index.enumerate_newerThan hroot hn hnode responder prefers publisher hheld htime
    by_cases hnewer : newer
    · rw [if_pos hnewer] at hz
      have hresult : z.result = .ok (some (x.listingAt n)) := congrArg Outcome.result hz
      refine ⟨⟨fun _ => hnewer, fun _ => ⟨_, hresult⟩⟩, ?_, absurd hnewer⟩
      intro l hl
      cases hresult.symm.trans hl
      exact ⟨rfl, rfl, Listing.childNames_ascending (Index.childrenAt_ascending hx n), rfl⟩
    · rw [if_neg hnewer] at hz
      have hresult : z.result = .ok none := congrArg Outcome.result hz
      have hno (l : Listing) : z.result ≠ .ok (some l) := fun hl => nomatch hresult.symm.trans hl
      refine ⟨⟨fun ⟨l, hl⟩ => absurd hl (hno l), fun h => absurd h hnewer⟩,
        fun l hl => absurd hl (hno l), fun _ => ⟨hresult, ?_⟩⟩
      have hindex : z.index = x.setPending n true := congrArg Outcome.index hz
      rw [hindex]
      exact Index.pending_setPending hnode true
  · intro i other hother hi
    rw [Index.enumerate_of_ne hroot hn hnode hother hi]
    exact ⟨rfl, Index.pending_setPending hnode true⟩

/-- The name a gained a child at tick 5: whoever holds tick 4 gets it, whoever holds tick 5 waits, and
so does whoever asks another responder. -/
theorem newerThan_run_addB :
    let x := (run .leftmost [addB ⟨5⟩]).index
    (∃ l, (x.enumerate (.newerThan nameA nrepo ⟨4⟩) nrepo).result = .ok (some l) ∧
      l.children = [⟨[98]⟩] ∧ l.version = ⟨5⟩) ∧
    ((x.enumerate (.newerThan nameA nrepo ⟨5⟩) nrepo).index.stateAt nameA).pending = true ∧
    (x.enumerate (.newerThan nameA ⟨[97]⟩ ⟨4⟩) nrepo).result = .ok none := by
  intro x
  obtain ⟨hsame, hother⟩ :=
    newerThan_run .leftmost [addB ⟨5⟩] (n := nameA) (by decide) (by decide) nrepo
  refine ⟨?_, ?_, ?_⟩
  · obtain ⟨hanswered, hlisting, _⟩ := hsame ⟨4⟩ none none (by decide) (by decide)
    obtain ⟨l, hl⟩ := hanswered.mpr (by decide)
    obtain ⟨_, hchildren, _, hversion⟩ := hlisting l hl
    exact ⟨l, hl, hchildren, hversion⟩
  · obtain ⟨_, _, hwaits⟩ := hsame ⟨5⟩ none none (by decide) (by decide)
    exact (hwaits (by decide)).2
  · exact (hother _ ⟨[97]⟩ (by decide) (by decide)).1

end History

end NamedData
