import NamedData.Proofs.Canonical
import NamedData.Proofs.Turns

namespace NamedData

variable {R : Type}

namespace Index

section Insertion

variable {x : Index R} {resolve : Resolver R} {o : Content} {r : R} {now : Timestamp}

theorem childrenAt_insert (hx : x.root.children.WellFormed) (n : Name) :
    (x.insert resolve o r now).index.childrenAt n =
      (x.growth o.name now).node.branches n.components := by
  rcases insert_cases hx resolve o r now with
    ⟨hroot, h⟩ | ⟨_, v, _, h⟩ | ⟨_, _, _, h⟩ | ⟨_, _, _, h⟩ <;> rw [h]
  · rw [growth, Name.isRoot_iff.mp hroot]
    rfl
  · rfl
  · rfl
  · exact Node.branches_modify _ _ _ (Node.wellFormed_grow now [] o.name.components hx)

/-- The growth for a name answers a request exactly if it waits at a node that gains a child. -/
theorem listing_growth_iff (hx : x.root.children.WellFormed) {l : Listing} :
    (x.growth o.name now).listing = some l ↔
      ∃ n, (x.stateAt n).pending = true ∧ x.Gains (x.insert resolve o r now).index n ∧
        l = (x.insert resolve o r now).index.listingAt n := by
  have hlisting (n : Name) (hn : x.root.Gains o.name.components n.components) :
      (x.insert resolve o r now).index.listingAt n =
        ⟨n.push .enumeration, (x.growth o.name now).node.branches n.components, now⟩ := by
    have htime : ((x.insert resolve o r now).index.standing n).1 = now := by
      rw [standing_insert hx, if_pos hn]
    rw [listingAt, childrenAt_insert hx]
    exact congrArg _ htime
  rw [growth, Node.grow_listing now [] o.name.components hx]
  constructor
  · rintro ⟨q, hq, hpending, rfl⟩
    exact ⟨⟨q⟩, hpending, (gains_insert_iff hx _).mpr hq, (hlisting ⟨q⟩ hq).symm⟩
  · rintro ⟨n, hpending, hn, rfl⟩
    rw [gains_insert_iff hx] at hn
    exact ⟨n.components, hn, hpending, hlisting n hn⟩

theorem exists_of_listing_insert (hx : x.root.children.WellFormed) {inserted : Bool} {l : Listing}
    (h : (x.insert resolve o r now).result = .ok ⟨inserted, some l⟩) :
    ∃ n, (x.stateAt n).pending = true ∧ x.Gains (x.insert resolve o r now).index n ∧
      l = (x.insert resolve o r now).index.listingAt n := by
  rw [insert_result hx] at h
  rw [← listing_growth_iff hx]
  split at h
  · exact congrArg Insertion.listing (Except.ok.inj h)
  · cases h

end Insertion

end Index

namespace Index

/-- Two indexes have the same nodes with the same states, except that at one name, if it is given, a
request may wait in one of them and not in the other. -/
def SameUpToRequest (x y : Index R) (named : Option Name) : Prop :=
  y = { x with root := y.root } ∧
    (∀ n, named ≠ some n → y.root.state? n.components = x.root.state? n.components) ∧
    ∀ n, named = some n → ∃ pending, y.root.state? n.components =
      (x.root.state? n.components).map fun s => { s with pending := pending }

theorem sameUpToRequest_refl (x : Index R) (named : Option Name) : x.SameUpToRequest x named := by
  refine ⟨rfl, fun n _ => rfl, fun n _ => ⟨(x.stateAt n).pending, ?_⟩⟩
  rw [stateAt]
  cases x.root.state? n.components <;> rfl

theorem sameUpToRequest_setPending (x : Index R) (n : Name) (pending : Bool) :
    x.SameUpToRequest (x.setPending n pending) (some n) := by
  refine ⟨rfl, ?_, ?_⟩
  · intro k hk
    rw [setPending, Node.state?_modify, if_neg]
    exact fun heq => hk (congrArg some (Name.eq_of_components heq.symm))
  · intro k hk
    refine ⟨pending, ?_⟩
    rw [setPending, Node.state?_modify, if_pos]
    rw [Option.some.inj hk]

theorem sameUpToRequest_enumerate (x : Index R) (i : Interest) (responder : Component) :
    x.SameUpToRequest (x.enumerate i responder).index (i.name.before? .enumeration) := by
  rcases x.enumerate_cases i responder with ⟨_, hx, _⟩ | ⟨n, m, hn, _, hx | hx⟩ <;> rw [hx]
  · exact x.sameUpToRequest_refl _
  · rw [hn]
    exact x.sameUpToRequest_setPending n true
  · rw [hn]
    exact x.sameUpToRequest_setPending n false

end Index

namespace History

theorem pending_run_iff (selector : Selector) (ops : List (Operation R)) (n : Name) :
    ((run selector ops).index.stateAt n).pending = true ↔
      ((start selector).turns n ops).getLast? = some .deferred := by
  have hstanding := congrArg Prod.snd (standing_run selector ops n)
  rw [Turn.foldl_mark] at hstanding
  change ((run selector ops).index.stateAt n).pending = _ at hstanding
  rw [hstanding]
  cases ((start selector).turns n ops).getLast? <;> simp

/-- After every run a request waits exactly where the last turn was a deferral. An insertion then
leaves no request at a node that gains a child, and what it returns is the listing of the one such
node at which a request was waiting, if there is one. A request for a listing changes nothing but
whether one waits at the node it names. -/
theorem waiting_run (selector : Selector) (ops : List (Operation R)) :
    let x := (run selector ops).index
    (∀ n, (x.stateAt n).pending = true ↔
      ((start selector).turns n ops).getLast? = some .deferred) ∧
    (∀ (resolve : Resolver R) (o : Content) (r : R) (now : Timestamp),
      let y := (x.insert resolve o r now).index
      (∀ n, x.Gains y n → (y.stateAt n).pending = false) ∧
      ((∀ c ∈ o.name.components, c.isEmpty = false) →
        ∃ inserted listing, (x.insert resolve o r now).result = .ok ⟨inserted, listing⟩ ∧
          ∀ l, listing = some l ↔
            ∃ n, (x.stateAt n).pending = true ∧ x.Gains y n ∧ l = y.listingAt n)) ∧
    ∀ (i : Interest) (responder : Component),
      x.SameUpToRequest (x.enumerate i responder).index (i.name.before? .enumeration) := by
  intro x
  have hx : x.root.children.WellFormed := (recorded_run selector ops).wellFormed
  refine ⟨pending_run_iff selector ops, ?_, x.sameUpToRequest_enumerate⟩
  intro resolve o r now y
  constructor
  · intro n hn
    rw [Index.gains_insert_iff hx] at hn
    have hstanding : y.standing n = (now, false) := by
      rw [Index.standing_insert hx, if_pos hn]
    exact congrArg Prod.snd hstanding
  · intro ho
    have hresult := Index.insert_result hx resolve o r now
    rw [if_pos ho] at hresult
    exact ⟨_, _, hresult, fun l => Index.listing_growth_iff hx⟩

def nameA : Name := ⟨[⟨[97]⟩]⟩

def nrepo : Component := ⟨[110, 114, 101, 112, 111]⟩

def askA : Operation Unit := .enumerate (.ofName (nameA.push .enumeration)) nrepo

/-- A request waits at a name without children, and the first child answers it. -/
theorem waiting_run_askA :
    let x := (run .leftmost [.insert (fun _ => none) (.blank nameA) () ⟨5⟩, askA]).index
    let added := x.insert (fun _ => none) (.blank (nameA.push ⟨[99]⟩)) () ⟨6⟩
    (x.stateAt nameA).pending = true ∧ x.Gains added.index nameA ∧
      (∃ inserted, added.result = .ok ⟨inserted, some (added.index.listingAt nameA)⟩) ∧
      (added.index.stateAt nameA).pending = false := by
  intro x added
  obtain ⟨hwaits, hinsert, _⟩ := waiting_run .leftmost
    [.insert (fun _ => none) (.blank nameA) () ⟨5⟩, askA]
  obtain ⟨hcleared, hanswered⟩ := hinsert (fun _ => none) (.blank (nameA.push ⟨[99]⟩)) () ⟨6⟩
  have hpending : (x.stateAt nameA).pending = true := (hwaits nameA).mpr (by decide)
  have hgains : x.Gains added.index nameA := by decide
  obtain ⟨inserted, listing, hresult, hlisting⟩ := hanswered (by decide)
  have hsome : listing = some (added.index.listingAt nameA) :=
    (hlisting _).mpr ⟨nameA, hpending, hgains, rfl⟩
  exact ⟨hpending, hgains, ⟨inserted, hsome ▸ hresult⟩, hcleared nameA hgains⟩

end History

end NamedData
