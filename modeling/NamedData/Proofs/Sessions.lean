import Mathlib.Data.List.Nodup
import NamedData.Proofs.Canonical
import NamedData.Repository

namespace NamedData

/-- The slot that is handed out after `k` others. Their numbers wrap around. -/
def Slot.nth (k : Nat) : Slot := ⟨.ofNat k⟩

theorem Slot.nth_inj {j k : Nat} (hj : j < UInt64.size) (hk : k < UInt64.size)
    (h : nth j = nth k) : j = k := by
  have hnumber : (UInt64.ofNat j).toNat = (UInt64.ofNat k).toNat :=
    congrArg (fun s => s.number.toNat) h
  rwa [UInt64.toNat_ofNat_of_lt' hj, UInt64.toNat_ofNat_of_lt' hk] at hnumber

theorem Slot.nth_succ (k : Nat) : nth (k+1) = ⟨(nth k).number+1⟩ := by
  simp [nth]

namespace Store

theorem lookup_cons (e : Slot × Content) (es : List (Slot × Content)) (t : Slot) :
    (e :: es).lookup t = if t = e.1 then some e.2 else es.lookup t := by
  rw [List.lookup_cons]
  by_cases ht : t = e.1
  · simp [ht]
  · have hne : (t == e.1) = false := by simpa using ht
    simp [ht, hne]

theorem lookup_without (s : Store) (slot t : Slot) :
    (s.without slot).lookup t = if t = slot then none else s.get? t := by
  rw [without, get?]
  induction s.entries with
  | nil => simp
  | cons e es ih =>
    rw [List.filter_cons, lookup_cons]
    by_cases he : e.1 = slot
    · have hdrop : ¬(e.1 != slot) = true := by simpa using he
      rw [if_neg hdrop, ih, he]
      split <;> rfl
    · have hkeep : (e.1 != slot) = true := by simpa using he
      rw [if_pos hkeep, lookup_cons, ih]
      by_cases ht : t = slot
      · simp [ht, Ne.symm he]
      · simp [ht]

theorem get?_put (s : Store) (o : Content) (t : Slot) :
    (s.put o).get? t = if t = s.next then some o else s.get? t := by
  rw [get?, put, lookup_cons, lookup_without]
  split <;> rfl

theorem get?_evict (s : Store) (slot t : Slot) :
    (s.evict slot).get? t = if t = slot then none else s.get? t :=
  s.lookup_without slot t

end Store

namespace Repository

/-- What a session can lead to, and the slots that were handed out in it, in order, each with the
content it was handed out for. A content is indexed under a slot of its own. -/
inductive Reached : Repository → List (Slot × Content) → Prop
  | start (selector : Selector) (responder : Component) :
    Reached ⟨.empty selector, .empty, responder, .zero⟩ []
  | put {x issued} (hx : Reached x issued) (o : Content) :
    Reached (x.put o).1 (issued ++ [((x.put o).2, o)])
  | insertAt {x issued} (hx : Reached x issued) (o : Content) (slot : Slot) (now : Timestamp)
    (hslot : (slot, o) ∈ issued) : Reached (x.insertAt o slot now).1 issued
  | evict {x issued} (hx : Reached x issued) (slot : Slot) : Reached (x.evict slot).1 issued
  | get {x issued} (hx : Reached x issued) (i : Interest) : Reached (x.get i).1 issued
  | search {x issued} (hx : Reached x issued) (i : Interest) (selector : Selector) :
    Reached (x.search i selector).1 issued
  | enumerate {x issued} (hx : Reached x issued) (i : Interest) (responder : Component) :
    Reached (x.enumerate i responder).1 issued

def Holds (x : Repository) (o : Content) : Prop :=
  ∃ rs, x.index.lookup o.name = .ok (some rs) ∧ ∃ r ∈ rs, x.store.get? r = some o

theorem holds_iff {x : Repository} {o : Content} (hx : x.index.root.component = none) :
    x.Holds o ↔ ∃ s ∈ x.index.root.contents o.name.components, x.store.get? s = some o := by
  simp only [Holds, Index.mem_contents_iff hx]
  constructor
  · rintro ⟨rs, hrs, r, hr, hget⟩
    exact ⟨r, ⟨rs, hrs, hr⟩, hget⟩
  · rintro ⟨r, ⟨rs, hrs, hr⟩, hget⟩
    exact ⟨rs, hrs, r, hr, hget⟩

/-- A content was indexed, and none of the slots that were handed out for it and indexed leads
anywhere. -/
def Lost (x : Repository) (issued : List (Slot × Content)) (o : Content) : Prop :=
  ∃ rs, x.index.lookup o.name = .ok (some rs) ∧ (∃ r ∈ rs, (r, o) ∈ issued) ∧
    ∀ r ∈ rs, (r, o) ∈ issued → x.store.get? r = none

def live (x : Repository) (n : Name) : List Content :=
  (x.index.root.contents n.components).filterMap x.store.get?

theorem search_fst (x : Repository) (i : Interest) (selector : Selector) :
    (x.search i selector).1.index = x.index ∧ (x.search i selector).1.store = x.store := by
  rw [search]
  split <;> exact ⟨rfl, rfl⟩

/-- What holds of a session at any time: slots are numbered, what is live was put into its slot, and
the index is that of a run in which every slot was inserted with its own content. -/
structure Sound (x : Repository) (issued : List (Slot × Content)) : Prop where
  slots : issued.map (·.1) = (List.range issued.length).map Slot.nth
  next : x.store.next = Slot.nth issued.length
  held : ∀ slot o, x.store.get? slot = some o → (slot, o) ∈ issued
  indexed : ∃ h : History Slot, h.index = x.index ∧ h.Recorded ∧
    ∀ e ∈ h.stored, (e.ref, e.content) ∈ issued

namespace Sound

variable {x y : Repository} {issued : List (Slot × Content)}

theorem start (selector : Selector) (responder : Component) :
    Sound ⟨.empty selector, .empty, responder, .zero⟩ [] where
  slots := rfl
  next := rfl
  held slot o h := by cases h
  indexed := ⟨.start selector, rfl, History.recorded_start selector, by simp [History.start]⟩

theorem put (hx : x.Sound issued) (o : Content) :
    (x.put o).1.Sound (issued ++ [((x.put o).2, o)]) where
  slots := by
    rw [List.map_append, hx.slots, List.length_append, List.length_singleton, List.range_succ,
      List.map_append, List.map_singleton, List.map_singleton, ← hx.next]
    rfl
  next := by
    rw [List.length_append, List.length_singleton, Slot.nth_succ, ← hx.next]
    rfl
  held slot p h := by
    have hget := h
    rw [Repository.put, Store.get?_put] at hget
    split at hget
    next hslot =>
      rw [hslot, Option.some.inj hget]
      exact List.mem_append_right _ (by simp [Repository.put])
    next => exact List.mem_append_left _ (hx.held slot p hget)
  indexed := by
    obtain ⟨h, hindex, hrecorded, hstored⟩ := hx.indexed
    exact ⟨h, hindex, hrecorded, fun e he => List.mem_append_left _ (hstored e he)⟩

theorem evict (hx : x.Sound issued) (slot : Slot) : (x.evict slot).1.Sound issued where
  slots := hx.slots
  next := hx.next
  held t o h := by
    have hget := h
    rw [Repository.evict, Store.get?_evict] at hget
    split at hget
    · cases hget
    · exact hx.held t o hget
  indexed := hx.indexed

theorem step (hx : x.Sound issued) (op : Operation Slot) (hstore : y.store = x.store)
    (hindex : ∀ h : History Slot, h.index = x.index → (h.step op).index = y.index)
    (hop : ∀ resolve o r now, op = .insert resolve o r now → (r, o) ∈ issued) :
    y.Sound issued where
  slots := hx.slots
  next := by rw [hstore, hx.next]
  held := by
    rw [hstore]
    exact hx.held
  indexed := by
    obtain ⟨h, hh, hrecorded, hstored⟩ := hx.indexed
    refine ⟨h.step op, hindex h hh, hrecorded.step op, ?_⟩
    cases op with
    | insert resolve o r now =>
      intro e he
      rcases History.mem_stored_insert.mp he with hold | ⟨_, rfl⟩
      · exact hstored e hold
      · exact hop resolve o r now rfl
    | enumerate i responder => exact hstored
    | get resolve i => exact hstored

theorem root (hx : x.Sound issued) : x.index.root.component = none := by
  obtain ⟨h, hindex, hrecorded, _⟩ := hx.indexed
  rw [← hindex]
  exact hrecorded.root

theorem wellFormed (hx : x.Sound issued) : x.index.root.children.WellFormed := by
  obtain ⟨h, hindex, hrecorded, _⟩ := hx.indexed
  rw [← hindex]
  exact hrecorded.wellFormed

theorem issued_of_mem (hx : x.Sound issued) {n : Name} {s : Slot}
    (hs : s ∈ x.index.root.contents n.components) : ∃ o, o.name = n ∧ (s, o) ∈ issued := by
  obtain ⟨h, hindex, hrecorded, hstored⟩ := hx.indexed
  rw [← hindex, hrecorded.contents] at hs
  obtain ⟨e, he, rfl⟩ := List.mem_map.mp hs
  rw [History.storedAt, List.mem_filter, decide_eq_true_eq] at he
  exact ⟨e.content, he.2, hstored e he.1⟩

theorem contents_enumerate (hx : x.Sound issued) (i : Interest) (responder : Component) (n : Name) :
    (x.enumerate i responder).1.index.root.contents n.components =
      x.index.root.contents n.components := by
  obtain ⟨h, hindex, hrecorded, _⟩ := hx.indexed
  have hstep := (hrecorded.step (.enumerate i responder)).contents n
  have hbefore := hrecorded.contents n
  rw [History.step, hindex] at hstep
  rw [hindex] at hbefore
  exact hstep.trans hbefore.symm

section Numbered

variable (hx : x.Sound issued)
include hx

theorem eq_of_mem (hsize : issued.length ≤ UInt64.size) {slot : Slot} {o p : Content}
    (ho : (slot, o) ∈ issued) (hp : (slot, p) ∈ issued) : o = p := by
  have hnodup : (issued.map (·.1)).Nodup := by
    rw [hx.slots]
    refine List.Nodup.map_on ?_ List.nodup_range
    intro j hj k hk
    rw [List.mem_range] at hj hk
    exact Slot.nth_inj (by omega) (by omega)
  exact congrArg Prod.snd (List.inj_on_of_nodup_map hnodup ho hp rfl)

theorem next_notMem (hsize : issued.length < UInt64.size) (o : Content) :
    (x.store.next, o) ∉ issued := by
  intro hmem
  have hnext : x.store.next ∈ issued.map (·.1) := List.mem_map_of_mem hmem
  rw [hx.slots, hx.next, List.mem_map] at hnext
  obtain ⟨k, hk, heq⟩ := hnext
  rw [List.mem_range] at hk
  have hsame : k = issued.length := Slot.nth_inj (by omega) hsize heq
  omega

theorem live_put (hsize : issued.length < UInt64.size) (o : Content) (n : Name) :
    (x.put o).1.live n = x.live n := by
  apply List.filterMap_congr
  intro s hs
  obtain ⟨p, _, hissued⟩ := hx.issued_of_mem hs
  have hother : s ≠ x.store.next := by
    rintro rfl
    exact hx.next_notMem hsize p hissued
  rw [Repository.put, Store.get?_put, if_neg hother]

/-- An insertion adds its content to the live ones if there was none equal, and else nothing. -/
theorem live_insertAt (hsize : issued.length ≤ UInt64.size) {o : Content} {slot : Slot}
    (hslot : (slot, o) ∈ issued) (now : Timestamp) (n : Name) :
    (x.insertAt o slot now).1.live n = x.live n ∨
      o ∉ x.live n ∧ (x.insertAt o slot now).1.live n = x.live n ++ [o] := by
  have hlive : (x.insertAt o slot now).1.live n =
      ((x.index.insert x.store.get? o slot now).index.root.contents n.components).filterMap
        x.store.get? := rfl
  rw [hlive, Index.contents_insert hx.wellFormed, List.filterMap_append]
  split
  next hnew =>
    obtain ⟨haccepts, hname⟩ := hnew
    rw [Index.accepts_iff, Index.insert_accepted_iff hx.wellFormed, ← hname] at haccepts
    -- The slot of the new reference may have been evicted before it was indexed.
    cases hget : x.store.get? slot with
    | none => exact Or.inl (by simp [hget, live])
    | some p =>
      have hp : p = o := hx.eq_of_mem hsize (hx.held slot p hget) hslot
      refine Or.inr ⟨?_, by simp [hget, hp, live]⟩
      rw [live, List.mem_filterMap]
      rintro ⟨s, hs, hequal⟩
      exact haccepts.2.2 s hs hequal
  next => exact Or.inl (by simp [live])

end Numbered

theorem live_evict (x : Repository) (slot : Slot) (n : Name) :
    ((x.evict slot).1.live n).Sublist (x.live n) := by
  have hdrop : (x.evict slot).1.live n =
      ((x.index.root.contents n.components).filter (· ≠ slot)).filterMap x.store.get? := by
    rw [List.filterMap_filter, live, Repository.evict]
    apply List.filterMap_congr
    intro s _
    rw [Store.get?_evict]
    by_cases hs : s = slot <;> simp [hs]
  rw [hdrop]
  exact List.filter_sublist.filterMap _

end Sound

namespace Reached

variable {x : Repository} {issued : List (Slot × Content)}

theorem sound (hx : Reached x issued) : x.Sound issued := by
  induction hx with
  | start selector responder => exact Sound.start selector responder
  | put _ o ih => exact ih.put o
  | @insertAt x _ _ o slot now hslot ih =>
    refine ih.step (.insert x.store.get? o slot now) rfl (fun h hh => by rw [History.step, hh]; rfl) ?_
    intro resolve o r now hop
    cases hop
    exact hslot
  | evict _ slot ih => exact ih.evict slot
  | @get x _ _ i ih =>
    exact ih.step (.get x.store.get? i) rfl (fun h hh => by rw [History.step, hh]; rfl) (by simp)
  | @search x _ _ i selector ih =>
    exact ih.step (.get x.store.get? i) (x.search_fst i selector).2
      (fun h hh => by rw [History.step, hh, (x.search_fst i selector).1]; rfl) (by simp)
  | enumerate _ i responder ih =>
    exact ih.step (.enumerate i responder) rfl (fun h hh => by rw [History.step, hh]; rfl) (by simp)

/-- As long as no slot was handed out twice, equal contents are never live under one name. -/
theorem nodup_live (hx : Reached x issued) (hsize : issued.length ≤ UInt64.size) (n : Name) :
    (x.live n).Nodup := by
  induction hx with
  | start selector responder =>
    have hnone : (⟨.empty selector, .empty, responder, .zero⟩ : Repository).live n = [] := by
      rw [live, List.filterMap_eq_nil_iff]
      exact fun _ _ => rfl
    rw [hnone]
    exact List.nodup_nil
  | put hx o ih =>
    rw [List.length_append, List.length_singleton] at hsize
    rw [hx.sound.live_put (by omega)]
    exact ih (by omega)
  | insertAt hx o slot now hslot ih =>
    rcases hx.sound.live_insertAt hsize hslot now n with hsame | ⟨hnew, hadded⟩
    · rw [hsame]
      exact ih hsize
    · rw [hadded, List.nodup_append]
      refine ⟨ih hsize, List.nodup_singleton _, ?_⟩
      rintro p hp _ hq rfl
      rw [List.mem_singleton] at hq
      exact hnew (hq ▸ hp)
  | evict _ slot ih => exact (ih hsize).sublist (Sound.live_evict _ slot n)
  | get _ i ih => exact ih hsize
  | @search x _ _ i selector ih =>
    rw [live, (x.search_fst i selector).1, (x.search_fst i selector).2]
    exact ih hsize
  | enumerate hx i responder ih =>
    rw [live, hx.sound.contents_enumerate]
    exact ih hsize

theorem refused_iff (hx : Reached x issued) {o : Content} {slot : Slot} {now : Timestamp}
    (hroot : o.name ≠ .root) :
    (∃ l, (x.insertAt o slot now).2 = .ok ⟨false, l⟩) ↔ x.Holds o := by
  have hrefused := Index.insert_refused_iff hx.sound.wellFormed x.store.get? o slot now
  rw [or_iff_right hroot, ← holds_iff hx.sound.root] at hrefused
  exact hrefused

theorem accepted_iff (hx : Reached x issued) {o : Content} {slot : Slot} {now : Timestamp}
    (hroot : o.name ≠ .root) :
    (∃ l, (x.insertAt o slot now).2 = .ok ⟨true, l⟩) ↔
      (∀ c ∈ o.name.components, c.isEmpty = false) ∧ ¬x.Holds o := by
  have hholds : ¬x.Holds o ↔
      ∀ s ∈ x.index.root.contents o.name.components, x.store.get? s ≠ some o := by
    simp [holds_iff hx.sound.root]
  have haccepted := Index.insert_accepted_iff hx.sound.wellFormed x.store.get? o slot now
  rw [and_iff_right hroot, ← hholds] at haccepted
  exact haccepted

theorem not_holds_of_lost (hx : Reached x issued) {o : Content} (ho : x.Lost issued o) :
    (∀ c ∈ o.name.components, c.isEmpty = false) ∧ ¬x.Holds o := by
  obtain ⟨rs, hrs, ⟨r, hr, _⟩, hgone⟩ := ho
  have hcontents := Index.contents_of_lookup hx.sound.root hrs
  constructor
  · by_contra hempty
    rw [← hcontents, Index.contents_eq_nil_of_isEmpty hx.sound.wellFormed hempty] at hr
    cases hr
  · intro hholds
    obtain ⟨s, hs, hequal⟩ := (holds_iff hx.sound.root).mp hholds
    rw [hcontents] at hs
    have hnone := hgone s hs (hx.sound.held s o hequal)
    cases hnone.symm.trans hequal

/-- In a session an insertion below the root is refused exactly if an equal content is live under
the name, and else accepted, so that a content whose copies are all gone can come back. As long as
slots are not handed out again, no two references under a name lead to equal contents. -/
theorem suppression (hx : Reached x issued) :
    (∀ (o : Content) (slot : Slot) (now : Timestamp), o.name ≠ .root →
      ((∃ l, (x.insertAt o slot now).2 = .ok ⟨false, l⟩) ↔ x.Holds o) ∧
      ((∃ l, (x.insertAt o slot now).2 = .ok ⟨true, l⟩) ↔
        (∀ c ∈ o.name.components, c.isEmpty = false) ∧ ¬x.Holds o) ∧
      (x.Lost issued o → ∃ l, (x.insertAt o slot now).2 = .ok ⟨true, l⟩)) ∧
    (issued.length ≤ UInt64.size → ∀ n rs, x.index.lookup n = .ok (some rs) →
      (rs.filterMap x.store.get?).Nodup) := by
  constructor
  · intro o slot now hroot
    refine ⟨hx.refused_iff hroot, hx.accepted_iff hroot, ?_⟩
    intro ho
    exact (hx.accepted_iff hroot).mpr (hx.not_holds_of_lost ho)
  · intro hsize n rs hrs
    rw [← Index.contents_of_lookup hx.sound.root hrs]
    exact hx.nodup_live hsize n

def putAgain : Repository :=
  let stored := ((⟨.empty .leftmost, .empty, ⟨[110]⟩, .zero⟩ : Repository).put .blankAC).1
  let indexed := (stored.insertAt .blankAC (.nth 0) ⟨1⟩).1
  ((indexed.evict (.nth 0)).1.put .blankAC).1

/-- The content comes back under its second slot, and a third copy is refused. -/
theorem suppression_putAgain :
    let issued := [(.nth 0, .blankAC), (.nth 1, .blankAC)]
    let back := (putAgain.insertAt .blankAC (.nth 1) ⟨2⟩).1
    Reached putAgain issued ∧ putAgain.Lost issued .blankAC ∧ back.Holds .blankAC ∧
      (∃ l, (putAgain.insertAt .blankAC (.nth 1) ⟨2⟩).2 = .ok ⟨true, l⟩) ∧
      (∃ l, (back.insertAt .blankAC (.nth 1) ⟨3⟩).2 = .ok ⟨false, l⟩) ∧
      ([Slot.nth 0, Slot.nth 1].filterMap back.store.get?).Nodup := by
  intro issued back
  have hindexed := ((Reached.start .leftmost ⟨[110]⟩).put .blankAC).insertAt .blankAC (.nth 0) ⟨1⟩
    (List.mem_singleton.mpr rfl)
  have hagain : Reached putAgain issued := (hindexed.evict (.nth 0)).put .blankAC
  have hback : Reached back issued := hagain.insertAt .blankAC (.nth 1) ⟨2⟩ (by decide)
  have hlost : putAgain.Lost issued .blankAC :=
    ⟨[.nth 0], by decide, ⟨.nth 0, by decide, by decide⟩, by decide⟩
  have hholds : back.Holds .blankAC := ⟨[.nth 0, .nth 1], by decide, .nth 1, by decide, by decide⟩
  refine ⟨hagain, hlost, hholds, ?_, ?_, ?_⟩
  · exact ((suppression hagain).1 _ _ _ (by decide)).2.2 hlost
  · exact ((suppression hback).1 _ _ _ (by decide)).1.mpr hholds
  · exact (suppression hback).2 (by decide) ⟨[⟨[97]⟩, ⟨[99]⟩]⟩ _ (by decide)

end Reached

end Repository

end NamedData
