import NamedData.Proofs.Sessions

namespace NamedData

namespace Store

inductive Request
  | put (o : Content)
  | evict (slot : Slot)
  | get (slot : Slot)

inductive Reply
  | issued (slot : Slot) (o : Content)
  | evicted (slot : Slot) (dropped : Bool)
  | fetched (slot : Slot) (found : Option Content)
  deriving DecidableEq

namespace Reply

def issued? : Reply → Option (Slot × Content)
  | issued slot o => some (slot, o)
  | _ => none

def isDrop : Reply → Bool
  | evicted _ dropped => dropped
  | _ => false

end Reply

/-- By the replies so far a slot was handed out for a content and has not been evicted since. -/
def Keeps (rs : List Reply) (slot : Slot) (o : Content) : Prop :=
  ∃ before after, rs = before ++ .issued slot o :: after ∧ ∀ dropped, .evicted slot dropped ∉ after

/-- What the replies so far make of the next one. -/
def Reply.Follows (rs : List Reply) : Reply → Prop
  | issued slot _ => ∀ o, .issued slot o ∉ rs
  | evicted slot dropped => dropped = true ↔ ∃ o, Keeps rs slot o
  | fetched slot found => ∀ o, found = some o ↔ Keeps rs slot o

theorem split_append_singleton {α : Type} {xs before after : List α} {x y : α} :
    xs ++ [y] = before ++ x :: after ↔
      (before = xs ∧ x = y ∧ after = []) ∨ ∃ rest, after = rest ++ [y] ∧ xs = before ++ x :: rest := by
  constructor
  · intro h
    rcases List.eq_nil_or_concat' after with rfl | ⟨rest, z, rfl⟩
    · obtain ⟨hxs, hy⟩ := List.append_singleton_inj.mp h
      exact Or.inl ⟨hxs.symm, hy.symm, rfl⟩
    · rw [← List.cons_append, ← List.append_assoc] at h
      obtain ⟨hxs, hy⟩ := List.append_singleton_inj.mp h
      exact Or.inr ⟨rest, by rw [hy], hxs⟩
  · rintro (⟨rfl, rfl, rfl⟩ | ⟨rest, rfl, rfl⟩)
    · rfl
    · simp

section Replies

variable {rs : List Reply} {r : Reply} {slot : Slot} {o : Content}

theorem keeps_append_iff :
    Keeps (rs ++ [r]) slot o ↔
      r = .issued slot o ∨ Keeps rs slot o ∧ ∀ dropped, r ≠ .evicted slot dropped := by
  simp only [Keeps, split_append_singleton]
  constructor
  · rintro ⟨before, after, ⟨rfl, hr, rfl⟩ | ⟨rest, rfl, hrs⟩, hkept⟩
    · exact Or.inl hr.symm
    · simp only [List.mem_append, List.mem_singleton, not_or] at hkept
      exact Or.inr ⟨⟨before, rest, hrs, fun d => (hkept d).1⟩, fun d => Ne.symm (hkept d).2⟩
  · rintro (rfl | ⟨⟨before, rest, hrs, hkept⟩, hr⟩)
    · exact ⟨rs, [], Or.inl ⟨rfl, rfl, rfl⟩, by simp⟩
    · refine ⟨before, rest ++ [r], Or.inr ⟨rest, rfl, hrs⟩, ?_⟩
      intro d hd
      rcases List.mem_append.mp hd with hd | hd
      · exact hkept d hd
      · exact hr d (List.mem_singleton.mp hd).symm

theorem mem_issued_iff : (slot, o) ∈ rs.filterMap Reply.issued? ↔ .issued slot o ∈ rs := by
  rw [List.mem_filterMap]
  constructor
  · rintro ⟨r, hr, hissued⟩
    cases r with
    | issued t p =>
      cases hissued
      exact hr
    | evicted t dropped => cases hissued
    | fetched t found => cases hissued
  · intro h
    exact ⟨_, h, rfl⟩

theorem Keeps.mem (h : Keeps rs slot o) : .issued slot o ∈ rs := by
  obtain ⟨before, after, rfl, _⟩ := h
  simp

end Replies

theorem length_without {s : Store} (hs : (s.entries.map (·.1)).Nodup) (slot : Slot) :
    (s.without slot).length+(s.get? slot).isSome.toNat = s.size := by
  rw [without, get?, size]
  revert hs
  induction s.entries with
  | nil => exact fun _ => rfl
  | cons e es ih =>
    intro hs
    rw [List.map_cons, List.nodup_cons] at hs
    rw [List.filter_cons, lookup_cons, List.length_cons]
    by_cases he : e.1 = slot
    · have hrest : (es.filter fun f => f.1 != slot) = es := by
        rw [List.filter_eq_self]
        intro f hf
        rw [bne_iff_ne]
        intro hslot
        exact hs.1 (List.mem_map.mpr ⟨f, hf, hslot.trans he.symm⟩)
      simp [he, hrest]
    · have hkeep : (e.1 != slot) = true := by simpa using he
      rw [if_pos hkeep, if_neg (Ne.symm he), List.length_cons, ← ih hs.2]
      omega

theorem size_put {s : Store} (hs : (s.entries.map (·.1)).Nodup) (hfree : s.get? s.next = none)
    (o : Content) : (s.put o).size = s.size+1 := by
  rw [← length_without hs s.next, hfree]
  rfl

theorem nodup_without {s : Store} (hs : (s.entries.map (·.1)).Nodup) (slot : Slot) :
    ((s.without slot).map (·.1)).Nodup :=
  hs.sublist (List.filter_sublist.map _)

end Store

open Store

def Repository.serve (x : Repository) : Request → Repository × Reply
  | .put o => ((x.put o).1, .issued (x.put o).2 o)
  | .evict slot => ((x.evict slot).1, .evicted slot (x.evict slot).2)
  | .get slot => (x, .fetched slot (x.store.get? slot))

structure Service where
  repository : Repository
  replies : List Reply

namespace Service

def start (selector : Selector) (responder : Component) : Service :=
  ⟨⟨.empty selector, .empty, responder, .zero⟩, []⟩

def step (s : Service) (q : Request) : Service :=
  ⟨(s.repository.serve q).1, s.replies ++ [(s.repository.serve q).2]⟩

/-- Requests to the store of a new repository. -/
def run (selector : Selector) (responder : Component) (qs : List Request) : Service :=
  qs.foldl step (start selector responder)

def issued (s : Service) : List (Slot × Content) := s.replies.filterMap Reply.issued?

def drops (s : Service) : Nat := s.replies.countP Reply.isDrop

/-- What holds of a store and its replies at any time. -/
structure Consistent (s : Service) : Prop where
  sound : s.repository.Sound s.issued
  keys : (s.repository.store.entries.map (·.1)).Nodup
  keeps : ∀ slot o, s.repository.store.get? slot = some o ↔ Keeps s.replies slot o
  gone : ∀ slot, .evicted slot true ∈ s.replies →
    s.repository.store.get? slot = none ∧ ∃ o, (slot, o) ∈ s.issued
  size : s.repository.store.size+s.drops = s.issued.length
  follows : ∀ before r after, s.replies = before ++ r :: after → r.Follows before

variable {s : Service}

theorem consistent_start (selector : Selector) (responder : Component) :
    (start selector responder).Consistent where
  sound := Repository.Sound.start selector responder
  keys := List.nodup_nil
  keeps slot o := by simp [start, Store.empty, get?, Keeps]
  gone slot h := by cases h
  size := rfl
  follows before r after h := by simp [start] at h

theorem issued_step (s : Service) (q : Request) :
    (s.step q).issued = s.issued ++ (s.repository.serve q).2.issued?.toList := by
  rw [issued, step, List.filterMap_append, issued]
  cases h : (s.repository.serve q).2.issued? <;> simp [h]

theorem drops_step (s : Service) (q : Request) :
    (s.step q).drops = s.drops+(s.repository.serve q).2.isDrop.toNat := by
  rw [drops, step, List.countP_append, drops, List.countP_singleton]
  cases (s.repository.serve q).2.isDrop <;> rfl

theorem Consistent.follows_step (hs : s.Consistent) {q : Request}
    (hq : (s.repository.serve q).2.Follows s.replies) :
    ∀ before r after, (s.step q).replies = before ++ r :: after → r.Follows before := by
  intro before r after h
  rcases split_append_singleton.mp h with ⟨rfl, rfl, _⟩ | ⟨rest, _, hrest⟩
  · exact hq
  · exact hs.follows before r rest hrest

theorem Consistent.next (hs : s.Consistent) (hsize : s.issued.length < UInt64.size) :
    s.repository.store.get? s.repository.store.next = none ∧
      ∀ o, .issued s.repository.store.next o ∉ s.replies := by
  have hnew (o : Content) : (s.repository.store.next, o) ∉ s.issued := hs.sound.next_notMem hsize o
  constructor
  · rw [Option.eq_none_iff_forall_ne_some]
    intro o hget
    exact hnew o (hs.sound.held _ o hget)
  · intro o ho
    exact hnew o (mem_issued_iff.mpr ho)

theorem Consistent.put (hs : s.Consistent) (hsize : s.issued.length < UInt64.size) (o : Content) :
    (s.step (.put o)).Consistent := by
  obtain ⟨hfree, hnew⟩ := hs.next hsize
  have hissued : (s.step (.put o)).issued = s.issued ++ [(s.repository.store.next, o)] :=
    s.issued_step (.put o)
  constructor
  case sound =>
    rw [hissued]
    exact hs.sound.put o
  case keys =>
    change ((s.repository.store.put o).entries.map (·.1)).Nodup
    rw [Store.put, List.map_cons, List.nodup_cons]
    exact ⟨by simp [without], nodup_without hs.keys _⟩
  case keeps =>
    intro slot p
    change (s.repository.store.put o).get? slot = some p ↔
      Keeps (s.replies ++ [.issued s.repository.store.next o]) slot p
    rw [get?_put, keeps_append_iff, ← hs.keeps]
    by_cases hslot : slot = s.repository.store.next
    · simp [hslot, hfree]
    · simp [hslot, Ne.symm hslot]
  case gone =>
    intro slot h
    have hold : .evicted slot true ∈ s.replies := by simpa [step, Repository.serve] using h
    obtain ⟨hnone, p, hp⟩ := hs.gone slot hold
    have hslot : slot ≠ s.repository.store.next := by
      rintro rfl
      exact hnew p (mem_issued_iff.mp hp)
    refine ⟨?_, p, ?_⟩
    · change (s.repository.store.put o).get? slot = none
      rw [get?_put, if_neg hslot, hnone]
    · rw [hissued]
      exact List.mem_append_left _ hp
  case size =>
    have hput : (s.step (.put o)).repository.store.size = _ := size_put hs.keys hfree o
    rw [hput, drops_step, hissued, List.length_append, ← hs.size]
    change s.repository.store.size+1+(s.drops+0) = _+1
    omega
  case follows => exact hs.follows_step hnew

theorem Consistent.evict (hs : s.Consistent) (slot : Slot) : (s.step (.evict slot)).Consistent := by
  have hissued : (s.step (.evict slot)).issued = s.issued :=
    (s.issued_step (.evict slot)).trans (List.append_nil _)
  constructor
  case sound =>
    rw [hissued]
    exact hs.sound.evict slot
  case keys => exact nodup_without hs.keys slot
  case keeps =>
    intro t p
    change (s.repository.store.evict slot).get? t = some p ↔
      Keeps (s.replies ++ [.evicted slot (s.repository.evict slot).2]) t p
    rw [get?_evict, keeps_append_iff, ← hs.keeps]
    by_cases ht : t = slot
    · simp [ht]
    · simp [ht, Ne.symm ht]
  case gone =>
    intro t h
    change _ ∈ s.replies ++ [.evicted slot (s.repository.store.get? slot).isSome] at h
    change (s.repository.store.evict slot).get? t = none ∧ _
    rw [get?_evict, hissued]
    rcases List.mem_append.mp h with hold | hnow
    · obtain ⟨hnone, hp⟩ := hs.gone t hold
      exact ⟨by simp [hnone], hp⟩
    · obtain ⟨rfl, hsome⟩ := Reply.evicted.inj (List.mem_singleton.mp hnow)
      obtain ⟨p, hp⟩ := Option.isSome_iff_exists.mp hsome.symm
      exact ⟨if_pos rfl, p, hs.sound.held t p hp⟩
  case size =>
    rw [drops_step, hissued, ← hs.size, ← length_without hs.keys slot]
    change (s.repository.store.without slot).length+
      (s.drops+(s.repository.store.get? slot).isSome.toNat) = _
    omega
  case follows =>
    apply hs.follows_step
    change (s.repository.store.get? slot).isSome = true ↔ _
    simp only [Option.isSome_iff_exists, hs.keeps]

theorem Consistent.get (hs : s.Consistent) (slot : Slot) : (s.step (.get slot)).Consistent := by
  have hissued : (s.step (.get slot)).issued = s.issued :=
    (s.issued_step (.get slot)).trans (List.append_nil _)
  constructor
  case sound =>
    rw [hissued]
    exact hs.sound
  case keys => exact hs.keys
  case keeps =>
    intro t p
    change s.repository.store.get? t = some p ↔
      Keeps (s.replies ++ [.fetched slot (s.repository.store.get? slot)]) t p
    rw [keeps_append_iff, ← hs.keeps]
    simp
  case gone =>
    intro t h
    rw [hissued]
    exact hs.gone t (by simpa [step, Repository.serve] using h)
  case size =>
    rw [drops_step, hissued]
    exact hs.size
  case follows => exact hs.follows_step (hs.keeps slot)

/-- As long as no slot has been handed out twice, the replies are consistent with the store. -/
theorem consistent_run (selector : Selector) (responder : Component) (qs : List Request)
    (hsize : (run selector responder qs).issued.length ≤ UInt64.size) :
    (run selector responder qs).Consistent := by
  revert hsize
  refine List.foldlRecOn (motive := fun s => s.issued.length ≤ UInt64.size → s.Consistent) qs step
    (fun _ => consistent_start selector responder) ?_
  intro s ih q _ hsize
  rw [issued_step, List.length_append] at hsize
  have hs : s.Consistent := ih (by omega)
  cases q with
  | put o => exact hs.put (by simp [Repository.serve, Reply.issued?] at hsize; omega) o
  | evict slot => exact hs.evict slot
  | get slot => exact hs.get slot

/-- After any requests to a new store, as long as no slot had to be handed out twice, every reply
follows from those before it: no slot is handed out again, and what is fetched or dropped at a slot
is what the slot was handed out for, unless it was evicted since. A slot that was never handed out
or that was evicted leads nowhere, and the size of the store is the number of contents that were put
and not dropped. -/
theorem handles_run (selector : Selector) (responder : Component) (qs : List Request)
    (hsize : (run selector responder qs).issued.length ≤ UInt64.size) :
    let s := run selector responder qs
    let store := s.repository.store
    (∀ before r after, s.replies = before ++ r :: after → r.Follows before) ∧
    (∀ slot o, store.get? slot = some o ↔ Keeps s.replies slot o) ∧
    (∀ slot, (∀ o, .issued slot o ∉ s.replies) ∨ .evicted slot true ∈ s.replies →
      store.get? slot = none) ∧
    (∀ slot, (s.repository.evict slot).2 = true ↔ ∃ o, store.get? slot = some o) ∧
    store.size+s.drops = s.issued.length := by
  intro s store
  have hs : s.Consistent := consistent_run selector responder qs hsize
  refine ⟨hs.follows, hs.keeps, ?_, ?_, hs.size⟩
  · rintro slot (hnever | hevicted)
    · rw [Option.eq_none_iff_forall_ne_some]
      intro o hget
      exact hnever o ((hs.keeps slot o).mp hget).mem
    · exact (hs.gone slot hevicted).1
  · intro slot
    exact Option.isSome_iff_exists

def twice : List Request :=
  [.put .blankAC, .evict (.nth 0), .evict (.nth 0), .put .blankAC]

/-- The first slot is stale, the second one leads to the content, and the second eviction dropped
nothing. -/
theorem handles_run_twice :
    let s := run .leftmost ⟨[110]⟩ twice
    s.issued.length ≤ UInt64.size ∧
    s.repository.store.get? (.nth 0) = none ∧
    s.repository.store.get? (.nth 1) = some .blankAC ∧
    ¬(∃ o, Keeps [.issued (.nth 0) .blankAC, .evicted (.nth 0) true] (.nth 0) o) ∧
    s.repository.store.size+1 = s.issued.length := by
  intro s
  have hsize : s.issued.length ≤ UInt64.size := by decide
  obtain ⟨hfollows, hkeeps, hnone, _, hlength⟩ := handles_run .leftmost ⟨[110]⟩ twice hsize
  have hsecond : Reply.Follows [.issued (.nth 0) .blankAC, .evicted (.nth 0) true]
      (.evicted (.nth 0) false) := hfollows _ _ [.issued (.nth 1) .blankAC] rfl
  refine ⟨hsize, hnone _ (Or.inr (by decide)), (hkeeps _ _).mpr ?_, ?_, hlength⟩
  · exact ⟨_, [], rfl, by simp⟩
  · intro hkept
    cases hsecond.mpr hkept

end Service

end NamedData
