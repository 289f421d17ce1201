import NamedData.Proofs.Matching
import NamedData.Proofs.Turns

namespace NamedData

namespace Bytes

theorem lt_of_digits {m q r q' r' : Nat} (hr : r < m) (hr' : r' < m) :
    r+m*q < r'+m*q' ↔ q < q' ∨ q = q' ∧ r < r' := by
  rcases Nat.lt_trichotomy q q' with h | h | h
  · have hm : m*(q+1) ≤ m*q' := Nat.mul_le_mul_left m h
    rw [Nat.mul_succ] at hm
    omega
  · subst h
    omega
  · have hm : m*(q'+1) ≤ m*q := Nat.mul_le_mul_left m h
    rw [Nat.mul_succ] at hm
    omega

/-- Numerals of one width are ordered as what they stand for. -/
theorem ofNat_lt_ofNat (width a b : Nat) :
    ofNat width a < ofNat width b ↔ a%(1 <<< (8*width)) < b%(1 <<< (8*width)) := by
  induction width with
  | zero => simp [ofNat, Nat.mod_one]
  | succ width ih =>
    have hsize : 1 <<< (8*(width+1)) = (1 <<< (8*width))*256 := by
      rw [Nat.one_shiftLeft, Nat.one_shiftLeft, Nat.mul_succ, Nat.pow_add]
    have hpos : 0 < 1 <<< (8*width) := by
      rw [Nat.one_shiftLeft]
      exact Nat.two_pow_pos _
    have hdigit (n : Nat) : (UInt8.ofNat (n >>> (8*width))).toNat = n/(1 <<< (8*width))%256 := by
      rw [UInt8.toNat_ofNat', Nat.shiftRight_eq_div_pow, Nat.one_shiftLeft]
    rw [hsize, Nat.mod_mul, Nat.mod_mul, lt_of_digits (Nat.mod_lt _ hpos) (Nat.mod_lt _ hpos),
      ofNat, ofNat, List.cons_lt_cons_iff, ih, UInt8.lt_iff_toNat_lt, ← UInt8.toNat_inj, hdigit,
      hdigit]

end Bytes

namespace Timestamp

def Short (t : Timestamp) : Prop := t.ticks.toNat < 1 <<< 48

instance (t : Timestamp) : Decidable t.Short :=
  inferInstanceAs (Decidable (t.ticks.toNat < 1 <<< 48))

theorem lt_iff {a b : Timestamp} : a < b ↔ a.ticks.toNat < b.ticks.toNat := UInt64.lt_iff_toNat_lt

theorem le_iff {a b : Timestamp} : a ≤ b ↔ a.ticks.toNat ≤ b.ticks.toNat := UInt64.le_iff_toNat_le

end Timestamp

namespace Component

theorem version_of_short {t : Timestamp} (ht : t.Short) :
    (version t).bytes = versionMarker :: Bytes.ofNat 6 t.ticks.toNat := by
  rw [version, if_pos (show t.ticks.toNat < 1 <<< 48 from ht)]

theorem version_lt_iff_tail {a b : Timestamp} {bs cs : Bytes}
    (ha : (version a).bytes = versionMarker :: bs)
    (hb : (version b).bytes = versionMarker :: cs) : version a < version b ↔ bs < cs := by
  change (version a).bytes < (version b).bytes ↔ bs < cs
  rw [ha, hb, List.cons_lt_cons_iff]
  simp

theorem version_lt_version {a b : Timestamp} (ha : a.Short) (hb : b.Short) :
    version a < version b ↔ a < b := by
  rw [version_lt_iff_tail (version_of_short ha) (version_of_short hb), Bytes.ofNat_lt_ofNat,
    Nat.mod_eq_of_lt ha, Nat.mod_eq_of_lt hb, Timestamp.lt_iff]

end Component

namespace Exclusion

theorem excludes_anyUpTo (b c : Component) : (anyUpTo b).excludes c = .ok (!decide (b < c)) := by
  rw [excludes, anyUpTo, excludesFrom, List.nil_append, excludesFrom]
  · cases h : compare c b with
    | lt =>
      have hlt : ¬b < c := (Component.compare_eq_lt.mp h).le.not_gt
      simp [anyCovers, Element.covers, hlt]
    | eq =>
      have heq : ¬b < c := by simp [Component.compare_eq_eq.mp h]
      simp [heq]
    | gt => simp [excludesFrom, anyCovers, Component.compare_eq_gt.mp h]
  · intro d hd
    cases hd

end Exclusion

namespace Name

/-- The first component that is a command tells where the name of the node ends. -/
theorem before?_command {n : Name} {e : Component} (hn : e ∉ n.components) (m : Name) :
    (n.push e ++ m).before? e = some n := by
  have hat : (n.components ++ [e] ++ m.components).idxOf? e = some n.components.length := by
    rw [List.append_assoc, List.idxOf?, List.findIdx?_append]
    have hnone : n.components.findIdx? (· == e) = none := by
      rw [List.findIdx?_eq_none_iff]
      intro d hd
      rw [beq_eq_false_iff_ne]
      exact fun h => hn (h ▸ hd)
    simp [hnone, List.findIdx?_cons]
  rw [before?, idxOf?, components_append, push, hat]
  simp [take]

end Name

/-- Asks a responder for a listing of a node that is newer than the version at hand. -/
def Interest.newerThan (n : Name) (responder : Component) (held : Timestamp) : Interest :=
  { ofName ((n.push .enumeration).push responder) with exclusion := some (.anyUpTo (.version held)) }

namespace Index

variable {R : Type} {x : Index R}

/-- The name of a listing is that of the node, the command, and three more components. -/
theorem responseName_eq (n : Name) (responder : Component) (version : Timestamp) :
    NamedData.responseName (n.push .enumeration) responder version =
      n.push .enumeration ++ ⟨[responder, .version version, .segment 0]⟩ := by
  apply Name.eq_of_components
  simp [NamedData.responseName, Name.push]

theorem wants_newerThan (n : Name) (responder : Component) (held : Timestamp) (m : Node R) :
    wants (.newerThan n responder held) responder n m =
      .ok (decide (Component.version held < .version m.state.lastModified)) := by
  have hname : NamedData.responseName (n.push .enumeration) responder m.state.lastModified =
      (Interest.newerThan n responder held).name ++
        ⟨[.version m.state.lastModified, .segment 0]⟩ := by
    rw [responseName_eq]
    apply Name.eq_of_components
    simp [Interest.newerThan, Interest.ofName, Name.push]
  rw [wants, hname, Interest.matchesName_append]
  simp [Interest.newerThan, Interest.ofName, Interest.withinMax, Interest.withinMin,
    Interest.excludesHead, Interest.excludes, Exclusion.excludes_anyUpTo, Interest.accepts,
    Except.map]

theorem isSome_node?_of_mem {n : Name} {c : Component} (hc : c ∈ x.childrenAt n) :
    (x.node? n n.length).isSome := by
  rw [node?_length]
  cases hm : x.root.descend? n.components with
  | some m => rfl
  | none => simp [childrenAt, Node.branches, hm] at hc

/-- What becomes of a request for the listing of a node: it is answered if the node has a child and
the request wants the listing at hand, and else it waits. -/
theorem enumerate_of_wants (hx : x.root.component = none) {i : Interest} {responder : Component}
    {n : Name} {m : Node R} {wanted : Prop} [Decidable wanted]
    (hi : i.name.before? .enumeration = some n)
    (hm : x.node? n n.length = some m) (hw : wants i responder n m = .ok (decide wanted)) :
    x.enumerate i responder =
      if x.childrenAt n ≠ [] ∧ wanted then
        ⟨x.setPending n false, [.answered], .ok (some (x.listingAt n))⟩
      else ⟨x.setPending n true, [.deferred], .ok none⟩ := by
  have hchildren : x.childrenAt n = m.children.components := by
    rw [node?_length] at hm
    simp [childrenAt, Node.branches, hm]
  simp only [enumerate, hi, lookupNode_eq hx, hm, hw, hchildren, listingAt_of_node? hm]
  cases m.children.components <;> by_cases hwanted : wanted <;> simp [hwanted]

theorem wants_with (i : Interest) (prefers : Option Selector) (publisher : Option Publisher)
    (responder : Component) (n : Name) (m : Node R) :
    wants { i with selector := prefers, publisher := publisher } responder n m =
      wants i responder n m := by
  have haccepts (p : Option Publisher) (j : Interest) (hj : j.publisher = p) :
      j.accepts p = true := by simp [Interest.accepts, hj]
  simp only [wants, Interest.matchesName, haccepts _ _ rfl]
  rfl

theorem stateAt_of_node? {n : Name} {m : Node R} (hm : x.node? n n.length = some m) :
    x.stateAt n = m.state := by
  rw [node?_length] at hm
  simp [stateAt, Node.state?, hm]

/-- A request for what is newer is answered if there is a child and the node was modified later. -/
theorem enumerate_newerThan (hx : x.root.component = none) {n : Name}
    (hn : .enumeration ∉ n.components) (hnode : (x.node? n n.length).isSome)
    (responder : Component) (prefers : Option Selector) (publisher : Option Publisher)
    {held : Timestamp} (hheld : held.Short) (htime : (x.stateAt n).lastModified.Short) :
    x.enumerate { Interest.newerThan n responder held with
        selector := prefers, publisher := publisher } responder =
      if x.childrenAt n ≠ [] ∧ held < (x.stateAt n).lastModified then
        ⟨x.setPending n false, [.answered], .ok (some (x.listingAt n))⟩
      else ⟨x.setPending n true, [.deferred], .ok none⟩ := by
  obtain ⟨m, hm⟩ := Option.isSome_iff_exists.mp hnode
  rw [stateAt_of_node? hm] at htime ⊢
  refine enumerate_of_wants hx (Name.before?_command hn ⟨[responder]⟩) hm ?_
  rw [wants_with, wants_newerThan, decide_eq_decide.mpr (Component.version_lt_version hheld htime)]

end Index

end NamedData
