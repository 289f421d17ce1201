import NamedData.Proofs.Widths

namespace NamedData

namespace Bytes

theorem toNat_append_singleton (bs : Bytes) (b : UInt8) :
    toNat (bs ++ [b]) = 256*toNat bs+b.toNat := by
  rw [toNat, toNat, List.foldl_append]
  rfl

/-- A numeral stands for what its digits hold of the number. -/
theorem toNat_ofNat (width n : Nat) : toNat (ofNat width n) = n%(1 <<< (8*width)) := by
  induction width generalizing n with
  | zero =>
    have hone : 1 <<< (8*0) = 1 := rfl
    rw [hone, Nat.mod_one]
    rfl
  | succ width ih =>
    have hlast : ofNat (width+1) n = ofNat width (n >>> 8) ++ [UInt8.ofNat n] := ofNat_append width 1 n
    have hsize : 1 <<< (8*(width+1)) = 256*(1 <<< (8*width)) := by
      rw [Nat.one_shiftLeft, Nat.one_shiftLeft, Nat.mul_succ, Nat.pow_add, Nat.mul_comm]
    rw [hlast, toNat_append_singleton, ih, UInt8.toNat_ofNat', hsize, Nat.mod_mul,
      Nat.shiftRight_eq_div_pow, Nat.add_comm]

theorem toNat_ofNat_of_lt {width n : Nat} (hn : n < 1 <<< (8*width)) :
    toNat (ofNat width n) = n := by
  rw [toNat_ofNat, Nat.mod_eq_of_lt hn]

theorem toNat_dropWhile (bs : Bytes) : toNat (bs.dropWhile (· == 0)) = toNat bs := by
  induction bs with
  | nil => rfl
  | cons b bs ih =>
    rw [List.dropWhile_cons]
    split
    next hzero =>
      have hb : b = 0 := eq_of_beq hzero
      rw [ih, hb]
      rfl
    next => rfl

end Bytes

namespace Component

section Markers

variable {marker b : UInt8} {digits : Bytes} {c : Component}

theorem number?_of_marker (hc : c.bytes = marker :: digits) (hlength : digits.length ≤ 8) :
    c.number? marker = some (UInt64.ofNat (Bytes.toNat digits)) := by
  simp [number?, hc, hlength]

theorem number?_of_ne (hc : c.bytes = b :: digits) (hb : b ≠ marker) : c.number? marker = none := by
  simp [number?, hc, hb]

theorem isEnumeration_of_ne (hc : c.bytes = b :: digits) (hb : b ≠ 0xC1) :
    c.isEnumeration = false := by
  rw [isEnumeration, beq_eq_false_iff_ne]
  intro henum
  rw [henum] at hc
  exact hb (List.cons.inj hc).1.symm

theorem exists_version_digits (t : Timestamp) :
    ∃ digits, (version t).bytes = versionMarker :: digits ∧ digits.length ≤ 8 ∧
      Bytes.toNat digits = t.ticks.toNat := by
  by_cases ht : t.Short
  · exact ⟨_, version_of_short ht, by simp, Bytes.toNat_ofNat_of_lt ht⟩
  · exact ⟨_, version_of_long ht, by simp, Bytes.toNat_ofNat_of_lt t.ticks.toNat_lt⟩

theorem exists_segment_digits (n : UInt64) :
    ∃ digits, (segment n).bytes = segmentMarker :: digits ∧ digits.length ≤ 8 ∧
      Bytes.toNat digits = n.toNat := by
  refine ⟨(Bytes.ofWord n).dropWhile (· == 0), rfl, ?_, ?_⟩
  · have hword : (Bytes.ofWord n).length = 8 := Bytes.length_ofNat 8 n.toNat
    rw [← hword]
    exact (List.dropWhile_sublist _).length_le
  · rw [Bytes.toNat_dropWhile]
    exact Bytes.toNat_ofNat_of_lt n.toNat_lt

theorem version?_version (t : Timestamp) : (version t).version? = some t := by
  obtain ⟨digits, hbytes, hlength, hvalue⟩ := exists_version_digits t
  rw [version?, number?_of_marker hbytes hlength, hvalue, UInt64.ofNat_toNat]
  rfl

theorem segment?_segment (n : UInt64) : (segment n).segment? = some n := by
  obtain ⟨digits, hbytes, hlength, hvalue⟩ := exists_segment_digits n
  rw [segment?, number?_of_marker hbytes hlength, hvalue, UInt64.ofNat_toNat]

theorem segment?_version (t : Timestamp) : (version t).segment? = none := by
  obtain ⟨digits, hbytes, _⟩ := exists_version_digits t
  exact number?_of_ne hbytes (by decide)

theorem version?_segment (n : UInt64) : (segment n).version? = none := by
  obtain ⟨digits, hbytes, _⟩ := exists_segment_digits n
  rw [version?, number?_of_ne hbytes (by decide)]
  rfl

theorem version_inj {s t : Timestamp} : version s = version t ↔ s = t := by
  refine ⟨fun h => ?_, congrArg version⟩
  have hread : (version s).version? = some t := h ▸ version?_version t
  exact Option.some.inj ((version?_version s).symm.trans hread)

theorem segment_inj {n m : UInt64} : segment n = segment m ↔ n = m := by
  refine ⟨fun h => ?_, congrArg segment⟩
  have hread : (segment n).segment? = some m := h ▸ segment?_segment m
  exact Option.some.inj ((segment?_segment n).symm.trans hread)

end Markers

end Component

section Names

theorem components_responseName (n : Name) (responder : Component) (version : Timestamp) :
    (responseName n responder version).components =
      n.components ++ [responder, .version version, .segment 0] := by
  simp [responseName, Name.push]

theorem responseName_inj {n m : Name} {r s : Component} {v w : Timestamp} :
    responseName n r v = responseName m s w ↔ n = m ∧ r = s ∧ v = w := by
  constructor
  · intro h
    have hcomponents := congrArg Name.components h
    rw [components_responseName, components_responseName] at hcomponents
    obtain ⟨hname, hrest⟩ := List.append_inj' hcomponents rfl
    obtain ⟨hresponder, hrest⟩ := List.cons.inj hrest
    exact ⟨Name.eq_of_components hname, hresponder,
      Component.version_inj.mp (List.cons.inj hrest).1⟩
  · intro h
    obtain ⟨hname, hresponder, hversion⟩ := h
    rw [hname, hresponder, hversion]

end Names

/-- Versions and segments are read back, each as what it is and as nothing else, so that different
numbers are written differently. A name that a listing is published under ends in its version and in
the first segment, and no two listings with different names, responders or versions share one. -/
theorem Component.markers_roundTrip :
    (∀ t : Timestamp, (version t).version? = some t ∧ (version t).segment? = none ∧
      (version t).isEnumeration = false) ∧
    (∀ n : UInt64, (segment n).segment? = some n ∧ (segment n).version? = none ∧
      (segment n).isEnumeration = false) ∧
    (∀ s t : Timestamp, version s = version t ↔ s = t) ∧
    (∀ n m : UInt64, segment n = segment m ↔ n = m) ∧
    (∀ n r v, ∃ c d, (responseName n r v).components = n.components ++ [r, c, d] ∧
      c.version? = some v ∧ d.segment? = some 0) ∧
    ∀ n m r s v w, responseName n r v = responseName m s w ↔ n = m ∧ r = s ∧ v = w := by
  refine ⟨?_, ?_, fun s t => version_inj, fun n m => segment_inj, ?_,
    fun n m r s v w => responseName_inj⟩
  · intro t
    obtain ⟨digits, hbytes, _⟩ := exists_version_digits t
    exact ⟨version?_version t, segment?_version t, isEnumeration_of_ne hbytes (by decide)⟩
  · intro n
    obtain ⟨digits, hbytes, _⟩ := exists_segment_digits n
    exact ⟨segment?_segment n, version?_segment n, isEnumeration_of_ne hbytes (by decide)⟩
  · intro n r v
    exact ⟨.version v, .segment 0, components_responseName n r v, version?_version v,
      segment?_segment 0⟩

end NamedData
