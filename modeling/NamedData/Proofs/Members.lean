import Mathlib.Data.List.Find
import Mathlib.Data.Nat.Bitwise
import NamedData.Exclusion.Bloom

namespace NamedData.Bloom

section Bits

variable {bits : Bytes} {p q : Nat}

theorem toNat_flag (p : Nat) : (flag p).toNat = 2^(p%8) := by
  have hpower : ∀ k < 8, ((1 : UInt8) <<< UInt8.ofNat k).toNat = 2^k := by decide
  exact hpower (p%8) (Nat.mod_lt _ (by decide))

theorem testBit_eq (bits : Bytes) (p : Nat) :
    testBit bits p = (bits.getD (p/8) 0).toNat.testBit (p%8) := by
  have hzero (b : UInt8) : (b != 0) = (b.toNat != 0) := by
    rw [Bool.eq_iff_iff, bne_iff_ne, bne_iff_ne, ne_eq, ne_eq, ← UInt8.toNat_inj]
    rfl
  rw [testBit, hzero, UInt8.toNat_and, toNat_flag, Nat.and_two_pow]
  cases (bits.getD (p/8) 0).toNat.testBit (p%8) <;> simp

theorem length_setBit (bits : Bytes) (p : Nat) : (setBit bits p).length = bits.length :=
  List.length_modify _ _ _

theorem getD_setBit (bits : Bytes) (p k : Nat) :
    (setBit bits p).getD k 0 =
      if p/8 = k ∧ k < bits.length then bits.getD k 0 ||| flag p else bits.getD k 0 := by
  rw [setBit, List.getD_eq_getElem?_getD, List.getD_eq_getElem?_getD, List.getElem?_modify]
  by_cases hbyte : p/8 = k
  · by_cases hk : k < bits.length <;> simp [hbyte, hk]
  · simp [hbyte]

/-- Setting a bit sets it and leaves the others. There is nothing to set beyond the end. -/
theorem testBit_setBit (bits : Bytes) (p q : Nat) :
    testBit (setBit bits p) q = (testBit bits q || decide (p = q ∧ q < 8*bits.length)) := by
  rw [testBit_eq, testBit_eq, getD_setBit]
  split
  next hbyte =>
    have hbit : p%8 = q%8 ↔ p = q ∧ q < 8*bits.length := by omega
    simp [UInt8.toNat_or, toNat_flag, Nat.testBit_two_pow, hbit]
  next hbyte =>
    have hne : ¬(p = q ∧ q < 8*bits.length) := by omega
    simp [hne]

theorem length_foldl_setBit (ps : List Nat) (bits : Bytes) :
    (ps.foldl setBit bits).length = bits.length := by
  induction ps generalizing bits with
  | nil => rfl
  | cons p ps ih => rw [List.foldl_cons, ih, length_setBit]

theorem testBit_foldl (ps : List Nat) (bits : Bytes) (q : Nat) :
    testBit (ps.foldl setBit bits) q = true ↔
      testBit bits q = true ∨ q ∈ ps ∧ q < 8*bits.length := by
  induction ps generalizing bits with
  | nil => simp
  | cons p ps ih =>
    rw [List.foldl_cons, ih, testBit_setBit, length_setBit, Bool.or_eq_true, decide_eq_true_eq,
      List.mem_cons, or_and_right, or_assoc, eq_comm (a := p)]

theorem testBit_foldl_setBit {ps : List Nat} (hps : ∀ p ∈ ps, p < 8*bits.length) (q : Nat) :
    testBit (ps.foldl setBit bits) q = true ↔ testBit bits q = true ∨ q ∈ ps := by
  rw [testBit_foldl, and_iff_left_of_imp (hps q)]

theorem ext_testBit {as bs : Bytes} (hlength : as.length = bs.length)
    (h : ∀ p, testBit as p = true ↔ testBit bs p = true) : as = bs := by
  apply List.ext_getElem hlength
  intro k ha hb
  rw [← UInt8.toNat_inj]
  apply Nat.eq_of_testBit_eq
  intro j
  by_cases hj : j < 8
  · have hbit := Bool.eq_iff_iff.mpr (h (8*k+j))
    have hbyte : (8*k+j)/8 = k := by omega
    have hrest : (8*k+j)%8 = j := by omega
    rw [testBit_eq, testBit_eq, hbyte, hrest] at hbit
    simpa [List.getD_eq_getElem?_getD, ha, hb] using hbit
  · have hhigh (b : UInt8) : b.toNat.testBit j = false :=
      Nat.testBit_lt_two_pow (b.toNat_lt.trans_le (Nat.pow_le_pow_right (by decide) (by omega)))
    rw [hhigh, hhigh]

end Bits

theorem lgSize_bounds (expected : Nat) : 6 ≤ lgSize expected ∧ lgSize expected ≤ 16 := by
  rw [lgSize]
  cases hfound : (List.range' 6 10).find? fun lg => 10*max expected 1 ≤ 1 <<< lg with
  | none => simp
  | some lg =>
    have hmem := List.mem_range'_1.mp (List.mem_of_find?_eq_some hfound)
    rw [Option.getD_some]
    omega

theorem toNat_mask {lg : UInt8} (hlg : lg < 32) : (mask lg).toNat = 2^lg.toNat-1 := by
  have hpower : ∀ k < 32, (mask (UInt8.ofNat k)).toNat = 2^k-1 := by decide
  have hlow := hpower lg.toNat (UInt8.lt_iff_toNat_lt.mp hlg)
  rwa [UInt8.ofNat_toNat] at hlow

theorem spread_le (h : UInt64) (m : UInt32) (n : Nat) : ∀ p ∈ spread h m n, p ≤ m.toNat := by
  intro p hp
  obtain ⟨i, _, rfl⟩ := List.mem_map.mp hp
  rw [UInt32.toNat_and]
  exact Nat.and_le_right

def marks (f : Bloom) (c : Component) : List Nat :=
  spread (Fnv.hash (f.seed.toList ++ c.bytes)) (mask f.lgBits) f.hashes.toNat

def marked (f : Bloom) (ps : List Nat) : Bloom := { f with bits := ps.foldl setBit f.bits }

section Asking

variable {f : Bloom} {c : Component}

theorem positions_of_lt (hlg : f.lgBits < 32) : f.positions c = .ok (f.marks c) := if_pos hlg

theorem insert_of_lt (hlg : f.lgBits < 32) : f.insert c = .ok (f.marked (f.marks c)) := by
  rw [insert, positions_of_lt hlg]
  rfl

theorem contains_of_lt (hlg : f.lgBits < 32) :
    f.contains c = .ok ((f.marks c).all (testBit f.bits)) := by
  rw [contains, positions_of_lt hlg]
  rfl

end Asking

/-- The mask can be formed, and there is a bit for every position that it leaves. -/
structure Fits (f : Bloom) : Prop where
  addressed : f.lgBits < 32
  covered : 2^f.lgBits.toNat ≤ 8*f.bits.length

def insertAll (f : Bloom) (cs : List Component) : Except Violation Bloom := cs.foldlM insert f

theorem withCapacity_fits (expected : Nat) (seed : Vector UInt8 4) :
    (withCapacity expected seed).Fits := by
  obtain ⟨hleast, hgreatest⟩ := lgSize_bounds expected
  have hlg : (UInt8.ofNat (lgSize expected)).toNat = lgSize expected := by
    rw [UInt8.toNat_ofNat']
    exact Nat.mod_eq_of_lt (by omega)
  constructor
  · rw [withCapacity, UInt8.lt_iff_toNat_lt, hlg]
    exact hgreatest.trans_lt (by decide)
  · have hsize : 2^lgSize expected = 8*2^(lgSize expected-3) := by
      rw [show (8 : Nat) = 2^3 from rfl, ← Nat.pow_add]
      congr 1
      omega
    rw [withCapacity, hlg, List.length_replicate, Nat.one_shiftLeft, hsize]

theorem testBit_withCapacity (expected : Nat) (seed : Vector UInt8 4) (p : Nat) :
    testBit (withCapacity expected seed).bits p = false := by
  have hzero : (withCapacity expected seed).bits.getD (p/8) 0 = 0 := by
    rw [withCapacity, List.getD_eq_getElem?_getD, List.getElem?_replicate]
    split <;> rfl
  rw [testBit_eq, hzero]
  exact Nat.zero_testBit _

section Fitting

variable {f : Bloom} {c : Component} (hf : f.Fits)
include hf

theorem Fits.marks_lt : ∀ p ∈ f.marks c, p < 8*f.bits.length := by
  intro p hp
  have hle := spread_le _ _ _ p hp
  have hpos : 0 < 2^f.lgBits.toNat := Nat.two_pow_pos _
  have hcovered := hf.covered
  rw [toNat_mask hf.addressed] at hle
  omega

theorem Fits.contains_eq_true_iff :
    f.contains c = .ok true ↔ ∀ p ∈ f.marks c, testBit f.bits p = true := by
  rw [contains_of_lt hf.addressed, Except.ok.injEq, List.all_eq_true]

theorem Fits.marked (ps : List Nat) : (f.marked ps).Fits where
  addressed := hf.addressed
  covered := by
    rw [Bloom.marked, length_foldl_setBit]
    exact hf.covered

/-- Insertions set the positions of all components, whatever their order. -/
theorem Fits.insertAll_eq (cs : List Component) :
    f.insertAll cs = .ok (f.marked (cs.flatMap f.marks)) := by
  induction cs generalizing f with
  | nil => rfl
  | cons c cs ih =>
    have hrest : (f.marked (f.marks c)).insertAll cs = _ := ih (hf.marked _)
    rw [insertAll, List.foldlM_cons, insert_of_lt hf.addressed]
    refine hrest.trans ?_
    rw [List.flatMap_cons, Bloom.marked, Bloom.marked, Bloom.marked, List.foldl_append]
    rfl

theorem Fits.flatMap_marks_lt (cs : List Component) :
    ∀ p ∈ cs.flatMap f.marks, p < 8*f.bits.length := by
  intro p hp
  obtain ⟨c, _, hc⟩ := List.mem_flatMap.mp hp
  exact hf.marks_lt p hc

/-- A filter contains what it contained before, and what shares each of its other positions with
some component that was inserted. -/
theorem Fits.contains_marked_iff (cs : List Component) :
    (f.marked (cs.flatMap f.marks)).contains c = .ok true ↔
      ∀ p ∈ f.marks c, testBit f.bits p = true ∨ ∃ d ∈ cs, p ∈ f.marks d := by
  rw [(hf.marked _).contains_eq_true_iff]
  apply forall₂_congr
  intro p _
  rw [Bloom.marked, testBit_foldl_setBit (hf.flatMap_marks_lt cs), List.mem_flatMap]

theorem Fits.marked_congr {cs ds : List Component} (h : ∀ c, c ∈ ds ↔ c ∈ cs) :
    f.marked (ds.flatMap f.marks) = f.marked (cs.flatMap f.marks) := by
  have hbits : (ds.flatMap f.marks).foldl setBit f.bits =
      (cs.flatMap f.marks).foldl setBit f.bits := by
    apply ext_testBit
    · rw [length_foldl_setBit, length_foldl_setBit]
    · intro p
      rw [testBit_foldl_setBit (hf.flatMap_marks_lt ds), testBit_foldl_setBit (hf.flatMap_marks_lt cs)]
      simp only [List.mem_flatMap, h]
  rw [Bloom.marked, Bloom.marked, hbits]

end Fitting

/-- Whatever is inserted into a filter that was made for a capacity is contained from then on, and
nothing else but what has each position in common with it. The filter depends on the set of what was
inserted alone, and has a bit at every position of every component. -/
theorem insertAll_contains (capacity : UInt64) (seed : Vector UInt8 4) (cs : List Component) :
    let empty := withCapacity capacity.toNat seed
    ∃ f, empty.insertAll cs = .ok f ∧
      (∀ c ∈ cs, f.contains c = .ok true) ∧
      (∀ c, f.contains c = .ok true ↔ ∀ p ∈ f.marks c, ∃ d ∈ cs, p ∈ f.marks d) ∧
      (∀ ds, ∃ g, f.insertAll ds = .ok g ∧ ∀ c, f.contains c = .ok true → g.contains c = .ok true) ∧
      (∀ ds, (∀ c, c ∈ ds ↔ c ∈ cs) → empty.insertAll ds = .ok f) ∧
      f.bits.length = empty.bits.length ∧
      ∀ c, f.positions c = .ok (f.marks c) ∧ ∀ p ∈ f.marks c, p/8 < empty.bits.length := by
  intro empty
  have hempty : empty.Fits := withCapacity_fits capacity.toNat seed
  let f := empty.marked (cs.flatMap empty.marks)
  have hf : f.Fits := hempty.marked _
  have hlength : f.bits.length = empty.bits.length := length_foldl_setBit _ _
  have hcontains (c : Component) :
      f.contains c = .ok true ↔ ∀ p ∈ f.marks c, ∃ d ∈ cs, p ∈ f.marks d := by
    refine (hempty.contains_marked_iff cs).trans (forall₂_congr fun p _ => ?_)
    rw [testBit_withCapacity, or_iff_right Bool.false_ne_true]
    rfl
  refine ⟨f, hempty.insertAll_eq cs, ?_, hcontains, ?_, ?_, hlength, ?_⟩
  · intro c hc
    exact (hcontains c).mpr fun p hp => ⟨c, hc, hp⟩
  · intro ds
    refine ⟨_, hf.insertAll_eq ds, fun c hc => ?_⟩
    rw [hf.contains_marked_iff]
    exact fun p hp => Or.inl (hf.contains_eq_true_iff.mp hc p hp)
  · intro ds hds
    rw [hempty.insertAll_eq, hempty.marked_congr hds]
  · intro c
    refine ⟨positions_of_lt hf.addressed, fun p hp => ?_⟩
    have hlt := hf.marks_lt p hp
    omega

/-- A filter for no member at all takes two components, in either order and one of them twice. -/
theorem insertAll_contains_twice :
    let empty := withCapacity 0 (Vector.replicate 4 0)
    ∃ f, empty.insertAll [⟨[97]⟩, ⟨[98]⟩, ⟨[97]⟩] = .ok f ∧
      empty.insertAll [⟨[98]⟩, ⟨[97]⟩] = .ok f ∧ f.contains ⟨[98]⟩ = .ok true := by
  intro empty
  obtain ⟨f, hf, hmembers, _, _, hset, _⟩ :=
    insertAll_contains 0 (Vector.replicate 4 0) [⟨[97]⟩, ⟨[98]⟩, ⟨[97]⟩]
  refine ⟨f, hf, hset _ ?_, hmembers _ (by simp)⟩
  intro c
  simp only [List.mem_cons, List.not_mem_nil, or_false]
  tauto

end NamedData.Bloom
