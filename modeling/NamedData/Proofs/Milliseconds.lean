import Mathlib.Data.Nat.GCD.Basic
import NamedData.Proofs.Versions

namespace NamedData.Timestamp

/-- The first count of milliseconds that has more ticks than a word can hold. -/
def millisLimit : Nat := 1000*(1 <<< 52)

theorem ticksPerSecond_eq : ticksPerSecond = 4096 := rfl

theorem size_eq : UInt64.size = 4096*(1 <<< 52) := rfl

section Conversions

variable {m : UInt64}

theorem ofMillis_fits_iff (m : UInt64) :
    m.toNat*ticksPerSecond/1000 < UInt64.size ↔ m.toNat < millisLimit := by
  rw [Nat.div_lt_iff_lt_mul (by decide), ticksPerSecond_eq, size_eq, millisLimit]
  omega

theorem ticks_ofMillis (m : UInt64) :
    (ofMillis m).ticks.toNat = min (m.toNat*ticksPerSecond/1000) (UInt64.size-1) := by
  have hsize : 0 < UInt64.size := by decide
  rw [ofMillis]
  exact UInt64.toNat_ofNat_of_lt' (by omega)

theorem ticks_ofMillis_of_lt (hm : m.toNat < millisLimit) :
    (ofMillis m).ticks.toNat = m.toNat*ticksPerSecond/1000 := by
  have hfits := (ofMillis_fits_iff m).mpr hm
  rw [ticks_ofMillis]
  omega

theorem ticks_ofMillis_eq_last_iff :
    (ofMillis m).ticks.toNat = UInt64.size-1 ↔ millisLimit ≤ m.toNat := by
  rw [ticks_ofMillis, millisLimit, ticksPerSecond_eq, size_eq]
  omega

theorem toNat_toMillis (t : Timestamp) :
    t.toMillis.toNat = t.ticks.toNat*1000/ticksPerSecond := by
  have hword := t.ticks.toNat_lt_size
  rw [toMillis, ticksPerSecond_eq]
  exact UInt64.toNat_ofNat_of_lt' (by omega)

theorem toMillis_lt_limit (t : Timestamp) : t.toMillis.toNat < millisLimit := by
  have hword := t.ticks.toNat_lt_size
  rw [size_eq] at hword
  rw [toNat_toMillis, millisLimit, ticksPerSecond_eq]
  omega

/-- What the first division leaves over is less than 125, so that the second one ends in the
millisecond before unless nothing was left over. -/
theorem millis_of_parts {n ticks rest : Nat} (hparts : 125*ticks+rest = n*512) (hrest : rest < 125) :
    ticks*1000/4096 = if rest = 0 then n else n-1 := by
  split
  next hwhole => omega
  next hpart => omega

/-- There are 512 ticks to 125 milliseconds, and the two numbers have no common divisor. -/
theorem millis_of_ticks (n : Nat) : n*4096/1000*1000/4096 = if 125 ∣ n then n else n-1 := by
  have hticks : n*4096/1000 = n*512/125 := by omega
  have hparts : 125*(n*512/125)+n*512%125 = n*512 := Nat.div_add_mod (n*512) 125
  have hrest : n*512%125 < 125 := Nat.mod_lt _ (by decide)
  have hwhole : n*512%125 = 0 ↔ 125 ∣ n := by
    rw [← Nat.dvd_iff_mod_eq_zero, Nat.Coprime.dvd_mul_right (by decide)]
  rw [hticks, millis_of_parts hparts hrest]
  simp only [hwhole]

theorem toMillis_ofMillis (hm : m.toNat < millisLimit) :
    (ofMillis m).toMillis = if 125 ∣ m.toNat then m else m-1 := by
  have hback : (ofMillis m).toMillis.toNat = if 125 ∣ m.toNat then m.toNat else m.toNat-1 := by
    rw [toNat_toMillis, ticks_ofMillis_of_lt hm]
    exact millis_of_ticks m.toNat
  rw [← UInt64.toNat_inj, hback]
  split
  · rfl
  next hpart =>
    have hpos : 1 ≤ m := by
      rw [UInt64.le_iff_toNat_le, UInt64.toNat_one]
      omega
    rw [UInt64.toNat_sub_of_le m 1 hpos, UInt64.toNat_one]

theorem ofMillis_toMillis_le (t : Timestamp) : ofMillis t.toMillis ≤ t := by
  rw [le_iff, ticks_ofMillis_of_lt t.toMillis_lt_limit, toNat_toMillis, ticksPerSecond_eq]
  omega

theorem toNat_toMillis_succ (t : Timestamp) : (t.toMillis+1).toNat = t.toMillis.toNat+1 := by
  have hlimit := t.toMillis_lt_limit
  rw [millisLimit] at hlimit
  rw [UInt64.toNat_add, UInt64.toNat_one]
  exact Nat.mod_eq_of_lt (by omega)

theorem le_ofMillis_succ (t : Timestamp) : t ≤ ofMillis (t.toMillis+1) := by
  have hword := t.ticks.toNat_lt_size
  rw [le_iff, ticks_ofMillis, toNat_toMillis_succ, toNat_toMillis, ticksPerSecond_eq]
  omega

theorem ofMillis_mono {m k : UInt64} (h : m ≤ k) : ofMillis m ≤ ofMillis k := by
  rw [UInt64.le_iff_toNat_le] at h
  rw [le_iff, ticks_ofMillis, ticks_ofMillis]
  have hticks : m.toNat*ticksPerSecond/1000 ≤ k.toNat*ticksPerSecond/1000 :=
    Nat.div_le_div_right (Nat.mul_le_mul_right _ h)
  omega

theorem toMillis_mono {s t : Timestamp} (h : s ≤ t) : s.toMillis ≤ t.toMillis := by
  rw [le_iff] at h
  rw [UInt64.le_iff_toNat_le, toNat_toMillis, toNat_toMillis]
  exact Nat.div_le_div_right (Nat.mul_le_mul_right _ h)

end Conversions

theorem product_lt (n : UInt64) : n.toNat*ticksPerSecond < 1 <<< 128 ∧ n.toNat*1000 < 1 <<< 128 := by
  have hword := n.toNat_lt_size
  have hsize : (1 <<< 128 : Nat) = UInt64.size*UInt64.size := rfl
  have hwide : n.toNat*4096 ≤ n.toNat*UInt64.size := Nat.mul_le_mul_left _ (by decide)
  have hboth : n.toNat*UInt64.size < UInt64.size*UInt64.size :=
    Nat.mul_lt_mul_of_pos_right hword (by decide)
  rw [ticksPerSecond_eq, hsize]
  omega

/-- Below the limit milliseconds become the ticks that have begun by then, and come back as they are
or, between two ticks, one less; from the limit on they become the last timestamp. Nothing is cut
off at the end of a word, and neither conversion turns an order round. -/
theorem millis_conversion :
    (∀ m : UInt64, m.toNat < millisLimit →
      (ofMillis m).ticks.toNat = m.toNat*ticksPerSecond/1000 ∧
      (ofMillis m).toMillis = if 125 ∣ m.toNat then m else m-1) ∧
    (∀ m : UInt64, m.toNat*ticksPerSecond < 1 <<< 128 ∧
      ((ofMillis m).ticks.toNat = UInt64.size-1 ↔ millisLimit ≤ m.toNat)) ∧
    (∀ t : Timestamp, t.ticks.toNat*1000 < 1 <<< 128 ∧
      t.ticks.toNat*1000/ticksPerSecond < UInt64.size ∧
      t.toMillis.toNat = t.ticks.toNat*1000/ticksPerSecond ∧
      (t.toMillis+1).toNat = t.toMillis.toNat+1 ∧
      ofMillis t.toMillis ≤ t ∧ t ≤ ofMillis (t.toMillis+1)) ∧
    (∀ m k : UInt64, m ≤ k → ofMillis m ≤ ofMillis k) ∧
    ∀ s t : Timestamp, s ≤ t → s.toMillis ≤ t.toMillis := by
  refine ⟨?_, ?_, ?_, fun m k => ofMillis_mono, fun s t => toMillis_mono⟩
  · intro m hm
    exact ⟨ticks_ofMillis_of_lt hm, toMillis_ofMillis hm⟩
  · intro m
    exact ⟨(product_lt m).1, ticks_ofMillis_eq_last_iff⟩
  · intro t
    have hfits : t.ticks.toNat*1000/ticksPerSecond < UInt64.size := by
      rw [← toNat_toMillis]
      exact t.toMillis.toNat_lt_size
    exact ⟨(product_lt t.ticks).2, hfits, t.toNat_toMillis, t.toNat_toMillis_succ,
      t.ofMillis_toMillis_le, t.le_ofMillis_succ⟩

/-- The last count below the limit loses a millisecond, and the next one becomes the last
timestamp. -/
theorem millis_conversion_atLimit :
    let before : UInt64 := 4503599627370495999
    let limit : UInt64 := 4503599627370496000
    (before.toNat < millisLimit ∧ (ofMillis before).toMillis = before-1) ∧
    (before ≤ limit ∧ ofMillis before ≤ ofMillis limit) ∧
    (ofMillis before).toMillis ≤ (ofMillis limit).toMillis ∧
    (ofMillis limit).ticks.toNat = UInt64.size-1 := by
  intro before limit
  obtain ⟨hback, hlast, _, hmono, hmonoBack⟩ := millis_conversion
  have hlimit : before.toNat < millisLimit := by decide
  have hle : before ≤ limit := by decide
  have hticks : ofMillis before ≤ ofMillis limit := hmono _ _ hle
  refine ⟨⟨hlimit, ?_⟩, ⟨hle, hticks⟩, hmonoBack _ _ hticks, (hlast limit).2.mpr (by decide)⟩
  rw [(hback before hlimit).2]
  decide

end NamedData.Timestamp
