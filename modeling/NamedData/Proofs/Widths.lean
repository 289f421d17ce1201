import NamedData.Proofs.Versions

namespace NamedData

namespace Bytes

section Fronts

variable {bs cs tail : Bytes}

theorem ofNat_append (width more n : Nat) :
    ofNat (width+more) n = ofNat width (n >>> (8*more)) ++ ofNat more n := by
  induction width with
  | zero => rw [Nat.zero_add, ofNat, List.nil_append]
  | succ width ih =>
    have hplace : 8*more+8*width = 8*(width+more) := by omega
    rw [Nat.succ_add, ofNat, ofNat, ih, ← Nat.shiftRight_add, hplace, List.cons_append]

/-- A longer byte string comes before one that its front comes before. -/
theorem append_lt_iff (h : bs.length = cs.length) : bs ++ tail < cs ↔ bs < cs := by
  induction bs generalizing cs with
  | nil =>
    obtain rfl : cs = [] := List.eq_nil_of_length_eq_zero h.symm
    simp
  | cons b bs ih =>
    cases cs with
    | nil => cases h
    | cons c cs =>
      rw [List.cons_append, List.cons_lt_cons_iff, List.cons_lt_cons_iff, ih (by simpa using h)]

theorem lt_append_iff (h : bs.length = cs.length) (htail : tail ≠ []) :
    bs < cs ++ tail ↔ ¬cs < bs := by
  induction bs generalizing cs with
  | nil =>
    obtain rfl : cs = [] := List.eq_nil_of_length_eq_zero h.symm
    cases tail with
    | nil => exact absurd rfl htail
    | cons b tail => simp
  | cons b bs ih =>
    cases cs with
    | nil => cases h
    | cons c cs =>
      rw [List.cons_append, List.cons_lt_cons_iff, List.cons_lt_cons_iff, ih (by simpa using h)]
      have horder : (b < c ↔ b.toNat < c.toNat) ∧ (c < b ↔ c.toNat < b.toNat) ∧
          (b = c ↔ b.toNat = c.toNat) ∧ (c = b ↔ c.toNat = b.toNat) :=
        ⟨UInt8.lt_iff_toNat_lt, UInt8.lt_iff_toNat_lt, UInt8.toNat_inj.symm, UInt8.toNat_inj.symm⟩
      by_cases hcs : cs < bs
      · simp only [horder, hcs, not_true, and_true, and_false, or_false]
        omega
      · simp only [horder, hcs, not_false_eq_true, and_true, and_false, or_false]
        omega

end Fronts

end Bytes

namespace Timestamp

/-- The number that the first six of eight bytes stand for. -/
def front (t : Timestamp) : Nat := t.ticks.toNat >>> (8*2)

/-- The versions of two tick counts have one width, or the shorter one is not above the front of the
longer one. -/
def Aligned (a b : Timestamp) : Prop :=
  (a.Short ↔ b.Short) ∨ a.Short ∧ a.ticks.toNat ≤ b.front ∨ b.Short ∧ b.ticks.toNat ≤ a.front

theorem lt_of_short {a b : Timestamp} (ha : a.Short) (hb : ¬b.Short) : a < b := by
  rw [Short] at ha hb
  rw [lt_iff]
  omega

theorem not_lt_of_short {a b : Timestamp} (ha : a.Short) (hb : ¬b.Short) : ¬b < a := by
  have hlt := lt_of_short ha hb
  rw [lt_iff] at hlt ⊢
  omega

theorem front_lt (t : Timestamp) : t.front < 1 <<< (8*6) := by
  have ht : t.ticks.toNat < 2^64 := t.ticks.toNat_lt
  rw [front, Nat.shiftRight_eq_div_pow, Nat.one_shiftLeft]
  omega

end Timestamp

namespace Component

section Widths

variable {a b : Timestamp}

theorem version_of_long {t : Timestamp} (ht : ¬t.Short) :
    (version t).bytes = versionMarker :: Bytes.ofNat 8 t.ticks.toNat := by
  rw [version, if_neg (show ¬t.ticks.toNat < 1 <<< 48 from ht)]

theorem version_lt_long (ha : ¬a.Short) (hb : ¬b.Short) : version a < version b ↔ a < b := by
  have hfits (t : Timestamp) : t.ticks.toNat < 1 <<< (8*8) := t.ticks.toNat_lt
  rw [version_lt_iff_tail (version_of_long ha) (version_of_long hb), Bytes.ofNat_lt_ofNat,
    Nat.mod_eq_of_lt (hfits a), Nat.mod_eq_of_lt (hfits b), Timestamp.lt_iff]

theorem version_short_lt_long (ha : a.Short) (hb : ¬b.Short) :
    version a < version b ↔ a.ticks.toNat ≤ b.front := by
  rw [version_lt_iff_tail (version_of_short ha) (version_of_long hb), Bytes.ofNat_append 6 2,
    Bytes.lt_append_iff (by simp) (by simp [Bytes.ofNat]), Bytes.ofNat_lt_ofNat,
    ← Timestamp.front, Nat.mod_eq_of_lt b.front_lt, Nat.mod_eq_of_lt ha, not_lt]

theorem version_long_lt_short (ha : ¬a.Short) (hb : b.Short) :
    version a < version b ↔ a.front < b.ticks.toNat := by
  rw [version_lt_iff_tail (version_of_long ha) (version_of_short hb), Bytes.ofNat_append 6 2,
    Bytes.append_lt_iff (by simp), Bytes.ofNat_lt_ofNat, ← Timestamp.front,
    Nat.mod_eq_of_lt a.front_lt, Nat.mod_eq_of_lt hb]

theorem version_lt_iff_aligned : (version a < version b ↔ a < b) ↔ a.Aligned b := by
  by_cases ha : a.Short <;> by_cases hb : b.Short
  · simp [Timestamp.Aligned, ha, hb, version_lt_version ha hb]
  · simp [Timestamp.Aligned, ha, hb, version_short_lt_long ha hb, Timestamp.lt_of_short ha hb]
  · have hearlier : ¬a < b := Timestamp.not_lt_of_short hb ha
    simp [Timestamp.Aligned, ha, hb, version_long_lt_short ha hb, hearlier]
  · simp [Timestamp.Aligned, ha, hb, version_lt_long ha hb]

/-- Byte order of two versions is time order, and excluding up to the one tells whether the other is
later, if and only if the two are aligned. -/
theorem version_order_iff (a b : Timestamp) :
    ((version a < version b ↔ a < b) ↔ a.Aligned b) ∧
    ((Exclusion.anyUpTo (version a)).excludes (version b) = .ok (decide (b ≤ a)) ↔ a.Aligned b) := by
  refine ⟨version_lt_iff_aligned, ?_⟩
  have hle : b ≤ a ↔ ¬a < b := by
    rw [Timestamp.le_iff, Timestamp.lt_iff, not_lt]
  rw [Exclusion.excludes_anyUpTo, Except.ok.injEq, ← version_lt_iff_aligned, ← decide_not,
    decide_eq_decide, hle, not_iff_not]

theorem not_version_lt_nextWidth :
    ¬(version ⟨0xFFFFFFFFFFFF⟩ < version ⟨0x1000000000000⟩ ↔
      (⟨0xFFFFFFFFFFFF⟩ : Timestamp) < ⟨0x1000000000000⟩) := by
  decide

end Widths

end Component

end NamedData
