import Mathlib.Data.Nat.Find
import NamedData.Text.Percent

namespace NamedData

section Results

variable {α β ε : Type} {f : α → β} {x : Except ε α}

theorem map_eq_ok_iff {b : β} :
    x.map f = .ok b ↔ ∃ a, b = f a ∧ x = .ok a := by
  cases x with
  | error e => simp [Except.map]
  | ok a => simp [Except.map, eq_comm]

theorem map_eq_error_iff {e : ε} :
    x.map f = .error e ↔ x = .error e := by
  cases x <;> simp [Except.map]

end Results

namespace Hex

/-- The byte is the ASCII code of a digit with this value. Letters have either case. -/
def Denotes (c v : UInt8) : Prop :=
  v < 10 ∧ c = 0x30+v ∨ 10 ≤ v ∧ v < 16 ∧ (c = 0x37+v ∨ c = 0x57+v)

def IsDigit (c : UInt8) : Prop := ∃ v, Denotes c v

theorem value?_eq_some_iff {c v : UInt8} : value? c = some v ↔ Denotes c v := by
  grind [value?, Denotes]

end Hex

namespace Percent

def Followed (s : Bytes) : Prop :=
  ∃ hi lo tail, s = hi :: lo :: tail ∧ Hex.IsDigit hi ∧ Hex.IsDigit lo

/-- The percent sign at a position has no two digits after it. -/
def StrayAt (s : Bytes) (i : Nat) : Prop := ∃ after, s.drop i = sign :: after ∧ ¬Followed after

def Escaped (s : Bytes) : Prop := ∀ i, ¬StrayAt s i

def FirstStray (s : Bytes) (i : Nat) : Prop := StrayAt s i ∧ ∀ j < i, ¬StrayAt s j

/-- A text stands for some bytes: a percent sign and two digits for the byte with this value, and
every other byte for itself. -/
inductive Denotes : Bytes → Bytes → Prop
  | nil : Denotes [] []
  | plain {b : UInt8} {s bs : Bytes} : b ≠ sign → Denotes s bs → Denotes (b :: s) (b :: bs)
  | escape {hi lo h l : UInt8} {s bs : Bytes} : Hex.Denotes hi h → Hex.Denotes lo l →
      Denotes s bs → Denotes (sign :: hi :: lo :: s) ((16*h+l) :: bs)

section Reading

variable {b hi lo h l : UInt8} {s bs : Bytes} {i pos : Nat}

theorem not_strayAt_nil : ¬StrayAt [] i := by
  rintro ⟨after, hdrop, _⟩
  simp at hdrop

theorem strayAt_cons_succ : StrayAt (b :: s) (i+1) ↔ StrayAt s i := Iff.rfl

theorem strayAt_cons_zero : StrayAt (b :: s) 0 ↔ b = sign ∧ ¬Followed s := by
  rw [StrayAt, List.drop_zero]
  constructor
  · rintro ⟨after, hcons, hafter⟩
    obtain ⟨rfl, rfl⟩ := List.cons.inj hcons
    exact ⟨rfl, hafter⟩
  · rintro ⟨rfl, hs⟩
    exact ⟨s, rfl, hs⟩

theorem ne_sign_of_isDigit (hb : Hex.IsDigit b) : b ≠ sign := by
  obtain ⟨v, hv⟩ := hb
  grind [Hex.Denotes, sign]

theorem firstStray_cons (hb : ¬StrayAt (b :: s) 0) :
    FirstStray (b :: s) i ↔ ∃ j, i = j+1 ∧ FirstStray s j := by
  constructor
  · rintro ⟨hi, hfirst⟩
    cases i with
    | zero => exact absurd hi hb
    | succ i =>
      refine ⟨i, rfl, strayAt_cons_succ.mp hi, ?_⟩
      intro j hj h
      exact hfirst (j+1) (by omega) (strayAt_cons_succ.mpr h)
  · rintro ⟨i, rfl, hi, hfirst⟩
    refine ⟨strayAt_cons_succ.mpr hi, fun j hj => ?_⟩
    cases j with
    | zero => exact hb
    | succ j => exact fun h => hfirst j (by omega) (strayAt_cons_succ.mp h)

theorem firstStray_plain (hb : b ≠ sign) :
    FirstStray (b :: s) i ↔ ∃ j, i = j+1 ∧ FirstStray s j :=
  firstStray_cons fun h => hb (strayAt_cons_zero.mp h).1

theorem firstStray_escape (hhi : Hex.IsDigit hi) (hlo : Hex.IsDigit lo) :
    FirstStray (sign :: hi :: lo :: s) i ↔ ∃ j, i = j+3 ∧ FirstStray s j := by
  have hfront : ¬StrayAt (sign :: hi :: lo :: s) 0 := fun h =>
    (strayAt_cons_zero.mp h).2 ⟨hi, lo, s, rfl, hhi, hlo⟩
  simp only [firstStray_cons hfront, firstStray_plain (ne_sign_of_isDigit hhi),
    firstStray_plain (ne_sign_of_isDigit hlo)]
  constructor
  · rintro ⟨_, rfl, _, rfl, j, rfl, hj⟩
    exact ⟨j, rfl, hj⟩
  · rintro ⟨j, rfl, hj⟩
    exact ⟨j+2, rfl, j+1, rfl, j, rfl, hj⟩

theorem firstStray_stray (hs : ¬Followed s) : FirstStray (sign :: s) i ↔ i = 0 := by
  have hfront : StrayAt (sign :: s) 0 := strayAt_cons_zero.mpr ⟨rfl, hs⟩
  constructor
  · rintro ⟨_, hfirst⟩
    by_contra hi
    exact hfirst 0 (by omega) hfront
  · rintro rfl
    exact ⟨hfront, fun j hj => absurd hj (by omega)⟩

theorem decode_plain (hb : b ≠ sign) :
    decode pos (b :: s) = (decode (pos+1) s).map (b :: ·) := by
  rw [decode.eq_def]
  simp [hb]

theorem decode_escape (hhi : Hex.Denotes hi h) (hlo : Hex.Denotes lo l) :
    decode pos (sign :: hi :: lo :: s) = (decode (pos+3) s).map ((16*h+l) :: ·) := by
  rw [← Hex.value?_eq_some_iff] at hhi hlo
  rw [decode.eq_def]
  simp [hhi, hlo]

theorem decode_stray (hs : ¬Followed s) : decode pos (sign :: s) = .error pos := by
  rw [decode.eq_def]
  simp only [if_true]
  split
  next hi lo tail =>
    split
    next h l hhi hlo =>
      exact absurd ⟨hi, lo, tail, rfl, ⟨h, Hex.value?_eq_some_iff.mp hhi⟩,
        ⟨l, Hex.value?_eq_some_iff.mp hlo⟩⟩ hs
    · rfl
  · rfl

/-- A text is empty, or it goes on after a byte that stands for itself or after an escape, or it
begins with a stray sign. -/
@[elab_as_elim]
theorem front_induction {motive : Bytes → Prop} (nil : motive [])
    (plain : ∀ b s, b ≠ sign → motive s → motive (b :: s))
    (escape : ∀ hi lo h l s, Hex.Denotes hi h → Hex.Denotes lo l → motive s →
      motive (sign :: hi :: lo :: s))
    (stray : ∀ s, ¬Followed s → motive (sign :: s)) (s : Bytes) : motive s := by
  -- An escape takes three bytes at once, so the induction is on the length.
  induction hn : s.length using Nat.strong_induction_on generalizing s with
  | h n ih =>
    cases s with
    | nil => exact nil
    | cons b s =>
      by_cases hb : b = sign
      · subst hb
        by_cases hs : Followed s
        · obtain ⟨hi, lo, tail, rfl, ⟨h, hhi⟩, ⟨l, hlo⟩⟩ := hs
          exact escape hi lo h l tail hhi hlo (ih _ (by simp at hn; omega) tail rfl)
        · exact stray s hs
      · exact plain b s hb (ih _ (by simp at hn; omega) s rfl)

theorem denotes_plain (hb : b ≠ sign) :
    Denotes (b :: s) bs ↔ ∃ bs', bs = b :: bs' ∧ Denotes s bs' := by
  constructor
  · intro hd
    cases hd with
    | plain _ hs => exact ⟨_, rfl, hs⟩
    | escape => exact absurd rfl hb
  · rintro ⟨bs', rfl, hs⟩
    exact .plain hb hs

theorem denotes_escape (hhi : Hex.Denotes hi h) (hlo : Hex.Denotes lo l) :
    Denotes (sign :: hi :: lo :: s) bs ↔ ∃ bs', bs = (16*h+l) :: bs' ∧ Denotes s bs' := by
  constructor
  · intro hd
    cases hd with
    | plain hb => exact absurd rfl hb
    | escape hhi' hlo' hs =>
      rw [← Hex.value?_eq_some_iff] at hhi hlo hhi' hlo'
      rw [Option.some.inj (hhi.symm.trans hhi'), Option.some.inj (hlo.symm.trans hlo')]
      exact ⟨_, rfl, hs⟩
  · rintro ⟨bs', rfl, hs⟩
    exact .escape hhi hlo hs

theorem Denotes.ne_nil (hd : Denotes s bs) (hs : s ≠ []) : bs ≠ [] := by
  cases hd with
  | nil => exact absurd rfl hs
  | plain _ _ => exact List.cons_ne_nil _ _
  | escape _ _ _ => exact List.cons_ne_nil _ _

theorem not_denotes_stray (hs : ¬Followed s) : ¬Denotes (sign :: s) bs := by
  intro hd
  cases hd with
  | plain hb => exact hb rfl
  | escape hhi hlo => exact hs ⟨_, _, _, rfl, ⟨_, hhi⟩, ⟨_, hlo⟩⟩

/-- Reading yields what a text stands for. -/
theorem decode_eq_ok_iff : decode pos s = .ok bs ↔ Denotes s bs := by
  induction s using front_induction generalizing pos bs with
  | nil =>
    constructor
    · intro hd
      rw [← Except.ok.inj hd]
      exact .nil
    · rintro ⟨⟩
      rfl
  | plain b s hb ih => simp only [decode_plain hb, denotes_plain hb, map_eq_ok_iff, ih]
  | escape hi lo h l s hhi hlo ih =>
    simp only [decode_escape hhi hlo, denotes_escape hhi hlo, map_eq_ok_iff, ih]
  | stray s hs => simp [decode_stray hs, not_denotes_stray hs]

theorem Denotes.unique {bs' : Bytes} (hd : Denotes s bs) (hd' : Denotes s bs') : bs = bs' := by
  have hread : decode 0 s = .ok bs := decode_eq_ok_iff.mpr hd
  have hread' : decode 0 s = .ok bs' := decode_eq_ok_iff.mpr hd'
  exact Except.ok.inj (hread.symm.trans hread')

theorem exists_shifted {P : Nat → Prop} {k p : Nat} :
    (∃ i, (∃ j, i = j+k ∧ P j) ∧ p = pos+i) ↔ ∃ j, P j ∧ p = pos+k+j := by
  constructor
  · rintro ⟨_, ⟨j, rfl, hj⟩, rfl⟩
    exact ⟨j, hj, by omega⟩
  · rintro ⟨j, hj, rfl⟩
    exact ⟨j+k, ⟨j, rfl, hj⟩, by omega⟩

/-- Reading stops at the first stray sign. -/
theorem decode_eq_error_iff {p : Nat} :
    decode pos s = .error p ↔ ∃ i, FirstStray s i ∧ p = pos+i := by
  induction s using front_induction generalizing pos with
  | nil =>
    have hno (i : Nat) : ¬FirstStray [] i := fun h => not_strayAt_nil h.1
    simp [decode, hno]
  | plain b s hb ih =>
    simp only [decode_plain hb, firstStray_plain hb, map_eq_error_iff, ih, exists_shifted]
  | escape hi lo h l s hhi hlo ih =>
    simp only [decode_escape hhi hlo, firstStray_escape ⟨h, hhi⟩ ⟨l, hlo⟩, map_eq_error_iff, ih,
      exists_shifted]
  | stray s hs => simp [decode_stray hs, firstStray_stray hs, eq_comm]

theorem exists_firstStray (hs : ¬Escaped s) : ∃ i, FirstStray s i := by
  classical
  have hex : ∃ i, StrayAt s i := by simpa [Escaped] using hs
  exact ⟨Nat.find hex, Nat.find_spec hex, fun j hj => Nat.find_min hex hj⟩

theorem FirstStray.not_escaped (hi : FirstStray s i) : ¬Escaped s := fun hs => hs i hi.1

theorem escaped_iff : Escaped s ↔ ∃ bs, Denotes s bs := by
  constructor
  · intro hs
    cases hd : decode 0 s with
    | ok bs => exact ⟨bs, decode_eq_ok_iff.mp hd⟩
    | error p =>
      obtain ⟨i, hi, _⟩ := decode_eq_error_iff.mp hd
      exact absurd hs hi.not_escaped
  · rintro ⟨bs, hbs⟩
    by_contra hs
    obtain ⟨i, hi⟩ := exists_firstStray hs
    have hok : decode 0 s = .ok bs := decode_eq_ok_iff.mpr hbs
    rw [decode_eq_error_iff.mpr ⟨i, hi, rfl⟩] at hok
    cases hok

end Reading

section Writing

variable {b c : UInt8} {bs : Bytes}

theorem denotes_digit {v : UInt8} (hv : v < 16) : Hex.Denotes (digit v) v := by
  grind [digit, Hex.Denotes]

theorem halves (b : UInt8) : b/16 < 16 ∧ b%16 < 16 ∧ 16*(b/16)+b%16 = b := by
  have hb : b.toNat < 256 := b.toNat_lt
  have hsixteen : (16 : UInt8).toNat = 16 := rfl
  rw [UInt8.lt_iff_toNat_lt, UInt8.lt_iff_toNat_lt, ← UInt8.toNat_inj, UInt8.toNat_add,
    UInt8.toNat_mul, UInt8.toNat_div, UInt8.toNat_mod, hsixteen]
  omega

theorem ne_sign_of_unreserved (hb : unreserved b = true) : b ≠ sign := by
  rintro rfl
  cases hb

/-- A written text stands for the bytes that were written. -/
theorem denotes_encode (bs : Bytes) : Denotes (encode bs) bs := by
  induction bs with
  | nil => exact .nil
  | cons b bs ih =>
    rw [encode, List.flatMap_cons, encodeByte]
    split
    next hb => exact .plain (ne_sign_of_unreserved hb) ih
    next hb =>
      obtain ⟨hhigh, hlow, hsum⟩ := halves b
      have h := Denotes.escape (denotes_digit hhigh) (denotes_digit hlow) ih
      rwa [hsum] at h

theorem mem_encode (hc : c ∈ encode bs) : c = sign ∨ unreserved c = true := by
  have hdigit (v : UInt8) (hv : v < 16) : unreserved (digit v) = true := by
    grind [digit, unreserved]
  obtain ⟨b, _, hc⟩ := List.mem_flatMap.mp hc
  rw [encodeByte] at hc
  split at hc
  next hb =>
    rw [List.mem_singleton.mp hc]
    exact Or.inr hb
  next hb =>
    obtain ⟨hhigh, hlow, _⟩ := halves b
    simp only [List.mem_cons, List.not_mem_nil, or_false] at hc
    rcases hc with rfl | rfl | rfl
    · exact Or.inl rfl
    · exact Or.inr (hdigit _ hhigh)
    · exact Or.inr (hdigit _ hlow)

end Writing

end Percent

end NamedData
