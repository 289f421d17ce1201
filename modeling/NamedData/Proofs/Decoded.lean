import NamedData.Proofs.Members
import NamedData.Serial.Forms

namespace NamedData

open Serial

namespace Serial

theorem Value.byte?_integer (b : UInt8) : byte? (.integer b.toNat) = some b := by
  have hb : (b.toNat : Int) < 256 := by
    have hlt := b.toNat_lt
    omega
  simp [byte?, below?, hb]

theorem Value.list?_toValue (bs : Bytes) : list? byte? bs.toValue = some bs := by
  rw [Bytes.toValue, list?]
  induction bs with
  | nil => rfl
  | cons b bs ih => simp [byte?_integer, ih]

theorem Value.block?_toValue {n : Nat} (s : Vector UInt8 n) :
    block? n (Bytes.toValue s.toList) = some s := by
  rw [block?, list?_toValue, Option.bind_some, dif_pos s.length_toList]
  exact congrArg some (Vector.toArray_inj.mp (Array.toArray_toList))

namespace Reading

variable {α β : Type}

theorem bind_eq {x : Reading α} {next : α → Reading β} {fields rest : Fields} {a : α}
    (hx : x fields = some (a, rest)) : (x >>= next) fields = next a rest := by
  have hbind : (x >>= next) fields = (x fields).bind fun p => next p.1 p.2 := rfl
  rw [hbind, hx]
  rfl

/-- A named field is read wherever it stands, and the others stay to be read. -/
theorem required_named {name : String} {read : Value → Option α} {fields : List (String × Value)}
    {v : Value} {a : α} (hfield : fields.lookup name = some v) (hread : read v = some a) :
    required name read (.named fields) = some (a, .named fields) := by
  have hfound : field name (.named fields) = some (some v, .named fields) := by
    rw [← hfield]
    rfl
  rw [required, bind_eq hfound]
  change ((read v).bind fun a => some (a, Fields.named fields)) = _
  rw [hread]
  rfl

end Reading

end Serial

namespace Bloom

theorem ofValue?_toValue (d : Dialect) (f : Bloom) : ofValue? d f.toValue = some f := by
  rw [ofValue?, toValue, Value.record?,
    Reading.bind_eq (Reading.required_named rfl (Value.byte?_integer f.lgBits)),
    Reading.bind_eq (Reading.required_named rfl (Value.byte?_integer f.hashes)),
    Reading.bind_eq (Reading.required_named rfl (Value.block?_toValue f.seed)),
    Reading.bind_eq (Reading.required_named rfl (Value.list?_toValue f.bits))]
  rfl

/-- A component can be put into the filter, and the filter can be asked for it. -/
def Serves (f : Bloom) (c : Component) : Prop :=
  (∃ g, f.insert c = .ok g) ∧ ∃ found, f.contains c = .ok found

section Outcomes

variable {f : Bloom} {c : Component}

theorem positions_of_not_lt (hlg : ¬f.lgBits < 32) : f.positions c = .error .maskOverflow :=
  if_neg hlg

theorem insert_eq (f : Bloom) (c : Component) :
    f.insert c = if f.lgBits < 32 then .ok (f.marked (f.marks c)) else .error .maskOverflow := by
  split
  next hlg => exact insert_of_lt hlg
  next hlg =>
    rw [insert, positions_of_not_lt hlg]
    rfl

theorem contains_eq (f : Bloom) (c : Component) :
    f.contains c =
      if f.lgBits < 32 then .ok ((f.marks c).all (testBit f.bits)) else .error .maskOverflow := by
  split
  next hlg => exact contains_of_lt hlg
  next hlg =>
    rw [contains, positions_of_not_lt hlg]
    rfl

theorem serves_iff : f.Serves c ↔ f.lgBits < 32 := by
  rw [Serves, insert_eq, contains_eq]
  by_cases hlg : f.lgBits < 32 <;> simp [hlg]

theorem testBit_iff (bits : Bytes) (p : Nat) :
    testBit bits p = true ↔ ∃ b, bits[p/8]? = some b ∧ b.toNat.testBit (p%8) = true := by
  rw [testBit_eq, List.getD_eq_getElem?_getD]
  cases bits[p/8]? with
  | none => simp
  | some b => simp

end Outcomes

/-- Every filter can come from outside. It serves exactly if fewer than 32 bits are masked; then
a position beyond its bits is left out when a component is put in, and is found not set when the
filter is asked. -/
theorem serves_decoded_iff (f : Bloom) (c : Component) :
    (∀ d, ofValue? d f.toValue = some f) ∧
    (f.Serves c ↔ f.lgBits < 32) ∧
    (f.insert c = if f.lgBits < 32 then .ok (f.marked (f.marks c)) else .error .maskOverflow) ∧
    (f.contains c =
      if f.lgBits < 32 then .ok ((f.marks c).all (testBit f.bits)) else .error .maskOverflow) ∧
    (f.marked (f.marks c)).bits.length = f.bits.length ∧
    (∀ p, testBit (f.marked (f.marks c)).bits p = true ↔
      testBit f.bits p = true ∨ p ∈ f.marks c ∧ p < 8*f.bits.length) ∧
    ∀ p, testBit f.bits p = true ↔ ∃ b, f.bits[p/8]? = some b ∧ b.toNat.testBit (p%8) = true :=
  ⟨fun d => ofValue?_toValue d f, serves_iff, insert_eq f c, contains_eq f c,
    length_foldl_setBit _ _, testBit_foldl _ _, testBit_iff f.bits⟩

def wide : Bloom := ⟨32, 7, Vector.replicate 4 0, []⟩

/-- Reading does not refuse a mask that is too wide. -/
theorem not_serves_wide : ofValue? .json wide.toValue = some wide ∧ ¬wide.Serves ⟨[97]⟩ := by
  refine ⟨ofValue?_toValue .json wide, ?_⟩
  rw [serves_iff]
  decide

end Bloom

end NamedData
