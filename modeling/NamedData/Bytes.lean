namespace NamedData

abbrev Bytes := List UInt8

namespace Bytes

/-- The big-endian numeral of `n` in `width` bytes; higher digits are dropped. -/
def ofNat : Nat → Nat → Bytes
  | 0, _ => []
  | width+1, n => UInt8.ofNat (n >>> (8*width)) :: ofNat width n

def toNat (bs : Bytes) : Nat := bs.foldl (fun n b => 256*n+b.toNat) 0

def ofWord (n : UInt64) : Bytes := ofNat 8 n.toNat

/-- The text whose characters have these bytes as code points. -/
def toText (bs : Bytes) : String := String.ofList (bs.map fun b => Char.ofNat b.toNat)

def ofText (s : String) : Bytes := s.toUTF8.data.toList

@[simp] theorem length_ofNat (width n : Nat) : (ofNat width n).length = width := by
  induction width with
  | zero => rfl
  | succ width ih => simp [ofNat, ih]

end Bytes

end NamedData
