import NamedData.Bytes

namespace NamedData.Hex

def lower : List Char := "0123456789abcdef".toList

def upper : List Char := "0123456789ABCDEF".toList

def pair (digits : List Char) (b : UInt8) : List Char :=
  [digits.getD (b.toNat/16) '0', digits.getD (b.toNat%16) '0']

def encode (bs : Bytes) : String := String.ofList (bs.flatMap (pair lower))

/-- The value of a digit of either case, given by its ASCII code. -/
def value? (c : UInt8) : Option UInt8 :=
  if 0x30 ≤ c ∧ c ≤ 0x39 then some (c-0x30)
  else if 0x41 ≤ c ∧ c ≤ 0x46 then some (c-0x37)
  else if 0x61 ≤ c ∧ c ≤ 0x66 then some (c-0x57)
  else none

def ofNat (n : Nat) : String := String.ofList (Nat.toDigits 16 n)

end NamedData.Hex
