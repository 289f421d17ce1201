import NamedData.Text.Hex

namespace NamedData.Percent

def sign : UInt8 := 0x25

def unreserved (b : UInt8) : Bool :=
  (0x30 ≤ b && b ≤ 0x39) || (0x41 ≤ b && b ≤ 0x5A) || (0x61 ≤ b && b ≤ 0x7A) ||
    b == 0x2D || b == 0x2E || b == 0x5F || b == 0x7E

def digit (n : UInt8) : UInt8 := if n < 10 then 0x30+n else 0x37+n

def encodeByte (b : UInt8) : Bytes :=
  if unreserved b then [b] else [sign, digit (b/16), digit (b%16)]

def encode (bs : Bytes) : Bytes := bs.flatMap encodeByte

/-- Reads escapes. The error is the position of the first percent sign without two digits after
it, where the first byte has position `pos`. -/
def decode (pos : Nat) : Bytes → Except Nat Bytes
  | [] => .ok []
  | b :: rest =>
    if b = sign then
      match rest with
      | hi :: lo :: tail =>
        match Hex.value? hi, Hex.value? lo with
        | some h, some l => (decode (pos+3) tail).map ((16*h+l) :: ·)
        | _, _ => .error pos
      | _ => .error pos
    else (decode (pos+1) rest).map (b :: ·)

end NamedData.Percent
