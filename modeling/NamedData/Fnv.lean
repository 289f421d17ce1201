import NamedData.Bytes

namespace NamedData.Fnv

/-- One step for each byte: exclusive or, then a product that wraps. -/
def hash (bs : Bytes) : UInt64 :=
  bs.foldl (fun h b => (h ^^^ b.toUInt64)*0x00000100000001b3) 0xcbf29ce484222325

end NamedData.Fnv
