import NamedData.Component.Marker
import NamedData.Name.Basic
import NamedData.Sha256
import NamedData.Text.Hex

namespace NamedData

/-- A publisher, known by the hash of its public key. -/
structure Publisher where
  digest : Digest
  deriving DecidableEq

namespace Publisher

def ofKey (key : Bytes) : Publisher := ⟨Digest.ofMessage key⟩

def toHex (p : Publisher) : String := Hex.encode p.digest.toList

def describe (p : Publisher) : String := "PublisherDigest(" ++ p.toHex ++ ")"

end Publisher

inductive Kind
  | data
  | key
  | link
  /-- The name exists and carries no data. -/
  | nack
  deriving DecidableEq

def Kind.tag : Kind → UInt8
  | data => 0
  | key => 1
  | link => 2
  | nack => 3

/-- A payload that a publisher binds to a name. -/
structure Content where
  /-- The explicit name, without the digest. -/
  name : Name
  publisher : Publisher
  timestamp : Timestamp
  kind : Kind
  payload : Bytes
  deriving DecidableEq

namespace Content

def framed (bs : Bytes) : Bytes := Bytes.ofNat 8 bs.length ++ bs

/-- The byte string that is hashed: every field, and a length before whatever has no fixed one. -/
def encoding (o : Content) : Bytes :=
  Bytes.ofNat 8 o.name.length ++ (o.name.components.flatMap fun c => framed c.bytes) ++
    o.publisher.digest.toList ++ Bytes.ofWord o.timestamp.ticks ++ [o.kind.tag] ++ framed o.payload

def digest (o : Content) : Digest := Digest.ofMessage o.encoding

def digestComponent (o : Content) : Component := .ofDigest o.digest

def fullName (o : Content) : Name := o.name.push o.digestComponent

end Content

end NamedData
