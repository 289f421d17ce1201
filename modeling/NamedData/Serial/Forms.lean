import NamedData.Interest.Basic
import NamedData.Serial.Reading

namespace NamedData

open Serial

def Bytes.toValue (bs : Bytes) : Value := .list (bs.map fun b => .integer b.toNat)

def Component.toValue (c : Component) : Value := c.bytes.toValue

def Component.ofValue? (v : Value) : Option Component := v.bytes?.map Component.mk

def Name.toValue (n : Name) : Value :=
  .record [("components", .list (n.components.map Component.toValue))]

def Name.ofValue? (d : Dialect) : Value → Option Name :=
  Value.record? d do
    return ⟨← .required "components" (Value.list? Component.ofValue?)⟩

def Timestamp.toValue (t : Timestamp) : Value := .integer t.ticks.toNat

def Timestamp.ofValue? (v : Value) : Option Timestamp := v.word?.map Timestamp.mk

def Publisher.toValue (p : Publisher) : Value := Bytes.toValue p.digest.toList

def Publisher.ofValue? (v : Value) : Option Publisher := (v.block? 32).map Publisher.mk

namespace Kind

def label : Kind → String
  | data => "Data"
  | key => "Key"
  | link => "Link"
  | nack => "Nack"

def labels : List (String × Kind) := [data, key, link, nack].map fun k => (k.label, k)

def toValue (k : Kind) : Value := .text k.label

def ofValue? (d : Dialect) : Value → Option Kind := Value.constant? d labels

end Kind

def Content.toValue (o : Content) : Value :=
  .record
    [("name", o.name.toValue), ("publisher", o.publisher.toValue),
     ("timestamp", o.timestamp.toValue), ("content_type", o.kind.toValue),
     ("payload", o.payload.toValue)]

def Content.ofValue? (d : Dialect) : Value → Option Content :=
  Value.record? d do
    let name ← .required "name" (Name.ofValue? d)
    let publisher ← .required "publisher" Publisher.ofValue?
    let timestamp ← .required "timestamp" Timestamp.ofValue?
    let kind ← .required "content_type" (Kind.ofValue? d)
    let payload ← .required "payload" Value.bytes?
    return ⟨name, publisher, timestamp, kind, payload⟩

def Bloom.toValue (f : Bloom) : Value :=
  .record
    [("lg_bits", .integer f.lgBits.toNat), ("n_hash", .integer f.hashes.toNat),
     ("seed", Bytes.toValue f.seed.toList), ("bits", f.bits.toValue)]

def Bloom.ofValue? (d : Dialect) : Value → Option Bloom :=
  Value.record? d do
    let lgBits ← .required "lg_bits" Value.byte?
    let hashes ← .required "n_hash" Value.byte?
    let seed ← .required "seed" (Value.block? 4)
    let bits ← .required "bits" (Value.list? Value.byte?)
    return ⟨lgBits, hashes, seed, bits⟩

namespace Exclusion

def Element.toValue : Element → Value
  | component c => .record [("Component", c.toValue)]
  | any => .text "Any"
  | bloom f => .record [("Bloom", f.toValue)]

def Element.ofValue? (d : Dialect) (v : Value) : Option Element :=
  match v.alternative? with
  | some ("Any", carried) => if carried.all d.nothing then some any else none
  | some ("Component", some carried) => (Component.ofValue? carried).map component
  | some ("Bloom", some carried) => (Bloom.ofValue? d carried).map bloom
  | _ => none

def toValue (x : Exclusion) : Value := .record [("elements", .list (x.elements.map Element.toValue))]

def ofValue? (d : Dialect) : Value → Option Exclusion :=
  Value.record? d do
    return ⟨← .required "elements" (Value.list? (Element.ofValue? d))⟩

end Exclusion

namespace Selector

def labels : List (String × Selector) := [leftmost, rightmost].map fun s => (s.label, s)

def toValue (s : Selector) : Value := .text s.label

def ofValue? (d : Dialect) : Value → Option Selector := Value.constant? d labels

end Selector

def Serial.Value.ofOption {α : Type} (write : α → Value) (a : Option α) : Value :=
  (a.map write).getD .null

def Interest.toValue (i : Interest) : Value :=
  let size (n : Nat) : Value := .integer n
  .record
    [("name", i.name.toValue), ("min_suffix_components", .ofOption size i.minSuffix),
     ("max_suffix_components", .ofOption size i.maxSuffix),
     ("child_selector", .ofOption Selector.toValue i.selector),
     ("exclude", .ofOption Exclusion.toValue i.exclusion),
     ("publisher", .ofOption Publisher.toValue i.publisher)]

def Interest.ofValue? (d : Dialect) : Value → Option Interest :=
  Value.record? d do
    let name ← .required "name" (Name.ofValue? d)
    let minSuffix ← .optional "min_suffix_components" Value.size?
    let maxSuffix ← .optional "max_suffix_components" Value.size?
    let selector ← .optional "child_selector" (Selector.ofValue? d)
    let exclusion ← .optional "exclude" (Exclusion.ofValue? d)
    let publisher ← .optional "publisher" Publisher.ofValue?
    return ⟨name, minSuffix, maxSuffix, selector, exclusion, publisher⟩

end NamedData
