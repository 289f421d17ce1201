import NamedData.Name.Basic
import NamedData.Name.Error
import NamedData.Text.Percent

namespace NamedData

def period : UInt8 := 0x2E

def slash : UInt8 := 0x2F

namespace Component

def ofBytes (bs : Bytes) : Except NameError Component :=
  if bs.isEmpty then .error .emptyComponent else .ok ⟨bs⟩

def toUri (c : Component) : Bytes :=
  (if c.bytes.all (· == period) then List.replicate 3 period else []) ++ Percent.encode c.bytes

def toText (c : Component) : String := Bytes.toText c.toUri

def describe (c : Component) : String := "Component(" ++ c.toText ++ ")"

/-- Reads the segment that starts at byte `base` of `uri`. A segment of periods only stands for
three periods fewer. -/
def ofSegment (uri : String) (base : Nat) (segment : Bytes) : Except NameError Component :=
  if !segment.isEmpty && segment.all (· == period) then
    if segment.length < 3 then .error (.dotSegment uri) else ofBytes (segment.drop 3)
  else
    match Percent.decode base segment with
    | .error offset => .error (.invalidEscape uri offset)
    | .ok bs => ofBytes bs

/-- Reads a text that is one segment; a slash in it is an ordinary byte. -/
def ofText (text : String) : Except NameError Component := ofSegment text 0 (Bytes.ofText text)

end Component

namespace Name

def scheme : Bytes := [0x63, 0x63, 0x6E, 0x78, 0x3A]

def toUri (n : Name) : Bytes :=
  if n.isRoot then [slash] else n.components.flatMap fun c => slash :: c.toUri

def toText (n : Name) : String := Bytes.toText n.toUri

def describe (n : Name) : String := "Name(" ++ n.toText ++ ")"

def segments : Bytes → List Bytes
  | [] => [[]]
  | b :: path => if b = slash then [] :: segments path else (segments path).modifyHead (b :: ·)

/-- Reads segments from left to right, the first of which starts at byte `base` of `uri`. An empty
last segment is what a slash at the end leaves behind. -/
def ofSegments (uri : String) (base : Nat) : List Bytes → Except NameError (List Component)
  | [] => .ok []
  | [[]] => .ok []
  | s :: rest =>
    match Component.ofSegment uri base s with
    | .error e => .error e
    | .ok c => (ofSegments uri (base+s.length+1) rest).map (c :: ·)

def ofPath (uri : String) (base : Nat) : Bytes → Except NameError Name
  | [] => .error (.notAbsolute uri)
  | b :: path =>
    if b = slash then (ofSegments uri (base+1) (segments path)).map Name.mk
    else .error (.notAbsolute uri)

def ofText (uri : String) : Except NameError Name :=
  let bytes := Bytes.ofText uri
  if scheme.isPrefixOf bytes then ofPath uri scheme.length (bytes.drop scheme.length)
  else ofPath uri 0 bytes

end Name

end NamedData
