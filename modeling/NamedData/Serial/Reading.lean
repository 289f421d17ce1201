import NamedData.Bytes
import NamedData.Serial.Value

namespace NamedData.Serial

namespace Value

def boolean? : Value → Option Bool
  | boolean b => some b
  | _ => none

def text? : Value → Option String
  | text s => some s
  | _ => none

def below? (bound : Nat) : Value → Option Nat
  | integer n => if 0 ≤ n ∧ n < bound then some n.toNat else none
  | _ => none

def byte? (v : Value) : Option UInt8 := (v.below? UInt8.size).map UInt8.ofNat

def word? (v : Value) : Option UInt64 := (v.below? UInt64.size).map UInt64.ofNat

def size? (v : Value) : Option Nat := v.below? UInt64.size

def list? {α : Type} (item : Value → Option α) : Value → Option (List α)
  | list vs => vs.mapM item
  | _ => none

def block? (n : Nat) (v : Value) : Option (Vector UInt8 n) :=
  (v.list? byte?).bind fun bs => if h : bs.length = n then some ⟨bs.toArray, h⟩ else none

/-- A byte string: a list of bytes, or a text that stands for its UTF-8 form. -/
def bytes? : Value → Option Bytes
  | text s => some (Bytes.ofText s)
  | v => v.list? byte?

/-- Null stands for a value that is left out. -/
def optional? {α : Type} (read : Value → Option α) : Value → Option (Option α)
  | null => some none
  | v => (read v).map some

/-- The name of an alternative and what it carries; null where the name stands alone. -/
def alternative? : Value → Option (String × Option Value)
  | text s => some (s, none)
  | record [(s, v)] => some (s, some v)
  | _ => none

def constant? {α : Type} (d : Dialect) (names : List (String × α)) (v : Value) : Option α :=
  v.alternative?.bind fun a => if a.2.all d.nothing then names.lookup a.1 else none

end Value

/-- The fields of a record that is being read, by name or in order. -/
inductive Fields
  | named (fields : List (String × Value))
  | ordered (items : List Value)

abbrev Reading := StateT Fields Option

namespace Reading

variable {α : Type}

def field (name : String) : Reading (Option Value) := do
  match ← get with
  | .named fields => return fields.lookup name
  | .ordered [] => return none
  | .ordered (v :: vs) =>
    set (Fields.ordered vs)
    return some v

def required (name : String) (read : Value → Option α) : Reading α := do
  match ← field name with
  | none => failure
  | some v => liftM (read v)

/-- A field that may be left out where fields are named. -/
def optional (name : String) (read : Value → Option α) : Reading (Option α) := do
  match ← get with
  | .named fields =>
    match fields.lookup name with
    | none => return none
    | some v => liftM (v.optional? read)
  | .ordered _ => required name (Value.optional? read)

def defaulted (name : String) (default : α) (read : Value → Option α) : Reading α := do
  match ← field name with
  | none => return default
  | some v => liftM (read v)

end Reading

def Value.record? {α : Type} (d : Dialect) (reading : Reading α) (v : Value) : Option α :=
  match v with
  | .record fields => (reading (.named fields)).map Prod.fst
  | .list items =>
    match reading (.ordered items) with
    | none => none
    | some (a, .ordered (_ :: _)) => if d.surplus then some a else none
    | some (a, _) => some a
  | _ => none

end NamedData.Serial
