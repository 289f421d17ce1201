import NamedData.Serial.Value
import NamedData.Toml.Moment
import NamedData.Toml.Number
import NamedData.Toml.Table

namespace NamedData.Toml

open Serial

/-- A key without its last part, and the last part. -/
abbrev Key := List String × String

/-- Arrays and inline tables may be nested, and keys may be dotted, less often than this. -/
def depthLimit : Nat := 80

def isBare (c : Char) : Bool := c.isAlphanum || c == '-' || c == '_'

def simpleKey : Parser String :=
  basicString <|> literalString <|> (String.ofList <$> Parser.takeSome isBare)

def key : Parser Key := do
  let parts ← Parser.separated (do
    spaces
    let k ← simpleKey
    spaces
    return k) (Parser.char '.')
  match parts.getLast? with
  | none => failure
  | some last => if parts.length < depthLimit then return (parts.dropLast, last) else failure

def pair (value : Parser Value) : Parser (Key × Value) := do
  let k ← key
  Parser.char '='
  spaces
  return (k, ← value)

def boolean : Parser Bool :=
  (do
    Parser.exactly "true".toList
    return true) <|> (do
    Parser.exactly "false".toList
    return false)

/-- A value without parts. A date or time is presented as a record with one field. -/
def scalar : Parser Value :=
  (Value.text <$> string) <|> (Value.boolean <$> boolean) <|>
    ((fun m => Value.record [("moment", .text m)]) <$> moment) <|> (Value.real <$> float) <|>
    (Value.integer <$> integer)

/-- An array, which may have a comma after its last value. -/
def array (value : Parser Value) : Parser Value := do
  Parser.char '['
  let items ← Parser.separated (do
    filling
    let v ← value
    filling
    return v) (Parser.char ',')
  if !items.isEmpty then
    let _ ← Parser.optional (Parser.char ',')
  filling
  Parser.char ']'
  return .list items

def inlineTable (value : Parser Value) : Parser Value := do
  Parser.char '\x7b'
  let pairs ← Parser.separated (do
    let p ← pair value
    spaces
    return p) (Parser.char ',')
  spaces
  Parser.char '\x7d'
  match Entries.assignAll pairs [] with
  | none => failure
  | some entries => return .record (freezeEntries entries)

/-- A value with at most `room` arrays and inline tables inside each other. -/
def value : Nat → Parser Value
  | 0 => scalar
  | room+1 => array (value room) <|> inlineTable (value room) <|> scalar

inductive Statement
  | pair (p : Key × Value)
  | table (k : Key)
  | element (k : Key)

def header : Parser Statement :=
  (do
    Parser.exactly ['[', '[']
    let k ← key
    Parser.exactly [']', ']']
    restOfLine
    return .element k) <|> (do
    Parser.char '['
    let k ← key
    Parser.char ']'
    restOfLine
    return .table k)

def line : Parser (Option Statement) := do
  let statement ← (do
    comment
    endOfLine
    return none) <|> (do
    lineBreak
    return none) <|> (some <$> header) <|> (do
    let p ← pair (value (depthLimit-1))
    restOfLine
    return some (.pair p))
  spaces
  return statement

/-- All lines of a document, which may start with a byte order mark. -/
def statements : Parser (List Statement) := do
  let _ ← Parser.optional (Parser.char '\ufeff')
  spaces
  let lines ← Parser.many line
  Parser.endOfText
  return lines.filterMap id

def leadingPairs : List Statement → List (Key × Value) × List Statement
  | .pair p :: rest => (p :: (leadingPairs rest).1, (leadingPairs rest).2)
  | rest => ([], rest)

def carryOut : List Statement → Entries → Option Entries
  | [], entries => some entries
  | .table k :: rest, entries =>
    (Entries.defineTable k.1 k.2 (leadingPairs rest).1 entries).bind (carryOut rest)
  | .element k :: rest, entries =>
    (Entries.appendTable k.1 k.2 (leadingPairs rest).1 entries).bind (carryOut rest)
  | .pair _ :: rest, entries => carryOut rest entries

def parse (document : String) : Option Value := do
  let (lines, _) ← statements document.toList
  let start ← Entries.assignAll (leadingPairs lines).1 []
  return .record (freezeEntries (← carryOut lines start))

/-- TOML has no null: nothing is an empty array or table. Surplus items of an array are ignored. -/
def dialect : Dialect :=
  ⟨true, fun v => match v with
    | .list [] | .record [] => true
    | _ => false⟩

end NamedData.Toml
