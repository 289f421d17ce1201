import NamedData.Toml.Text

namespace NamedData.Toml

def isLeap (year : Nat) : Bool := year%4 == 0 && (year%100 != 0 || year%400 == 0)

def daysInMonth (year month : Nat) : Nat :=
  if month = 2 then (if isLeap year then 29 else 28)
  else if month = 4 ∨ month = 6 ∨ month = 9 ∨ month = 11 then 30
  else 31

def part (digits least greatest : Nat) : Parser (Nat × List Char) := do
  let cs ← Parser.takeExactly Char.isDigit digits
  let n := ofDigits 10 cs
  if least ≤ n && n ≤ greatest then return (n, cs) else failure

def date : Parser (List Char) := do
  let (year, ys) ← part 4 0 9999
  Parser.char '-'
  let (month, ms) ← part 2 1 12
  Parser.char '-'
  let (_, ds) ← part 2 1 (daysInMonth year month)
  return ys ++ '-' :: ms ++ '-' :: ds

/-- A fraction of a second; digits after the ninth are dropped. -/
def secondFraction : Parser (List Char) := do
  Parser.char '.'
  let cs ← Parser.takeSome Char.isDigit
  return '.' :: cs.take 9

/-- A time of day, which admits a leap second. -/
def time : Parser (List Char) := do
  let (_, hs) ← part 2 0 23
  Parser.char ':'
  let (_, ms) ← part 2 0 59
  Parser.char ':'
  let (_, ss) ← part 2 0 60
  let fraction ← Parser.optional secondFraction
  return hs ++ ':' :: ms ++ ':' :: ss ++ fraction.getD []

def offset : Parser (List Char) :=
  (do
    let _ ← Parser.satisfy fun c => c == 'Z' || c == 'z'
    return ['Z']) <|> (do
    let c ← Parser.satisfy fun c => c == '+' || c == '-'
    let (_, hs) ← part 2 0 23
    Parser.char ':'
    let (_, ms) ← part 2 0 59
    return c :: hs ++ ':' :: ms)

def timeOfDate : Parser (List Char) := do
  let _ ← Parser.satisfy fun c => c == 'T' || c == 't' || c == ' '
  let t ← time
  let o ← Parser.optional offset
  return 'T' :: t ++ o.getD []

def moment : Parser String :=
  (do
    let d ← date
    let t ← Parser.optional timeOfDate
    return String.ofList (d ++ t.getD [])) <|> (String.ofList <$> time)

end NamedData.Toml
