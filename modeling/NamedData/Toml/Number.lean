import NamedData.Toml.Text

namespace NamedData.Toml

/-- Digits of a class; single low lines may stand between them and are left out. -/
def digitRun (isDigit : Char → Bool) : Parser (List Char) := do
  let first ← Parser.satisfy isDigit
  let others ← Parser.many (Parser.satisfy isDigit <|> (do
    Parser.char '_'
    Parser.satisfy isDigit))
  return first :: others

def wholeNumber : Parser (List Char) := do
  match ← Parser.peek? with
  | some '0' => single (Parser.satisfy (· == '0'))
  | _ => digitRun Char.isDigit

def sign : Parser (Option Char) := Parser.optional (Parser.satisfy fun c => c == '+' || c == '-')

def fitting (n : Int) : Parser Int := fun s =>
  if Int64.minValue.toInt ≤ n ∧ n ≤ Int64.maxValue.toInt then some (n, s) else none

def based (mark : Char) (base : Nat) (isDigit : Char → Bool) : Parser Int := do
  Parser.exactly ['0', mark]
  fitting (ofDigits base (← digitRun isDigit))

def decimalInteger : Parser Int := do
  let negative := (← sign) == some '-'
  let n : Int := ofDigits 10 (← wholeNumber)
  fitting (if negative then -n else n)

def integer : Parser Int :=
  based 'x' 16 isHexDigit <|> based 'o' 8 (fun c => '0' ≤ c && c ≤ '7') <|>
    based 'b' 2 (fun c => c == '0' || c == '1') <|> decimalInteger

/-- Whether the number written with these significant digits, of which the last has the place
`exponent`, rounds to infinity: it is not below the middle of the largest float and the next power
of two. -/
def overflows (digits : List Char) (exponent : Int) : Bool :=
  let m := ofDigits 10 digits
  let limit := 1 <<< 1024-1 <<< 970
  if m = 0 then false
  else if exponent+digits.length < 300 then false
  else if exponent+(toString m).length > 400 then true
  else if 0 ≤ exponent then limit ≤ m*Nat.pow 10 exponent.toNat
  else limit*Nat.pow 10 (-exponent).toNat ≤ m

def fraction : Parser (List Char) := do
  Parser.char '.'
  digitRun Char.isDigit

def exponent : Parser (Bool × List Char) := do
  let _ ← Parser.satisfy fun c => c == 'e' || c == 'E'
  let negative := (← sign) == some '-'
  return (negative, ← digitRun Char.isDigit)

def floatTail : Parser (List Char × Option (Bool × List Char)) :=
  (do return ([], some (← exponent))) <|> (do
    let places ← fraction
    return (places, ← Parser.optional exponent))

def minusSign (negative : Bool) : List Char := if negative then ['-'] else []

def decimalFloat : Parser String := do
  let negative := (← sign) == some '-'
  let whole ← wholeNumber
  let (places, power) ← floatTail
  let scale : Int := match power with
    | none => 0
    | some (down, digits) => if down then -(ofDigits 10 digits : Int) else ofDigits 10 digits
  if !negative && overflows (whole ++ places) (scale-places.length) then failure
  let mantissa := whole ++ (if places.isEmpty then [] else '.' :: places)
  return String.ofList (minusSign negative ++ mantissa ++ ('e' :: (toString scale).toList))

def specialFloat : Parser String := do
  let negative := (← sign) == some '-'
  let name ← (do
    Parser.exactly "inf".toList
    return "inf".toList) <|> (do
    Parser.exactly "nan".toList
    return "nan".toList)
  return String.ofList (minusSign negative ++ name)

def float : Parser String := decimalFloat <|> specialFloat

end NamedData.Toml
