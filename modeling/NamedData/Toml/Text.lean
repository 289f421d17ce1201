import NamedData.Text.Hex
import NamedData.Toml.Space

namespace NamedData.Toml

def isHexDigit (c : Char) : Bool := c.isDigit || ('a' ≤ c && c ≤ 'f') || ('A' ≤ c && c ≤ 'F')

def ofDigits (base : Nat) (cs : List Char) : Nat :=
  cs.foldl (fun n c =>
    base*n+(if c.isDigit then c.toNat-48 else if 'a' ≤ c then c.toNat-87 else c.toNat-55)) 0

/-- The character with this code point. Surrogates and larger numbers are refused. -/
def codePoint (n : Nat) : Parser Char := fun s =>
  if n.isValidChar then some (Char.ofNat n, s) else none

def escapeCode : Parser Char := do
  match ← Parser.satisfy fun _ => true with
  | 'b' => return '\x08'
  | 'f' => return '\x0c'
  | 'n' => return '\n'
  | 'r' => return '\r'
  | 't' => return '\t'
  | '"' => return '"'
  | '\\' => return '\\'
  | 'u' => codePoint (ofDigits 16 (← Parser.takeExactly isHexDigit 4))
  | 'U' => codePoint (ofDigits 16 (← Parser.takeExactly isHexDigit 8))
  | _ => failure

def escape : Parser Char := do
  Parser.char '\\'
  escapeCode

def isBasic (c : Char) : Bool := isPlain c && c != '"' && c != '\\'

def isLiteral (c : Char) : Bool := isPlain c && c != '\''

def basicString : Parser String := do
  Parser.char '"'
  let cs ← Parser.many (Parser.satisfy isBasic <|> escape)
  Parser.char '"'
  return String.ofList cs

def literalString : Parser String := do
  Parser.char '\''
  let cs ← Parser.takeWhile isLiteral
  Parser.char '\''
  return String.ofList cs

def fence (quote : Char) : Parser Unit := Parser.exactly [quote, quote, quote]

/-- One or two quotes that a parser accepts the text after; that text stays in place. -/
def quotesBefore (quote : Char) (after : Parser Unit) : Parser (List Char) := fun s =>
  let run (n : Nat) : Option (List Char × List Char) :=
    let quotes := List.replicate n quote
    if quotes.isPrefixOf s && (after (s.drop n)).isSome then some (quotes, s.drop n) else none
  run 2 <|> run 1

def innerQuotes (quote : Char) : Parser (List Char) :=
  quotesBefore quote do
    let _ ← Parser.satisfy (· != quote)

/-- The end of a string of several lines, right before which one or two quotes may stand. -/
def closing (quote : Char) : Parser (List Char) := do
  let last ← Parser.optional (quotesBefore quote (fence quote))
  fence quote
  return last.getD []

/-- A backslash at the end of a line, which hides all blanks and line breaks after it. -/
def hiddenBreak : Parser (List Char) := do
  Parser.char '\\'
  spaces
  lineBreak
  spacesAndBreaks
  return []

def keptBreak : Parser (List Char) := do
  lineBreak
  return ['\n']

def single (p : Parser Char) : Parser (List Char) := do
  return [← p]

/-- A string of several lines, made of parts of some kind. A line break right after the opening
quotes is not part of it. -/
def multiLine (quote : Char) (part : Parser (List Char)) : Parser String := do
  fence quote
  let _ ← Parser.optional lineBreak
  let parts ← Parser.many (part <|> keptBreak <|> innerQuotes quote)
  let last ← closing quote
  return String.ofList (parts.flatten ++ last)

def multiLineBasicString : Parser String :=
  multiLine '"' (single (Parser.satisfy isBasic) <|> hiddenBreak <|> single escape)

def multiLineLiteralString : Parser String := multiLine '\'' (single (Parser.satisfy isLiteral))

def string : Parser String :=
  multiLineBasicString <|> basicString <|> multiLineLiteralString <|> literalString

end NamedData.Toml
