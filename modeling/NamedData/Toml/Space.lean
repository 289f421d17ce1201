import NamedData.Toml.Parser

namespace NamedData.Toml

/-- Characters that stand for themselves in comments and, quotes and escapes apart, in strings. -/
def isPlain (c : Char) : Bool := c == '\t' || ('\x20' ≤ c && c ≤ '\x7e') || '\x80' ≤ c

def isSpace (c : Char) : Bool := c == ' ' || c == '\t'

def spaces : Parser Unit := do
  let _ ← Parser.takeWhile isSpace

def lineBreak : Parser Unit := Parser.char '\n' <|> Parser.exactly ['\r', '\n']

def comment : Parser Unit := do
  Parser.char '#'
  let _ ← Parser.takeWhile isPlain

def spacesAndBreaks : Parser Unit := do
  let _ ← Parser.many ((do let _ ← Parser.satisfy isSpace) <|> lineBreak)

def filling : Parser Unit := do
  let _ ← Parser.many ((do let _ ← Parser.satisfy isSpace) <|> lineBreak <|> comment)

def endOfLine : Parser Unit := lineBreak <|> Parser.endOfText

def restOfLine : Parser Unit := do
  spaces
  let _ ← Parser.optional comment
  endOfLine

end NamedData.Toml
