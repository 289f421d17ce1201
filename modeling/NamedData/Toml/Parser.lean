namespace NamedData.Toml

abbrev Parser := StateT (List Char) Option

namespace Parser

variable {α β : Type}

def satisfy (p : Char → Bool) : Parser Char
  | c :: rest => if p c then some (c, rest) else none
  | [] => none

def char (c : Char) : Parser Unit := do
  let _ ← satisfy (· == c)

def exactly (cs : List Char) : Parser Unit := fun s =>
  if cs.isPrefixOf s then some ((), s.drop cs.length) else none

def takeWhile (p : Char → Bool) : Parser (List Char) := fun s => some (s.takeWhile p, s.dropWhile p)

def takeSome (p : Char → Bool) : Parser (List Char) := do
  let c ← satisfy p
  return c :: (← takeWhile p)

def takeExactly (p : Char → Bool) : Nat → Parser (List Char)
  | 0 => return []
  | n+1 => do
    let c ← satisfy p
    return c :: (← takeExactly p n)

def peek? : Parser (Option Char) := fun s => some (s.head?, s)

def optional (p : Parser α) : Parser (Option α) := (some <$> p) <|> pure none

def atMost (p : Parser α) : Nat → Parser (List α)
  | 0 => return []
  | n+1 => fun s =>
    match p s with
    | none => some ([], s)
    | some (a, rest) => (atMost p n rest).map fun r => (a :: r.1, r.2)

/-- Applies a parser, which must read something each time, until it fails. -/
def many (p : Parser α) : Parser (List α) := fun s => atMost p s.length s

/-- Items between separators, perhaps none. A separator is read only before an item. -/
def separated (item : Parser α) (separator : Parser β) : Parser (List α) :=
  (do
    let a ← item
    return a :: (← many (do
      let _ ← separator
      item))) <|> pure []

def endOfText : Parser Unit := fun s => if s.isEmpty then some ((), s) else none

end Parser

end NamedData.Toml
