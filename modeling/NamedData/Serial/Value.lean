namespace NamedData.Serial

inductive Value
  | null
  | boolean (b : Bool)
  | integer (n : Int)
  /-- A number with a fraction or an exponent, as it was written. -/
  | real (literal : String)
  | text (s : String)
  | list (items : List Value)
  /-- Fields in the order in which they were written; no two have the same name. -/
  | record (fields : List (String × Value))
  deriving Inhabited

/-- What differs between the notations that values are written in. -/
structure Dialect where
  surplus : Bool
  nothing : Value → Bool

/-- JSON: a list ends with the last field, and null is nothing. -/
def Dialect.json : Dialect :=
  ⟨false, fun v => match v with
    | .null => true
    | _ => false⟩

end NamedData.Serial
