import NamedData.Text.Quoted

namespace NamedData

inductive NameError
  | emptyComponent
  /-- The percent sign at this byte of the URI has no two digits after it. -/
  | invalidEscape (uri : String) (offset : Nat)
  /-- The URI has no slash after the optional scheme. -/
  | notAbsolute (uri : String)
  /-- A segment of one or two periods denotes no component. -/
  | dotSegment (uri : String)
  deriving DecidableEq

namespace NameError

def code : NameError → String
  | emptyComponent => "NAME_EMPTY_COMPONENT"
  | invalidEscape _ _ => "NAME_INVALID_ESCAPE"
  | notAbsolute _ => "NAME_NOT_ABSOLUTE"
  | dotSegment _ => "NAME_DOT_SEGMENT"

def message : NameError → String
  | emptyComponent => "Name components must not be empty"
  | invalidEscape uri offset =>
    "Invalid percent-escape at byte offset " ++ toString offset ++ " in " ++ Text.quoted uri
  | notAbsolute uri => "Name URI must be absolute: " ++ Text.quoted uri
  | dotSegment uri => "Name URI contains a dot segment: " ++ Text.quoted uri

end NameError

end NamedData
