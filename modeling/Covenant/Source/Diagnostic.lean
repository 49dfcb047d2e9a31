import Covenant.Source.Location

/-!
Problems found while reading a source text. They never stop the reading; all of them are collected.
-/

namespace Covenant

structure Diagnostic where
  message : String
  location : Location
  span : Span
  hint : Option String
deriving DecidableEq, Repr

namespace Diagnostic

def locate (lines : LineTable) (message : String) (span : Span) : Diagnostic :=
  { message, location := lines.location span.start, span, hint := none }

def withHint (diagnostic : Diagnostic) (hint : String) : Diagnostic :=
  { diagnostic with hint := some hint }

end Diagnostic

end Covenant
