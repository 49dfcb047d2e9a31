/-!
Positions in a source text. A span is a half-open range of character offsets; a location is the line
and column a person reads, both counted from one. `LineTable` converts between the two.
-/

namespace Covenant

structure Span where
  start : Nat
  stop : Nat
deriving DecidableEq, Repr, Inhabited

structure Location where
  line : Nat
  column : Nat
deriving DecidableEq, Repr, Inhabited

namespace Location

def unknown : Location := ⟨0, 0⟩

def toText (location : Location) : String :=
  toString location.line ++ ":" ++ toString location.column

def order (left right : Location) : Ordering :=
  (compare left.line right.line).then (compare left.column right.column)

end Location

/-- The offsets at which the lines of a text start, in ascending order. The first line starts at
offset zero, so `later` lists the starts of the second line and those after it. -/
structure LineTable where
  later : List Nat
  length : Nat
deriving DecidableEq, Repr

namespace LineTable

def startsAfterNewlines (offset : Nat) : List Char → List Nat
  | [] => []
  | char :: rest =>
    if char = '\n' then (offset + 1) :: startsAfterNewlines (offset + 1) rest
    else startsAfterNewlines (offset + 1) rest

def ofChars (chars : List Char) : LineTable where
  later := startsAfterNewlines 0 chars
  length := chars.length

def ofText (text : String) : LineTable := ofChars text.toList

def locateFrom (offset line lineStart : Nat) : List Nat → Location
  | [] => ⟨line, offset - lineStart + 1⟩
  | next :: rest =>
    if next ≤ offset then locateFrom offset (line + 1) next rest
    else ⟨line, offset - lineStart + 1⟩

def location (table : LineTable) (offset : Nat) : Location :=
  locateFrom (min offset table.length) 1 0 table.later

def line (table : LineTable) (offset : Nat) : Nat := (table.location offset).line

def starts (table : LineTable) : List Nat := 0 :: table.later

def offset (table : LineTable) (location : Location) : Nat :=
  let line := min (max location.line 1) table.starts.length - 1
  let start := table.starts.getD line 0
  let stop := match table.starts[line + 1]? with
    | some next => next - 1
    | none => table.length
  min (start + (location.column - 1)) stop

end LineTable

end Covenant
