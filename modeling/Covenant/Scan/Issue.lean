import Covenant.Source.Location

/-!
The findings of an analysis and the order in which they are listed.
-/

namespace Covenant

inductive Severity where
  | low
  | medium
  | high
deriving DecidableEq, Repr

namespace Severity

def text : Severity → String
  | low => "low"
  | medium => "medium"
  | high => "high"

def rank : Severity → Nat
  | low => 0
  | medium => 1
  | high => 2

end Severity

structure Issue where
  location : Option Location
  id : String
  severity : Severity
  function : Option String
  message : String
deriving DecidableEq, Repr

namespace Issue

def incompleteId : String := "analysis-incomplete"

def isAdvisory (issue : Issue) : Bool := issue.id == incompleteId

def text (issue : Issue) : String :=
  let place := match issue.location with
    | some location => location.toText
    | none => "-"
  s!"{place}: [{issue.severity.text}] {issue.id}: {issue.message}"

def orderOption {α : Type} (order : α → α → Ordering) : Option α → Option α → Ordering
  | none, none => .eq
  | none, some _ => .lt
  | some _, none => .gt
  | some left, some right => order left right

def order (left right : Issue) : Ordering :=
  (orderOption Location.order left.location right.location).then <|
    (compare left.id right.id).then <|
      (compare left.severity.rank right.severity.rank).then <|
        (orderOption compare left.function right.function).then (compare left.message right.message)

def dropRepeated : List Issue → List Issue
  | first :: second :: rest =>
    if first == second then dropRepeated (second :: rest)
      else first :: dropRepeated (second :: rest)
  | issues => issues

def arrange (issues : List Issue) : List Issue :=
  dropRepeated (issues.mergeSort fun left right => (left.order right).isLE)

end Issue

end Covenant
