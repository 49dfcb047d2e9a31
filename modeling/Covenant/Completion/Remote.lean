import Covenant.Completion.Suggestion
import Covenant.Json.Record

/-!
Completion by a backend that is sent the file and the cursor and answers with suggestions. A backend
that fails costs no more than its suggestions.
-/

namespace Covenant

inductive TransportError where
  | invalidEndpoint (endpoint : String)
  | status (code : Nat)
  | malformedResponse
deriving DecidableEq, Repr

namespace TransportError

def message : TransportError → String
  | invalidEndpoint endpoint => s!"Invalid endpoint `{endpoint}`"
  | status code => s!"Backend responded with status {code}"
  | malformedResponse => "Malformed response"

end TransportError

namespace Suggestion

def scoreOfJson? : Json → Option Score
  | .int value => Score.ofDecimal? (toString value)
  | .decimal text => Score.ofDecimal? text
  | _ => none

open Json in
def ofJson? (value : Json) : Option Suggestion := do
  match ← fieldValues? ["title", "snippet", "score"] value with
  | [title, snippet, score] =>
    return {
      title := ← required text? title
      snippet := ← required text? snippet
      score := ← required scoreOfJson? score }
  | _ => none

open Json in
def listOfJson? (value : Json) : Option (List Suggestion) := do
  match ← fieldValues? ["suggestions"] value with
  | [suggestions] => orDefault (list? ofJson?) [] suggestions
  | _ => none

end Suggestion

namespace EditorContext

def requestText (context : EditorContext) : String :=
  let cursor := match context.cursor with
    | none => Json.null
    | some cursor => .obj [("line", .int cursor.line), ("column", .int cursor.column)]
  (Json.obj [("path", .str context.path), ("content", .str context.content),
    ("cursor", cursor)]).render

end EditorContext

namespace Backend

def suggestions : Except TransportError String → Except TransportError (List Suggestion)
  | .error problem => .error problem
  | .ok answer =>
    match Json.decode? Suggestion.listOfJson? answer with
    | none => .error .malformedResponse
    | some found => .ok (found.mergeSort fun left right => (right.score.order left.score).isLE)

def offer (answer : Except TransportError String) : List Suggestion :=
  match suggestions answer with
  | .ok found => found
  | .error _ => []

end Backend

end Covenant
