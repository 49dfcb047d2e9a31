import Covenant.Completion.Score
import Covenant.Source.Location

/-!
What an editor asks to have completed, and what it is offered.
-/

namespace Covenant

structure EditorContext where
  path : String
  content : String
  cursor : Option Location
deriving DecidableEq, Repr

namespace EditorContext

def beforeCursor (context : EditorContext) : List Char :=
  let chars := context.content.toList
  match context.cursor with
  | none => chars
  | some cursor => chars.take ((LineTable.ofChars chars).offset cursor)

end EditorContext

structure Suggestion where
  title : String
  snippet : String
  score : Score
deriving DecidableEq, Repr

end Covenant
