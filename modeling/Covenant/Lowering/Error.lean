import Covenant.Code.Ty

/-!
What can be wrong with a program that can be read: names, types and shapes that do not fit together.
-/

namespace Covenant

inductive SemanticCause where
  | duplicateField (name : String)
  | duplicateFunction (name : String)
  | duplicateEvent (name : String)
  | duplicateContract (name : String)
  | duplicateInit
  | duplicateParameter (name : String)
  | duplicateVariable (name : String)
  | unknownField (name : String)
  | unknownFunction (name : String)
  | unknownVariable (name : String)
  | typeMismatch (expected found : String)
  | invalidOperand (operator ty : String)
  | arityMismatch (name : String) (expected found : Nat)
  | notMap (field : String)
  | mapNotIndexed (field : String)
  | literalOutOfRange (literal ty : String)
  | noReturnValue (function : String)
  | missingReturn (function : String)
  | mapOutsideStorage
  | unusedExpression
deriving DecidableEq, Repr

namespace SemanticCause

def message : SemanticCause → String
  | duplicateField name => s!"Field `{name}` is declared more than once"
  | duplicateFunction name => s!"Function `{name}` is declared more than once"
  | duplicateEvent name => s!"Event `{name}` is declared more than once"
  | duplicateContract name => s!"Contract `{name}` is declared more than once"
  | duplicateInit => "Contract declares more than one `init` handler"
  | duplicateParameter name => s!"Parameter `{name}` is declared more than once"
  | duplicateVariable name => s!"Variable `{name}` is already declared in this function"
  | unknownField name => s!"Unknown field `{name}`"
  | unknownFunction name => s!"Unknown function `{name}`"
  | unknownVariable name => s!"Unknown variable `{name}`"
  | typeMismatch expected found => s!"Type mismatch: expected `{expected}` but found `{found}`"
  | invalidOperand operator ty => s!"Operator `{operator}` cannot be applied to `{ty}`"
  | arityMismatch name expected found =>
    s!"`{name}` expects {expected} argument(s) but was given {found}"
  | notMap field => s!"Field `{field}` is not a map and cannot be indexed"
  | mapNotIndexed field => s!"Field `{field}` is a map and must be indexed"
  | literalOutOfRange literal ty => s!"Literal `{literal}` does not fit in `{ty}`"
  | noReturnValue function => s!"Function `{function}` does not return a value"
  | missingReturn function => s!"Function `{function}` must return a value on every path"
  | mapOutsideStorage => "Maps can only be used as storage fields"
  | unusedExpression => "Expression cannot be used as a statement"

end SemanticCause

structure SemanticError where
  cause : SemanticCause
  contract : String
  function : Option String
  location : Location
  span : Span
deriving DecidableEq, Repr

namespace SemanticError

def message (error : SemanticError) : String := error.location.toText ++ ": " ++ error.cause.message

end SemanticError

end Covenant
