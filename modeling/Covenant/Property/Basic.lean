import Covenant.Run.Report
import Covenant.Scan.Pass
import Covenant.Symbolic.Path

/-!
Safety properties of contracts, and what can be said about whether a contract has one.
-/

namespace Covenant

inductive Bound where
  | field (name : String)
  | function (name : String)
deriving DecidableEq, Repr

namespace Bound

def text : Bound → String
  | field name => "self." ++ name
  | function name => "self." ++ name ++ "()"

def order : Bound → Bound → Ordering
  | field left, field right => compare left right
  | field _, function _ => .lt
  | function _, field _ => .gt
  | function left, function right => compare left right

end Bound

/-- What a property asks for: that a field never exceeds a bound, that nothing computed from a
subtraction below zero is ever written to a field, or that only the address held by one field can
change another one. -/
inductive Rule where
  | boundedBy (field : String) (bound : Bound)
  | noUnderflow (field : String)
  | ownerOnly (field owner : String)
deriving DecidableEq, Repr

namespace Rule

def kind : Rule → String
  | boundedBy _ _ => "field-bounded-by"
  | noUnderflow _ => "no-underflow"
  | ownerOnly _ _ => "owner-only-mutation"

def field : Rule → String
  | boundedBy field _ => field
  | noUnderflow field => field
  | ownerOnly field _ => field

def order : Rule → Rule → Ordering
  | boundedBy left leftBound, boundedBy right rightBound =>
    (compare left right).then (leftBound.order rightBound)
  | boundedBy _ _, _ => .lt
  | noUnderflow _, boundedBy _ _ => .gt
  | noUnderflow left, noUnderflow right => compare left right
  | noUnderflow _, ownerOnly _ _ => .lt
  | ownerOnly left leftOwner, ownerOnly right rightOwner =>
    (compare left right).then (compare leftOwner rightOwner)
  | ownerOnly _ _, _ => .gt

end Rule

structure Property where
  contract : String
  rule : Rule
deriving DecidableEq, Repr

namespace Property

def text (property : Property) : String :=
  match property.rule with
  | .boundedBy field bound => property.contract ++ "." ++ field ++ " never exceeds " ++ bound.text
  | .noUnderflow field => property.contract ++ "." ++ field ++ " never underflows"
  | .ownerOnly field owner =>
    property.contract ++ "." ++ field ++ " is only changed by self." ++ owner

def order (left right : Property) : Ordering :=
  (compare left.contract right.contract).then (left.rule.order right.rule)

end Property

structure Counterexample where
  function : String
  inputs : Inputs
  trace : List TraceStep
deriving DecidableEq, Repr

inductive Doubt where
  | outOfBudget (pass : String) (budget : Nat)
  | unknownContract (name : String)
  | unknownField (contract field : String)
  | notInteger (field : String) (ty : Ty)
  | notBound (function : String)
  | cannotUnderflow (field : String) (ty : Ty)
  | notAddress (field : String) (ty : Ty)
  | stoppedEarly (function : String) (halt : Halt)
  | notProven (function : String)
deriving DecidableEq, Repr

def Doubt.message : Doubt → String
  | outOfBudget pass budget => (PassError.budgetExhausted pass budget).message
  | unknownContract name => s!"there is no contract named `{name}`"
  | unknownField contract field => s!"`{contract}` has no field `{field}`"
  | notInteger field ty => s!"`{field}` is of type `{ty.text}`, not an integer"
  | notBound function =>
    s!"`{function}` must take no arguments, return an integer, and have no effects"
  | cannotUnderflow field ty => s!"`{field}` is of type `{ty.text}`, which cannot underflow"
  | notAddress field ty => s!"`{field}` is of type `{ty.text}`, not an address"
  | stoppedEarly function halt => s!"the exploration of `{function}` stopped early: {halt.message}"
  | notProven function => s!"`{function}` could not be proven safe and no counterexample was found"

inductive Verdict where
  | verified
  | violated (counterexample : Counterexample)
  | unknown (doubt : Doubt)
deriving DecidableEq, Repr

namespace Verdict

def isVerified : Verdict → Bool
  | verified => true
  | _ => false

def text (property : Property) : Verdict → String
  | verified => "verified: " ++ property.text
  | violated counterexample =>
    "violated: " ++ property.text ++ " (by `" ++ counterexample.function ++ "` with arguments [" ++
      ", ".intercalate (counterexample.inputs.args.map toString) ++ "])"
  | unknown doubt => "unknown: " ++ property.text ++ " (" ++ doubt.message ++ ")"

end Verdict

structure Verification where
  property : Property
  verdict : Verdict
deriving DecidableEq, Repr

namespace Verification

def text (verification : Verification) : String := verification.verdict.text verification.property

end Verification

end Covenant
