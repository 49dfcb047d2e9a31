import Covenant.Code.Contract
import Covenant.Run.Storage

/-!
What a call of a function is given, and what it reports.
-/

namespace Covenant

structure Environment where
  sender : Nat
  value : Nat
  timestamp : Nat
  blockNumber : Nat
  origin : Nat
deriving DecidableEq, Repr, Inhabited

namespace Environment

def zero : Environment := ⟨0, 0, 0, 0, 0⟩

def get (env : Environment) : EnvVar → Nat
  | .sender => env.sender
  | .value => env.value
  | .timestamp => env.timestamp
  | .blockNumber => env.blockNumber
  | .origin => env.origin

def put (env : Environment) (value : Nat) : EnvVar → Environment
  | .sender => { env with sender := value }
  | .value => { env with value := value }
  | .timestamp => { env with timestamp := value }
  | .blockNumber => { env with blockNumber := value }
  | .origin => { env with origin := value }

end Environment

structure Inputs where
  args : List Nat
  env : Environment
  storage : Storage
  callsSucceed : Bool
deriving DecidableEq, Repr

inductive CallResult where
  | returned (value : Option Nat)
  | reverted (message : Option String)
deriving DecidableEq, Repr

def CallResult.isSuccess : CallResult → Bool
  | returned _ => true
  | reverted _ => false

inductive Action where
  | setLocal (name : String) (value : Nat)
  | setStorage (place : StorageKey) (value : Nat)
  | divisionByZero
  | call (function : String)
  | externalCall (kind : ExternalKind) (target amount : Nat) (succeeds : Bool)
  | emit (event : String)
  | branch (taken : Bool)
  | guard (kind : GuardKind) (holds : Bool)
  | ret (value : Option Nat)
  | revert
deriving DecidableEq, Repr

namespace Action

def boolText (value : Bool) : String := if value then "true" else "false"

def kindText : ExternalKind → String
  | .transfer => "transfer"
  | .call => "call"

def guardText : GuardKind → String
  | .require => "require"
  | .assert => "assert"

def text : Action → String
  | setLocal name value => name ++ " = " ++ hexText value
  | setStorage place value => "self." ++ place.text ++ " = " ++ hexText value
  | divisionByZero => "division by zero"
  | call function => "call " ++ function
  | externalCall kind target amount succeeds =>
    kindText kind ++ "(" ++ hexText target ++ ", " ++ hexText amount ++ ") -> " ++ boolText succeeds
  | emit event => "emit " ++ event
  | branch taken => "branch " ++ boolText taken
  | guard kind holds => guardText kind ++ (if holds then " passed" else " failed")
  | ret (some value) => "return " ++ hexText value
  | ret none => "return"
  | revert => "revert"

end Action

structure TraceStep where
  function : String
  block : BlockId
  location : Location
  action : Action
deriving DecidableEq, Repr

structure EmittedEvent where
  name : String
  args : List Nat
deriving DecidableEq, Repr

structure StoreRecord where
  place : StorageKey
  value : Nat
  underflowed : Bool
deriving DecidableEq, Repr

structure ExternalCallRecord where
  kind : ExternalKind
  target : Nat
  amount : Nat
deriving DecidableEq, Repr

structure Report where
  result : CallResult
  trace : List TraceStep
  storage : Storage
  events : List EmittedEvent
  stores : List StoreRecord
  calls : List ExternalCallRecord
deriving DecidableEq, Repr

inductive ExecutionError where
  | outOfFuel (budget : Nat)
  | callDepthExceeded (limit : Nat)
  | unknownFunction (name : String)
  | unknownContract (name : String)
  | arityMismatch (function : String) (expected found : Nat)
  | malformed (message : String)
deriving DecidableEq, Repr

namespace ExecutionError

def message : ExecutionError → String
  | outOfFuel budget => s!"Execution ran out of fuel after {budget} steps"
  | callDepthExceeded limit => s!"Call depth exceeded the limit of {limit}"
  | unknownFunction name => s!"No function named `{name}` exists"
  | unknownContract name => s!"No contract named `{name}` exists"
  | arityMismatch function expected found =>
    s!"`{function}` expects {expected} argument(s) but was given {found}"
  | malformed message => "Malformed code: " ++ message

end ExecutionError

end Covenant
