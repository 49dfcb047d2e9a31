import Covenant.Property.Basic

/-!
Tests of functions: inputs to run a function with, and what is expected of the run.
-/

namespace Covenant

inductive TestKind where
  | happyPath
  | reentrancyProbe
  | accessControlBypass
  | txOriginPhishing
  | overflowBoundary
  | uncheckedCallFailure
  | loopBound
  | counterexampleReplay
deriving DecidableEq, Repr

namespace TestKind

def words : TestKind → List String
  | happyPath => ["happy", "path"]
  | reentrancyProbe => ["reentrancy", "probe"]
  | accessControlBypass => ["access", "control", "bypass"]
  | txOriginPhishing => ["tx", "origin", "phishing"]
  | overflowBoundary => ["overflow", "boundary"]
  | uncheckedCallFailure => ["unchecked", "call", "failure"]
  | loopBound => ["loop", "bound"]
  | counterexampleReplay => ["counterexample", "replay"]

def name (kind : TestKind) : String := "-".intercalate kind.words

def suffix (kind : TestKind) : String := "_".intercalate kind.words

end TestKind

inductive Assertion where
  | succeeds
  | reverts
  | returns (value : Option Nat)
  | storageEquals (place : StorageKey) (value : Nat)
  | emits (event : EmittedEvent)
  /-- Nothing is written to storage after the first call out of the contract. -/
  | noStoreAfterExternalCall
  /-- Nothing written to storage has wrapped around. -/
  | noWrapAround
  /-- The run ends within its budget of steps. -/
  | terminates
  /-- The property still holds afterwards. -/
  | propertyHolds (property : Property)
deriving DecidableEq, Repr

structure TestCase where
  contract : String
  function : String
  kind : TestKind
  inputs : Inputs
  assertions : List Assertion
deriving DecidableEq, Repr

namespace TestCase

def name (test : TestCase) : String := "test_" ++ test.function ++ "_" ++ test.kind.suffix

end TestCase

structure TestSuite where
  name : String
  tests : List TestCase
deriving DecidableEq, Repr

namespace TestSuite

def targets (suite : TestSuite) : List (String × String) :=
  (suite.tests.map fun test => (test.contract, test.function)).eraseDups.mergeSort fun left right =>
    ((compare left.1 right.1).then (compare left.2 right.2)).isLE

end TestSuite

end Covenant
