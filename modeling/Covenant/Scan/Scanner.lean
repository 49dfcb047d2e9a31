import Covenant.Scan.Finding
import Covenant.Scan.Pass

/-!
The scanner: the summaries of functions and all checks as passes, those that need summaries
depending on them.
-/

namespace Covenant

inductive Check where
  | functionSummaries
  | reentrancy
  | missingAccessControl
  | uncheckedArithmetic
  | deadStore
  | txOrigin
  | uncheckedCall
  | unboundedLoop
deriving DecidableEq, Repr

namespace Check

def all : List Check :=
  [functionSummaries, reentrancy, missingAccessControl, uncheckedArithmetic, deadStore, txOrigin,
    uncheckedCall, unboundedLoop]

def name : Check → String
  | functionSummaries => "function-summaries"
  | reentrancy => "reentrancy"
  | missingAccessControl => "missing-access-control"
  | uncheckedArithmetic => "unchecked-arithmetic"
  | deadStore => "dead-store"
  | txOrigin => "tx-origin"
  | uncheckedCall => "unchecked-call"
  | unboundedLoop => "unbounded-loop"

def depends : Check → List Check
  | reentrancy => [functionSummaries]
  | missingAccessControl => [functionSummaries]
  | _ => []

def findings (summaries : Summaries) (set : ContractSet) : Check → Finding.Result
  | functionSummaries => ⟨[], 0⟩
  | reentrancy => Finding.reentrancy summaries set
  | missingAccessControl => Finding.missingAccessControl summaries set
  | uncheckedArithmetic => Finding.uncheckedArithmetic set
  | deadStore => Finding.deadStore set
  | txOrigin => Finding.txOrigin set
  | uncheckedCall => Finding.uncheckedCall set
  | unboundedLoop => Finding.unboundedLoop set

def within {α : Type} (check : Check) (cost budget : Nat) (result : α) : Except PassStop α :=
  if cost ≤ budget then .ok result else .error (.failed (.budgetExhausted check.name budget))

def pass (check : Check) : Pass ContractSet Check Summaries where
  key := check
  name := check.name
  depends := check.depends
  run set facts budget :=
    match check with
    | functionSummaries =>
      let (summaries, cost) := Summaries.ofSet set
      check.within cost budget ([], summaries)
    | _ =>
      let result := check.findings ((facts.lookup functionSummaries).getD []) set
      check.within result.cost budget (result.issues, [])

end Check

namespace ContractSet

def scan (set : ContractSet) (checks : List Check) (budget : Nat) :
    Except (OrderingError Check) (List Issue) := do
  let waves ← Pass.waves (checks.map Check.pass)
  return (Pass.runAll set budget waves).1

end ContractSet

end Covenant
