import Covenant.Property.Verifier
import Covenant.Scan.Scanner
import Covenant.Suite.Basic

/-!
Making tests. Each function gets a test of a call that succeeds, whose inputs are found by trying
candidates on a deployed contract and which expects what that call did. Each finding about a
function, and each property that it breaks, adds a test of just that: a stranger as the sender, a
call out of the contract that fails, the largest arguments, or the inputs of a counterexample.
-/

namespace Covenant

structure Deployment where
  contract : Contract
  storage : Storage

namespace Deployment

def deployer : Nat := 0xa11ce

def stranger : Nat := 0xbad

def deployedAt : Nat := 1700000000

def calledAfter : Nat := 365 * 24 * 60 * 60

def candidateLimit : Nat := 512

def senders (deployment : Deployment) : List Nat :=
  let stored := deployment.storage.filterMap fun (place, value) =>
    match deployment.contract.field? place.field with
    | some field => if field.ty == .address then some value else none
    | none => none
  (deployer :: stored).eraseDups

def pool (deployment : Deployment) (ty : Ty) (constants : List Nat) : List Nat :=
  let values := match ty with
    | .address => [0xb0b, deployer]
    | .bool => [1, 0]
    | _ =>
      ([1, 10, 0] ++ (constants.flatMap fun value => [value, min (value + 1) (wordBound - 1)]) ++
        deployment.storage.map Prod.snd).filter fun value => ty.wrap value == value
  values.eraseDups

def constants (function : Function) : List Nat :=
  (Witness.constantsIn function).eraseDups.mergeSort fun left right => left ≤ right

def pools (deployment : Deployment) (function : Function) : List (List Nat) :=
  let constants := constants function
  function.params.map fun param => deployment.pool param.2 constants

def chooseArgs : Nat → List (List Nat) → List Nat
  | _, [] => []
  | number, pool :: rest =>
    pool.getD (number % pool.length) 0 :: chooseArgs (number / pool.length) rest

def candidate (deployment : Deployment) (function : Function) (senders : List Nat)
    (pools : List (List Nat)) (number : Nat) : Inputs :=
  let sender := senders.getD (number % senders.length) deployer
  { args := chooseArgs (number / senders.length) pools
    env :=
      { sender, origin := sender, blockNumber := 1, value := 0
        timestamp := if function.kind == .init then deployedAt else deployedAt + calledAfter }
    storage := if function.kind == .init then [] else deployment.storage
    callsSucceed := true }

def search? (deployment : Deployment) (function : Function) : Option (Inputs × Report) :=
  let senders := deployment.senders
  let pools := deployment.pools function
  (List.range candidateLimit).findSome? fun number =>
    let inputs := deployment.candidate function senders pools number
    match deployment.contract.run RunLimits.standard function.name inputs with
    | .ok report => if report.result.isSuccess then some (inputs, report) else none
    | .error _ => none

def ofContract (contract : Contract) : Deployment :=
  let empty : Deployment := ⟨contract, []⟩
  match contract.init?.bind empty.search? with
  | some (_, report) => ⟨contract, report.storage⟩
  | none => empty

def describe (inputs : Inputs) (report : Report) : List Assertion :=
  let result := match report.result with
    | .returned (some value) => [Assertion.returns (some value)]
    | _ => []
  let changed := report.storage.filter fun entry => inputs.storage.lookup entry.1 != some entry.2
  [.succeeds] ++ result ++ (changed.map fun entry => .storageEquals entry.1 entry.2) ++
    report.events.map .emits

def test (deployment : Deployment) (function : Function) (kind : TestKind) (inputs : Inputs)
    (assertions : List Assertion) : TestCase :=
  { contract := deployment.contract.name, function := function.name, kind, inputs, assertions }

def happyPath (deployment : Deployment) (function : Function) : TestCase :=
  match deployment.search? function with
  | some (inputs, report) => deployment.test function .happyPath inputs (describe inputs report)
  | none =>
    let inputs := deployment.candidate function deployment.senders (deployment.pools function) 0
    deployment.test function .happyPath inputs [.succeeds]

def boundaryArgs (function : Function) : List Nat :=
  function.params.map fun param =>
    match param.2 with
    | .address => stranger
    | .bool => 1
    | ty => ty.maxValue

def probe? (function : Function) (inputs : Inputs) (check : String) :
    Option (TestKind × Inputs × List Assertion) :=
  match check with
  | "reentrancy" => some (.reentrancyProbe, inputs, [.noStoreAfterExternalCall])
  | "missing-access-control" =>
    some (.accessControlBypass,
      { inputs with env := { inputs.env with sender := stranger, origin := stranger } }, [.reverts])
  | "tx-origin" =>
    some (.txOriginPhishing, { inputs with env := { inputs.env with sender := stranger } },
      [.reverts])
  | "unchecked-arithmetic" =>
    some (.overflowBoundary, { inputs with args := boundaryArgs function }, [.noWrapAround])
  | "unchecked-call" =>
    some (.uncheckedCallFailure, { inputs with callsSucceed := false }, [.reverts])
  | "unbounded-loop" =>
    some (.loopBound, { inputs with args := boundaryArgs function }, [.terminates])
  | _ => none

def adversarial (deployment : Deployment) (function : Function) (happy : TestCase)
    (issues : List Issue) (results : List Verification) : List TestCase :=
  let probes := issues.filterMap fun issue =>
    if issue.function == some function.name then
      (probe? function happy.inputs issue.id).map fun (kind, inputs, assertions) =>
        deployment.test function kind inputs assertions
    else none
  let replays := results.filterMap fun result =>
    match result.verdict with
    | .violated counterexample =>
      if result.property.contract == deployment.contract.name && counterexample.function ==
        function.name then
        some (deployment.test function .counterexampleReplay counterexample.inputs
          [.propertyHolds result.property])
      else none
    | _ => none
  firstOfEachKind [] (probes ++ replays)
where
  /-- Keeps the first test of each kind. -/
  firstOfEachKind (seen : List TestKind) : List TestCase → List TestCase
    | [] => []
    | test :: rest =>
      if seen.contains test.kind then firstOfEachKind seen rest
      else test :: firstOfEachKind (test.kind :: seen) rest

def tests (deployment : Deployment) (issues : List Issue) (results : List Verification)
    (function : Function) :
    List TestCase :=
  let happy := deployment.happyPath function
  happy :: deployment.adversarial function happy issues results

end Deployment

namespace ContractSet

def testsFor (set : ContractSet) (issues : List Issue) (results : List Verification) : TestSuite :=
  { name := match set.contracts with
      | [contract] => contract.name ++ " tests"
      | _ => "generated tests"
    tests := set.contracts.flatMap fun contract =>
      let deployment := Deployment.ofContract contract
      contract.entryPoints.flatMap (deployment.tests issues results) }

def allIssues (set : ContractSet) (budget : Nat) : List Issue :=
  match set.scan Check.all budget with
  | .ok issues => issues
  | .error _ => []

def generateTests (set : ContractSet) (budget : Nat) (limits : VerifierLimits) :
    Except Halt TestSuite := do
  let results ← set.verify limits (Property.infer set)
  return set.testsFor (set.allIssues budget) results

end ContractSet

end Covenant
