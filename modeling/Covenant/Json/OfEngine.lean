import Covenant.Engine.Analysis
import Covenant.Json.OfProperty
import Covenant.Json.OfCode

/-!
The JSON form of chains, gas, tests, suggestions, settings and analyses.
-/

namespace Covenant

open Json

def GasSchedule.toJson (value : GasSchedule) : Json :=
  record [("base", ofNat value.base), ("operation", ofNat value.operation),
    ("storage_read", ofNat value.storageRead), ("storage_write", ofNat value.storageWrite),
    ("event", ofNat value.event), ("event_arg", ofNat value.eventArg),
    ("internal_call", ofNat value.internalCall), ("external_call", ofNat value.externalCall),
    ("branch", ofNat value.branch)]

def ChainProfile.toJson (value : ChainProfile) : Json :=
  record [("name", .str value.name), ("address_width", ofNat value.addressWidth),
    ("max_integer_width", ofNat value.maxIntegerWidth),
    ("supports_events", .bool value.supportsEvents),
    ("native_value_transfer", .bool value.nativeValueTransfer), ("gas_limit", ofNat value.gasLimit),
    ("gas", value.gas.toJson)]

def GasReport.toJson (value : GasReport) : Json :=
  record [("chain", .str value.chain), ("gas_limit", ofNat value.gasLimit),
    ("functions", record (value.functions.map fun entry => (entry.1, ofNat entry.2))),
    ("efficiency", ofNat value.efficiency),
    ("most_expensive", ofOption (fun (entry : String × Nat) => .arr [.str entry.1, ofNat entry.2])
      value.mostExpensive?)]

def Simulation.toJson (value : Simulation) : Json :=
  record [("passed", .bool value.passed),
    ("discrepancies", ofList (fun found => .str found.message) value.discrepancies)]

def simulationsToJson (results : List (String × Simulation)) : Json :=
  record (results.map fun entry => (entry.1, entry.2.toJson))

def Assessment.fields (value : Assessment) : List (String × Json) :=
  [("security_score", ofNat value.securityScore), ("level", .str value.level.text),
    ("overall_score", ofNat value.overallScore), ("passed", .bool value.passed),
    ("recommendations", ofList (fun advice => .str advice.text) value.recommendations)]

def Assessment.toJson (value : Assessment) : Json := record value.fields

def Assertion.toJson : Assertion → Json
  | .succeeds => record [("expect", .str "succeeds")]
  | .reverts => record [("expect", .str "reverts")]
  | .returns value => record [("expect", .str "returns"), ("value", ofOption ofNat value)]
  | .storageEquals place value =>
    record [("expect", .str "storage-equals"), ("key", .str place.text), ("value", ofNat value)]
  | .emits event => record [("expect", .str "emits"), ("event", event.toJson)]
  | .noStoreAfterExternalCall => record [("expect", .str "no-store-after-external-call")]
  | .noWrapAround => record [("expect", .str "no-wrap-around")]
  | .terminates => record [("expect", .str "terminates")]
  | .propertyHolds property =>
    record [("expect", .str "property-holds"), ("property", .str property.text)]

def TestCase.toJson (value : TestCase) : Json :=
  record [("name", .str value.name), ("contract", .str value.contract),
    ("target_function", .str value.function), ("kind", .str value.kind.name),
    ("inputs", value.inputs.toJson), ("assertions", ofList Assertion.toJson value.assertions)]

def TestSuite.fields (value : TestSuite) : List (String × Json) :=
  [("name", .str value.name), ("tests", ofList TestCase.toJson value.tests)]

def TestSuite.toJson (value : TestSuite) : Json := record value.fields

def Suggestion.toJson (value : Suggestion) : Json :=
  .arr [.str value.title, .str value.snippet, .str value.score.text]

def VerifierLimits.toJson (value : VerifierLimits) : Json :=
  record [("max_paths", ofNat value.maxPaths),
    ("max_blocks_per_path", ofNat value.maxBlocksPerPath), ("loop_unroll", ofNat value.loopUnroll),
    ("max_call_depth", ofNat value.maxCallDepth), ("fuel", ofNat value.fuel),
    ("witness_attempts", ofNat value.witnessAttempts)]

def EngineSettings.fields (value : EngineSettings) : List (String × Json) :=
  [("scanner", record [("pass_fuel", ofNat value.passFuel)]),
    ("verifier", value.verifier.toJson),
    ("optimizer", record
      [("max_rounds", ofNat value.optimizer.maxRounds),
        ("probe_fuel", ofNat value.optimizer.probeFuel)]),
    ("simulation", record [("loop_bound", ofNat value.loopBound)]),
    ("completion", record [("endpoint", ofOption .str value.completion.endpoint),
      ("timeout_ms", ofNat value.completion.timeout)])]

def StageStatus.toJson : StageStatus → Json
  | .completed => record [("status", .str "completed")]
  | .degraded problem => record [("status", .str "degraded"), ("reason", .str problem.message)]
  | .skipped problem => record [("status", .str "skipped"), ("reason", .str problem.message)]

def StageReport.toJson (value : StageReport) : Json :=
  record [("stage", .str value.stage.name), ("status", value.status.toJson)]

end Covenant
