import Covenant.Bytecode.Optimizer
import Covenant.Chain.Simulation
import Covenant.Completion.Settings
import Covenant.Scan.Pass
import Covenant.Symbolic.Path

/-!
The settings of the engine. A record of settings need only mention what it changes.
-/

namespace Covenant

structure EngineSettings where
  passFuel : Nat
  verifier : VerifierLimits
  optimizer : Bytecode.OptimizerLimits
  loopBound : Nat
  completion : CompletionSettings
deriving DecidableEq, Repr

open Json in
def VerifierLimits.ofJson? (value : Json) : Option VerifierLimits := do
  match ← fieldValues? ["max_paths", "max_blocks_per_path", "loop_unroll", "max_call_depth", "fuel",
      "witness_attempts"] value with
  | [maxPaths, maxBlocksPerPath, loopUnroll, maxCallDepth, fuel, witnessAttempts] =>
    return {
      maxPaths := ← orDefault word? standard.maxPaths maxPaths
      maxBlocksPerPath := ← orDefault word? standard.maxBlocksPerPath maxBlocksPerPath
      loopUnroll := ← orDefault word? standard.loopUnroll loopUnroll
      maxCallDepth := ← orDefault word? standard.maxCallDepth maxCallDepth
      fuel := ← orDefault word? standard.fuel fuel
      witnessAttempts := ← orDefault word? standard.witnessAttempts witnessAttempts }
  | _ => none

open Json in
def Bytecode.OptimizerLimits.ofJson? (value : Json) : Option Bytecode.OptimizerLimits := do
  match ← fieldValues? ["max_rounds", "probe_fuel"] value with
  | [maxRounds, probeFuel] =>
    return {
      maxRounds := ← orDefault word? standard.maxRounds maxRounds
      probeFuel := ← orDefault word? standard.probeFuel probeFuel }
  | _ => none

namespace EngineSettings

def standard : EngineSettings :=
  { passFuel := Pass.standardBudget, verifier := .standard, optimizer := .standard
    loopBound := ContractSet.standardLoopBound, completion := .standard }

open Json in
def wordField? (name : String) (default : Nat) (value : Json) : Option Nat := do
  match ← fieldValues? [name] value with
  | [field] => orDefault word? default field
  | _ => none

open Json in
def ofJson? (value : Json) : Option EngineSettings := do
  match ← fieldValues? ["scanner", "verifier", "optimizer", "simulation", "completion"] value with
  | [scanner, verifier, optimizer, simulation, completion] =>
    return {
      passFuel := ← orDefault (wordField? "pass_fuel" standard.passFuel) standard.passFuel scanner
      verifier := ← orDefault VerifierLimits.ofJson? standard.verifier verifier
      optimizer := ← orDefault Bytecode.OptimizerLimits.ofJson? standard.optimizer optimizer
      loopBound := ← orDefault (wordField? "loop_bound" standard.loopBound)
        standard.loopBound simulation
      completion := ← orDefault CompletionSettings.ofJson? standard.completion completion }
  | _ => none

def ofText? (text : String) : Option EngineSettings := Json.decode? ofJson? text

end EngineSettings

end Covenant
