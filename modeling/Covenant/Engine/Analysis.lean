import Covenant.Engine.Assessment
import Covenant.Engine.Settings
import Covenant.Lowering.Contract
import Covenant.Suite.Generator
import Covenant.Syntax.Program

/-!
The engine as a whole: everything that can be said about a source text. A stage that cannot finish
says why, and the stages behind it go on with what it did give.
-/

namespace Covenant

inductive StageProblem where
  | syntaxErrors (count : Nat)
  | semanticErrors (count : Nat)
  | incompletePasses (count : Nat)
  | undecidedProperties (count : Nat)
  | nothingToAnalyze
deriving DecidableEq, Repr

def StageProblem.message : StageProblem → String
  | syntaxErrors count => s!"{count} syntax error(s)"
  | semanticErrors count => s!"{count} semantic error(s)"
  | incompletePasses count => s!"{count} pass(es) did not complete"
  | undecidedProperties count => s!"{count} propert(ies) could not be decided"
  | nothingToAnalyze => "there is nothing to analyze"

inductive StageStatus where
  | completed
  | degraded (problem : StageProblem)
  | skipped (problem : StageProblem)
deriving DecidableEq, Repr

namespace StageStatus

def ofCount (problem : Nat → StageProblem) (count : Nat) : StageStatus :=
  if count = 0 then completed else degraded (problem count)

end StageStatus

inductive Stage where
  | parse
  | lower
  | scan
  | verify
deriving DecidableEq, Repr

def Stage.name : Stage → String
  | parse => "parse"
  | lower => "lower"
  | scan => "scan"
  | verify => "verify"

structure StageReport where
  stage : Stage
  status : StageStatus
deriving DecidableEq, Repr

def StageReport.text (report : StageReport) : String :=
  match report.status with
  | .completed => s!"{report.stage.name}: completed"
  | .degraded problem => s!"{report.stage.name}: degraded ({problem.message})"
  | .skipped problem => s!"{report.stage.name}: skipped ({problem.message})"

structure Analysis where
  issues : List Issue
  verification : List Verification
  diagnostics : List Diagnostic
  semanticErrors : List SemanticError
  gas : Option GasReport
  assessment : Assessment
  stages : List StageReport
deriving DecidableEq, Repr

namespace Analysis

def isComplete (analysis : Analysis) : Bool :=
  analysis.stages.all fun report => report.status == .completed

end Analysis

inductive EngineError where
  | syntaxErrors (problems : List Diagnostic)
  | semanticErrors (problems : List SemanticError)
  | fault (halt : Halt)
deriving DecidableEq, Repr

namespace EngineError

def message : EngineError → String
  | syntaxErrors problems => s!"Source contained {problems.length} syntax error(s)"
  | semanticErrors problems => s!"Source contained {problems.length} semantic error(s)"
  | fault halt => halt.message

end EngineError

structure Engine where
  settings : EngineSettings
  registry : ChainRegistry

namespace Engine

def homeChain : String := "Aurlink VM"

def lowerParts (text : String) : Except EngineError Lowering.Outcome :=
  let outcome := SyntaxTree.read text
  if outcome.problems.isEmpty then .ok (outcome.tree.lower (LineTable.ofText text))
  else .error (.syntaxErrors outcome.problems)

def lower (text : String) : Except EngineError ContractSet := do
  let outcome ← lowerParts text
  if outcome.problems.isEmpty then return outcome.set else throw (.semanticErrors outcome.problems)

def propertiesFor (set : ContractSet) (properties : List Property) : List Property :=
  properties ++ (Property.infer set).filter fun property => !properties.contains property

/-- Analyzes a source text: scans what can be understood of it and verifies the given properties and
those that it evidently means to have. A fault of the verifier leaves no answer. -/
def analyze (engine : Engine) (text : String) (properties : List Property) : Except Halt Analysis :=
  do
  let parsed := SyntaxTree.read text
  let lowered := parsed.tree.lower (LineTable.ofText text)
  let set := lowered.set
  let parse := StageReport.mk .parse (.ofCount .syntaxErrors parsed.problems.length)
  let lower := StageReport.mk .lower (.ofCount .semanticErrors lowered.problems.length)
  if set.contracts.isEmpty then
    return {
      issues := [], verification := [], diagnostics := parsed.problems
      semanticErrors := lowered.problems, gas := none, assessment := Assessment.ofIssues [] none
      stages := [parse, lower, ⟨.scan, .skipped .nothingToAnalyze⟩,
        ⟨.verify, .skipped .nothingToAnalyze⟩] }
  else
    let issues := set.allIssues engine.settings.passFuel
    let results ← set.verify engine.settings.verifier (propertiesFor set properties)
    let gas := (engine.registry.profile? homeChain).map fun profile =>
      set.gasReport profile engine.settings.loopBound
    let undecided := results.countP fun result =>
      match result.verdict with
      | .unknown _ => true
      | _ => false
    return {
      issues, verification := results, diagnostics := parsed.problems
      semanticErrors := lowered.problems, gas, assessment := Assessment.ofIssues issues gas
      stages := [parse, lower, ⟨.scan, .ofCount .incompletePasses (issues.countP Issue.isAdvisory)⟩,
        ⟨.verify, .ofCount .undecidedProperties undecided⟩] }

def generateTests (engine : Engine) (text : String) :
    Except EngineError (TestSuite × List SemanticError) := do
  let outcome ← lowerParts text
  let suite ← (outcome.set.generateTests engine.settings.passFuel engine.settings.verifier).mapError
    .fault
  return (suite, outcome.problems)

def simulate (engine : Engine) (text : String) (chains : List String) :
    Except EngineError (List (String × Simulation) × List SemanticError) := do
  let outcome ← lowerParts text
  return (outcome.set.simulate engine.registry engine.settings.loopBound chains, outcome.problems)

end Engine

end Covenant
