import Covenant.Scan.Issue
import Covenant.Text.Quoted

/-!
Passes that examine a subject and build on each other's results. They run in waves: a pass is in the
first wave behind all passes that it depends on. A pass that fails costs only itself and those that
depend on it.
-/

namespace Covenant

inductive PassError where
  | budgetExhausted (pass : String) (budget : Nat)
  | missingDependency (pass dependency : String)
  | panicked (pass message : String)
  | failure (pass message : String)
deriving DecidableEq, Repr

namespace PassError

def message : PassError → String
  | budgetExhausted pass budget => s!"Pass `{pass}` exhausted its budget of {budget} steps"
  | missingDependency pass dependency => s!"Pass `{pass}` is missing the results of `{dependency}`"
  | panicked pass message => s!"Pass `{pass}` panicked: {message}"
  | failure pass message => s!"Pass `{pass}` failed: {message}"

end PassError

inductive PassStop where
  | failed (problem : PassError)
  | panicked (message : Option String)
deriving DecidableEq, Repr

def PassStop.problem (pass : String) : PassStop → PassError
  | failed problem => problem
  | panicked message => .panicked pass (message.getD "unknown panic")

inductive OrderingError (κ : Type) where
  | repeated (pass : String)
  | missing (pass : String) (dependency : κ)
  | circular (passes : List String)
deriving DecidableEq, Repr

namespace OrderingError

variable {κ : Type}

def reason (keyText : κ → String) : OrderingError κ → String
  | repeated pass => s!"Pass `{pass}` was provided more than once"
  | missing pass dependency =>
    s!"Pass `{pass}` depends on {keyText dependency}, which was not provided"
  | circular passes =>
    "Passes [" ++ ", ".intercalate (passes.map quoteName) ++ "] have circular dependencies"

def message (keyText : κ → String) (error : OrderingError κ) : String :=
  "Invalid Pass Ordering: " ++ error.reason keyText

end OrderingError

abbrev Facts (κ φ : Type) := List (κ × φ)

structure Pass (σ κ φ : Type) where
  key : κ
  name : String
  depends : List κ
  run : σ → Facts κ φ → Nat → Except PassStop (List Issue × φ)

namespace Pass

variable {σ κ φ : Type} [BEq κ]

def isReady (placed : List κ) (pass : Pass σ κ φ) : Bool := pass.depends.all placed.contains

def missing? (provided : List κ) (pass : Pass σ κ φ) : Option κ :=
  pass.depends.find? fun key => !provided.contains key

def repeated? (known : List κ) : List (Pass σ κ φ) → Option (Pass σ κ φ)
  | [] => none
  | pass :: rest =>
    if known.contains pass.key then some pass else repeated? (pass.key :: known) rest

def layer : Nat → List κ → List (Pass σ κ φ) → Except (OrderingError κ) (List (List (Pass σ κ φ)))
  | _, _, [] => .ok []
  | 0, _, blocked => .error (.circular (blocked.map Pass.name))
  | fuel + 1, placed, pass :: rest =>
    let (ready, blocked) := (pass :: rest).partition (isReady placed)
    if ready.isEmpty then .error (.circular (blocked.map Pass.name))
    else do
      let others ← layer fuel (placed ++ ready.map Pass.key) blocked
      return ready :: others

def waves (passes : List (Pass σ κ φ)) : Except (OrderingError κ) (List (List (Pass σ κ φ))) :=
  match repeated? [] passes with
  | some pass => .error (.repeated pass.name)
  | none =>
    match passes.findSome? fun pass => (pass.missing? (passes.map Pass.key)).map (pass.name, ·) with
    | some (pass, dependency) => .error (.missing pass dependency)
    | none => layer passes.length [] passes

def runIsolated (names : List (κ × String)) (subject : σ) (facts : Facts κ φ) (budget : Nat)
    (pass : Pass σ κ φ) : Except PassError (List Issue × φ) :=
  match pass.depends.find? fun key => (facts.lookup key).isNone with
  | some missing => .error (.missingDependency pass.name ((names.lookup missing).getD "unknown"))
  | none => (pass.run subject facts budget).mapError (PassStop.problem pass.name)

def incomplete (error : PassError) : Issue :=
  { location := none, id := Issue.incompleteId, severity := .low, function := none, message :=
    error.message }

def runWave (names : List (κ × String)) (subject : σ) (budget : Nat) (facts : Facts κ φ) :
    List (Pass σ κ φ) → List Issue × Facts κ φ
  | [] => ([], facts)
  | pass :: rest =>
    let (issues, known) := runWave names subject budget facts rest
    match runIsolated names subject facts budget pass with
    | .ok (found, fact) => (found ++ issues, (pass.key, fact) :: known)
    | .error error => (incomplete error :: issues, known)

def runWaves (names : List (κ × String)) (subject : σ) (budget : Nat) :
    Facts κ φ → List (List (Pass σ κ φ)) → List Issue × Facts κ φ
  | facts, [] => ([], facts)
  | facts, wave :: rest =>
    let (issues, known) := runWave names subject budget facts wave
    let (others, final) := runWaves names subject budget known rest
    (issues ++ others, final)

def runAll (subject : σ) (budget : Nat) (waves : List (List (Pass σ κ φ))) :
    List Issue × Facts κ φ :=
  let names := waves.flatten.map fun pass => (pass.key, pass.name)
  let (issues, facts) := runWaves names subject budget [] waves
  (Issue.arrange issues, facts)

def standardBudget : Nat := 1000000

end Pass

end Covenant
