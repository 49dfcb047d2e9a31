import Covenant.Code.Contract
import Covenant.Symbolic.Constraints
import Covenant.Symbolic.Term

/-!
Paths through a function whose inputs are unknown: what a path assumes, what it has written to
storage, and where it stands.
-/

namespace Covenant

structure VerifierLimits where
  maxPaths : Nat
  maxBlocksPerPath : Nat
  loopUnroll : Nat
  maxCallDepth : Nat
  fuel : Nat
  witnessAttempts : Nat
deriving DecidableEq, Repr

def VerifierLimits.standard : VerifierLimits :=
  { maxPaths := 512, maxBlocksPerPath := 512, loopUnroll := 4, maxCallDepth := 8, fuel := 500000,
    witnessAttempts := 4096 }

def VerifierLimits.largest : Nat := Nat.pow 2 64 - 1

inductive Halt where
  | outOfFuel (budget : Nat)
  | tooManyPaths (limit : Nat)
  | tooManyBlocks (limit : Nat)
  | tooManyRounds (limit : Nat)
  | callDepthExceeded (limit : Nat)
  | unknownField (contract field : String)
  | unknownFunction (contract function : String)
  | noResult (function : String)
  | undefinedValue (value : ValueId)
  | missingBlock (function : String) (block : BlockId)
  | divisorOutOfRange
  | overflow (operation : String)
deriving DecidableEq, Repr

namespace Halt

def message : Halt → String
  | outOfFuel budget => s!"the step budget of {budget} was exhausted"
  | tooManyPaths limit => s!"the function has more than {limit} paths"
  | tooManyBlocks limit => s!"a path visits more than {limit} blocks"
  | tooManyRounds limit => s!"a loop runs more than {limit} times"
  | callDepthExceeded limit => s!"internal calls nest deeper than {limit}"
  | unknownField contract field => s!"`{contract}` has no field `{field}`"
  | unknownFunction contract function => s!"`{contract}` has no function `{function}`"
  | noResult function => s!"`{function}` does not return a value"
  | undefinedValue value => s!"value %{value} is used before it is defined"
  | missingBlock function block => s!"`{function}` has no block {block}"
  | divisorOutOfRange => "a divisor is out of range"
  | overflow operation => s!"attempt to {operation} with overflow"

def isFault : Halt → Bool
  | overflow _ => true
  | _ => false

def orOverflow : Option Bool → Except Halt Bool
  | some answer => .ok answer
  | none => .error (.overflow "negate")

end Halt

structure StoreEvent where
  field : String
  key : Option SymbolId
  value : SymbolId
deriving DecidableEq, Repr

structure Visit where
  depth : Nat
  function : String
  block : BlockId
deriving DecidableEq, Repr

/-- What a path assumes and has done: the facts that hold on it, whether storage was empty at its
start, its writes and the blocks it has entered, the last ones first, and how many calls out of the
contract it has made. -/
structure PathState where
  constraints : Constraints
  startsEmpty : Bool
  writes : List StoreEvent
  visits : List Visit
  externals : Nat
deriving DecidableEq, Repr

namespace PathState

def start (startsEmpty : Bool) : PathState :=
  { constraints := Constraints.empty, startsEmpty, writes := [], visits := [], externals := 0 }

def stores (state : PathState) : List StoreEvent := state.writes.reverse

def version (state : PathState) (field : String) : Nat :=
  state.writes.countP fun event => event.field == field

def write (state : PathState) (field : String) (key : Option SymbolId) (value : SymbolId) :
    PathState :=
  { state with writes := ⟨field, key, value⟩ :: state.writes }

def assume (state : PathState) (fact : RangedForm) : Except Halt (PathState × Bool) := do
  let constraints := (state.constraints.declareAll fact.atoms).assume fact.form
  let mayHold ← Halt.orOverflow constraints.isFeasible?
  return ({ state with constraints }, mayHold)

def assumeAll (state : PathState) : List RangedForm → Except Halt (PathState × Bool)
  | [] => .ok (state, true)
  | fact :: rest => do
    let (next, mayHold) ← state.assume fact
    let (last, others) ← next.assumeAll rest
    return (last, mayHold && others)

def linear? (state : PathState) (arena : Arena) (id : SymbolId) : Option (LinearForm × PathState) :=
  (arena.linear? id).map fun ranged =>
    (ranged.form, { state with constraints := state.constraints.declareAll ranged.atoms })

end PathState

/-- A call on a path: its function, the block it is in, the instructions of that block still to run,
the values that the block has defined, and the local variables, of which those that were never set
are zero. -/
structure SymbolicFrame where
  function : Function
  block : BasicBlock
  pending : List (Located Instruction)
  values : List (ValueId × SymbolId)
  locals : List (Option SymbolId)
deriving DecidableEq, Repr

namespace SymbolicFrame

def get? (frame : SymbolicFrame) (value : ValueId) : Except Halt SymbolId :=
  match frame.values.lookup value with
  | some id => .ok id
  | none => .error (.undefinedValue value)

def getOption? (frame : SymbolicFrame) : Option ValueId → Except Halt (Option SymbolId)
  | none => .ok none
  | some value => some <$> frame.get? value

def define (frame : SymbolicFrame) (value : ValueId) (id : SymbolId) : SymbolicFrame :=
  { frame with values := (value, id) :: frame.values }

def localTy (frame : SymbolicFrame) (slot : LocalId) : Ty :=
  match frame.function.locals[slot]? with
  | some entry => entry.ty
  | none => Ty.defaultInteger

def setLocal (frame : SymbolicFrame) (slot : LocalId) (id : SymbolId) : SymbolicFrame :=
  let padded := frame.locals ++ List.replicate (slot + 1 - frame.locals.length) none
  { frame with locals := padded.set slot (some id) }

def enter (frame : SymbolicFrame) (id : BlockId) : Except Halt SymbolicFrame :=
  match frame.function.block? id with
  | some block => .ok { frame with block, pending := block.instructions, values := [] }
  | none => .error (.missingBlock frame.function.name id)

end SymbolicFrame

def Function.symbolicFrame (function : Function) (args : List SymbolId) :
    Except Halt SymbolicFrame :=
  match function.block? function.entry with
  | some block =>
    .ok { function, block, pending := block.instructions, values := []
          locals := args.map some ++ List.replicate (function.locals.length - args.length) none }
  | none => .error (.missingBlock function.name function.entry)

structure SymbolicCaller where
  frame : SymbolicFrame
  dest : Option ValueId
deriving DecidableEq, Repr

structure Path where
  frame : SymbolicFrame
  callers : List SymbolicCaller
  state : PathState
deriving DecidableEq, Repr

namespace Path

def depth (path : Path) : Nat := path.callers.length + 1

/-- Records that the innermost call enters a block, which must keep to the limits. A loop may be
entered once more than it may go round, and the largest limit has no successor. -/
def enter (limits : VerifierLimits) (path : Path) (block : BlockId) : Except Halt Path :=
  let visit : Visit := ⟨path.depth, path.frame.function.name, block⟩
  let visits := visit :: path.state.visits
  if visits.length + 1 > limits.maxBlocksPerPath then
    .error (.tooManyBlocks limits.maxBlocksPerPath)
  else if VerifierLimits.largest ≤ limits.loopUnroll then .error (.overflow "add")
  else if visits.count visit > limits.loopUnroll + 1 then .error (.tooManyRounds limits.loopUnroll)
  else .ok { path with state := { path.state with visits } }

def goto (limits : VerifierLimits) (path : Path) (block : BlockId) : Except Halt Path := do
  let entered ← path.enter limits block
  let frame ← path.frame.enter block
  return { entered with frame }

def define (path : Path) (value : ValueId) (id : SymbolId) : Path :=
  { path with frame := path.frame.define value id }

end Path

structure PathEnd where
  state : PathState
  returned : Option SymbolId
deriving DecidableEq, Repr

end Covenant
