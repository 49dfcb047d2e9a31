import Covenant.Run.Evaluate
import Covenant.Run.Report

/-!
Running code step by step. A step runs one instruction or the end of one block and takes one unit of
fuel. A call of a function of the contract puts a frame on top of the others, a return takes it
away.
-/

namespace Covenant

structure Cell where
  value : Nat
  tainted : Bool
deriving DecidableEq, Repr, Inhabited

namespace Cell

def clean (value : Nat) : Cell := ⟨value, false⟩

end Cell

/-- A call that is running: its function, the block it is in, the instructions of that block still
to run, the values that the block has defined, and the local variables. -/
structure Frame where
  function : Function
  block : BasicBlock
  pending : List (Located Instruction)
  values : List (ValueId × Cell)
  locals : List Cell

namespace Frame

def get? (frame : Frame) (value : ValueId) : Except ExecutionError Cell :=
  match frame.values.lookup value with
  | some cell => .ok cell
  | none => .error (.malformed s!"value %{value} is used before it is defined")

def define (frame : Frame) (value : ValueId) (cell : Cell) : Frame :=
  { frame with values := (value, cell) :: frame.values }

def enter (frame : Frame) (id : BlockId) : Except ExecutionError Frame :=
  match frame.function.block? id with
  | some block => .ok { frame with block, pending := block.instructions, values := [] }
  | none => .error (.malformed s!"`{frame.function.name}` has no block {id}")

def place (frame : Frame) (field : String) : Option ValueId → Except ExecutionError StorageKey
  | none => .ok ⟨field, none⟩
  | some key => do
    let cell ← frame.get? key
    return ⟨field, some cell.value⟩

end Frame

def Function.frame (function : Function) (args : List Cell) : Except ExecutionError Frame :=
  match function.block? function.entry with
  | some block =>
    let count := function.locals.length
    .ok { function, block, pending := block.instructions, values := []
          locals := args.take count ++ List.replicate (count - args.length) (.clean 0) }
  | none => .error (.malformed s!"`{function.name}` has no block {function.entry}")

structure Effects where
  storage : Storage
  tainted : List StorageKey
  trace : List TraceStep
  events : List EmittedEvent
  stores : List StoreRecord
  calls : List ExternalCallRecord

namespace Effects

def start (storage : Storage) : Effects :=
  { storage, tainted := [], trace := [], events := [], stores := [], calls := [] }

def record (effects : Effects) (frame : Frame) (location : Location) (action : Action) : Effects :=
  let step := { function := frame.function.name, block := frame.block.id, location, action }
  { effects with trace := step :: effects.trace }

def load (effects : Effects) (place : StorageKey) : Cell :=
  ⟨effects.storage.get place, effects.tainted.contains place⟩

def store (effects : Effects) (place : StorageKey) (cell : Cell) : Effects :=
  { effects with
    storage := Storage.put place cell.value effects.storage
    tainted :=
      if cell.tainted then
        if effects.tainted.contains place then effects.tainted else place :: effects.tainted
      else effects.tainted.erase place
    stores := ⟨place, cell.value, cell.tainted⟩ :: effects.stores }

end Effects

structure Caller where
  frame : Frame
  dest : Option ValueId

structure Running where
  frame : Frame
  callers : List Caller
  effects : Effects

inductive Ending where
  | returned (value : Option Cell)
  | reverted (message : Option String)
deriving DecidableEq, Repr

inductive Step where
  | running (next : Running)
  | ended (ending : Ending) (effects : Effects)

structure Setting where
  contract : Contract
  env : Environment
  callsSucceed : Bool
  depthLimit : Nat

namespace Running

def goOn (state : Running) (frame : Frame) (effects : Effects) : Except ExecutionError Step :=
  .ok (.running { state with frame, effects })

def giveBack (state : Running) (value : Option Cell) (effects : Effects) : Step :=
  match state.callers with
  | [] => .ended (.returned value) effects
  | caller :: callers =>
    let frame := match caller.dest with
      | some dest => caller.frame.define dest (value.getD (.clean 0))
      | none => caller.frame
    .running { frame, callers, effects }

def enterCall (setting : Setting) (state : Running) (frame : Frame) (location : Location)
    (dest : Option ValueId) (name : String) (args : List ValueId) : Except ExecutionError Step :=
  match setting.contract.function? name with
  | none => .error (.unknownFunction name)
  | some callee => do
    let cells ← args.mapM frame.get?
    let effects := state.effects.record frame location (.call name)
    if state.callers.length + 1 > setting.depthLimit then
      .error (.callDepthExceeded setting.depthLimit)
    else
      let inner ← callee.frame cells
      return .running { frame := inner, callers := ⟨frame, dest⟩ :: state.callers, effects }

def instruction (setting : Setting) (state : Running) (frame : Frame) (location : Location) :
    Instruction → Except ExecutionError Step
  | .const dest value _ => state.goOn (frame.define dest (.clean value)) state.effects
  | .env dest var => state.goOn (frame.define dest (.clean (setting.env.get var))) state.effects
  | .loadLocal dest slot =>
    match frame.locals[slot]? with
    | some cell => state.goOn (frame.define dest cell) state.effects
    | none => .error (.malformed s!"local {slot} does not exist")
  | .storeLocal slot value => do
    let cell ← frame.get? value
    if slot < frame.locals.length then
      let name := match frame.function.locals[slot]? with
        | some entry => entry.name
        | none => "?"
      state.goOn { frame with locals := frame.locals.set slot cell }
        (state.effects.record frame location (.setLocal name cell.value))
    else .error (.malformed s!"local {slot} does not exist")
  | .loadField dest field key => do
    let place ← frame.place field key
    state.goOn (frame.define dest (state.effects.load place)) state.effects
  | .storeField field key value => do
    let place ← frame.place field key
    let cell ← frame.get? value
    let effects := state.effects.record frame location (.setStorage place cell.value)
    state.goOn frame (effects.store place cell)
  | .binary dest op ty lhs rhs => do
    let left ← frame.get? lhs
    let right ← frame.get? rhs
    match op.eval? ty left.value right.value with
    | none =>
      return .ended (.reverted (some "division by zero"))
        (state.effects.record frame location .divisionByZero)
    | some value =>
      let wrapped := op == .sub && left.value < right.value
      state.goOn (frame.define dest ⟨value, left.tainted || right.tainted || wrapped⟩) state.effects
  | .not dest operand => do
    let cell ← frame.get? operand
    state.goOn (frame.define dest (.clean (ofBool (cell.value == 0)))) state.effects
  | .call dest name args => state.enterCall setting frame location dest name args
  | .externalCall dest kind target amount => do
    let receiver ← frame.get? target
    let value ← frame.get? amount
    let action := Action.externalCall kind receiver.value value.value setting.callsSucceed
    let effects := state.effects.record frame location action
    let effects := { effects with calls := ⟨kind, receiver.value, value.value⟩ :: effects.calls }
    if kind == .transfer && !setting.callsSucceed then
      return .ended (.reverted (some "transfer failed")) effects
    else state.goOn (frame.define dest (.clean (ofBool setting.callsSucceed))) effects
  | .emit event args => do
    let cells ← args.mapM frame.get?
    let effects := state.effects.record frame location (.emit event)
    state.goOn frame { effects with events := ⟨event, cells.map Cell.value⟩ :: effects.events }

def terminator (state : Running) (location : Location) : Terminator → Except ExecutionError Step
  | .jump target => do
    let frame ← state.frame.enter target
    state.goOn frame state.effects
  | .branch condition thenBlock elseBlock => do
    let cell ← state.frame.get? condition
    let taken := cell.value != 0
    let effects := state.effects.record state.frame location (.branch taken)
    let frame ← state.frame.enter (if taken then thenBlock else elseBlock)
    state.goOn frame effects
  | .guard condition kind message next => do
    let cell ← state.frame.get? condition
    let holds := cell.value != 0
    let effects := state.effects.record state.frame location (.guard kind holds)
    if holds then
      let frame ← state.frame.enter next
      state.goOn frame effects
    else return .ended (.reverted message) effects
  | .ret none =>
    .ok (state.giveBack none (state.effects.record state.frame location (.ret none)))
  | .ret (some value) => do
    let cell ← state.frame.get? value
    let effects := state.effects.record state.frame location (.ret (some cell.value))
    return state.giveBack (some cell) effects
  | .revert message =>
    .ok (.ended (.reverted message) (state.effects.record state.frame location .revert))

def step (setting : Setting) (state : Running) : Except ExecutionError Step :=
  match state.frame.pending with
  | next :: rest =>
    state.instruction setting { state.frame with pending := rest } next.location next.node
  | [] => state.terminator state.frame.block.terminator.location state.frame.block.terminator.node

def run (setting : Setting) (budget : Nat) :
    Nat → Running → Except ExecutionError (Ending × Effects)
  | 0, _ => .error (.outOfFuel budget)
  | fuel + 1, state =>
    match state.step setting with
    | .error problem => .error problem
    | .ok (.ended ending effects) => .ok (ending, effects)
    | .ok (.running next) => run setting budget fuel next

end Running

end Covenant
