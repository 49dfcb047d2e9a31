import Covenant.Bytecode.Op

/-!
The machine that runs programs. Two programs behave alike on an input if they give equal
observations; the number of steps and the depth of the stack are not observed.
-/

namespace Covenant

namespace Bytecode

abbrev Slots := List (UInt32 × UInt64)

namespace Slots

def get (slots : Slots) (slot : UInt32) : UInt64 := (slots.lookup slot).getD 0

def put (slot : UInt32) (value : UInt64) : Slots → Slots
  | [] => [(slot, value)]
  | (first, held) :: rest =>
    if first == slot then (slot, value) :: rest
    else if slot < first then (slot, value) :: (first, held) :: rest
    else (first, held) :: put slot value rest

def ofEntries (entries : List (UInt32 × UInt64)) : Slots :=
  entries.foldl (fun slots entry => put entry.1 entry.2 slots) []

end Slots

structure MachineInput where
  args : List UInt64
  caller : UInt64
  timestamp : UInt64
  value : UInt64
  storage : Slots
deriving DecidableEq, Repr

namespace MachineInput

def zero : MachineInput := { args := [], caller := 0, timestamp := 0, value := 0, storage := [] }

end MachineInput

inductive Fault where
  | stackUnderflow
  | stackOverflow
deriving DecidableEq, Repr

inductive Outcome where
  | stopped
  | returned
  | reverted
  | fault (fault : Fault)
  | outOfFuel
deriving DecidableEq, Repr

inductive Effect where
  | event (topic : UInt8) (value : UInt64)
  | transfer (target amount : UInt64)
deriving DecidableEq, Repr

structure Observation where
  outcome : Outcome
  storageDelta : Slots
  effects : List Effect
  returnValue : Option UInt64
deriving DecidableEq, Repr

def stackLimit : Nat := 1024

structure MachineState where
  next : Nat
  stack : List UInt64
  storage : Slots
  effects : List Effect
deriving DecidableEq, Repr

inductive Halt where
  | committed (outcome : Outcome) (value : Option UInt64)
  | discarded (outcome : Outcome)
deriving DecidableEq, Repr

inductive MachineStep where
  | running (state : MachineState)
  | halted (halt : Halt) (state : MachineState)

namespace MachineState

def fault (state : MachineState) (fault : Fault) : MachineStep :=
  .halted (.discarded (.fault fault)) state

def push (state : MachineState) (stack : List UInt64) (value : UInt64) : MachineStep :=
  if stack.length ≥ stackLimit then state.fault .stackOverflow
  else .running { state with stack := value :: stack }

def run (input : MachineInput) (state : MachineState) : Op → MachineStep
  | .stop => .halted (.committed .stopped none) state
  | .binary op =>
    match state.stack with
    | rhs :: lhs :: rest => state.push rest (op.eval lhs rhs)
    | _ => state.fault .stackUnderflow
  | .unary op =>
    match state.stack with
    | operand :: rest => state.push rest (op.eval operand)
    | _ => state.fault .stackUnderflow
  | .pop =>
    match state.stack with
    | _ :: rest => .running { state with stack := rest }
    | _ => state.fault .stackUnderflow
  | .dup =>
    match state.stack with
    | top :: rest => state.push (top :: rest) top
    | _ => state.fault .stackUnderflow
  | .swap =>
    match state.stack with
    | first :: second :: rest => .running { state with stack := second :: first :: rest }
    | _ => state.fault .stackUnderflow
  | .push value _ => state.push state.stack value
  | .load slot _ => state.push state.stack (state.storage.get slot)
  | .store slot _ =>
    match state.stack with
    | value :: rest =>
      .running { state with stack := rest, storage := state.storage.put slot value }
    | _ => state.fault .stackUnderflow
  | .arg index => state.push state.stack (input.args.getD index.toNat 0)
  | .caller => state.push state.stack input.caller
  | .timestamp => state.push state.stack input.timestamp
  | .callValue => state.push state.stack input.value
  | .jump target => .running { state with next := target }
  | .jumpIf target =>
    match state.stack with
    | condition :: rest =>
      .running { state with stack := rest, next := if condition = 0 then state.next else target }
    | _ => state.fault .stackUnderflow
  | .jumpDest => .running state
  | .emit topic =>
    match state.stack with
    | value :: rest =>
      .running { state with stack := rest, effects := .event topic value :: state.effects }
    | _ => state.fault .stackUnderflow
  | .call =>
    match state.stack with
    | amount :: target :: rest =>
      { state with effects := .transfer target amount :: state.effects }.push rest 1
    | _ => state.fault .stackUnderflow
  | .ret =>
    match state.stack with
    | value :: _ => .halted (.committed .returned (some value)) state
    | _ => state.fault .stackUnderflow
  | .revert => .halted (.discarded .reverted) state

def runFor (code : Array Op) (input : MachineInput) : Nat → MachineState → Halt × MachineState
  | fuel, state =>
    match code[state.next]? with
    | none => (.committed .stopped none, state)
    | some op =>
      match fuel with
      | 0 => (.discarded .outOfFuel, state)
      | fuel + 1 =>
        match run input { state with next := state.next + 1 } op with
        | .halted halt final => (halt, final)
        | .running next => runFor code input fuel next

end MachineState

namespace Program

def delta (before after : Slots) : Slots := after.filter fun entry => before.get entry.1 != entry.2

def observe (program : Program) (fuel : Nat) (input : MachineInput) : Observation :=
  let start : MachineState := { next := 0, stack := [], storage := input.storage, effects := [] }
  match MachineState.runFor program.ops.toArray input fuel start with
  | (.committed outcome value, final) =>
    { outcome, storageDelta := delta input.storage final.storage, effects := final.effects.reverse,
      returnValue := value }
  | (.discarded outcome, _) => { outcome, storageDelta := [], effects := [], returnValue := none }

def standardFuel : Nat := 100000

end Program

end Bytecode

end Covenant
