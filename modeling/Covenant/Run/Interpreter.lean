import Covenant.Run.Machine

/-!
Calling a function of a contract. A call is a transaction: if it reverts, nothing it did to storage,
no event and no call out of the contract remains.
-/

namespace Covenant

structure RunLimits where
  fuel : Nat
  callDepth : Nat
deriving DecidableEq, Repr

namespace RunLimits

def standard : RunLimits := ⟨100000, 8⟩

end RunLimits

namespace Inputs

def empty : Inputs := { args := [], env := Environment.zero, storage := [], callsSucceed := true }

end Inputs

namespace Contract

def report (initial : Storage) : Ending → Effects → Report
  | .returned value, effects =>
    { result := .returned (value.map Cell.value)
      trace := effects.trace.reverse
      storage := effects.storage
      events := effects.events.reverse
      stores := effects.stores.reverse
      calls := effects.calls.reverse }
  | .reverted message, effects =>
    { result := .reverted message, trace := effects.trace.reverse, storage := initial, events := [],
      stores := [], calls := [] }

def run (contract : Contract) (limits : RunLimits) (name : String) (inputs : Inputs) :
    Except ExecutionError Report :=
  match contract.function? name with
  | none => .error (.unknownFunction name)
  | some function =>
    if function.params.length != inputs.args.length then
      .error (.arityMismatch name function.params.length inputs.args.length)
    else do
      let args := List.zipWith (fun (param : String × Ty) arg => Cell.clean (param.2.wrap arg))
        function.params inputs.args
      let frame ← function.frame args
      let setting : Setting :=
        { contract, env := inputs.env, callsSucceed := inputs.callsSucceed, depthLimit :=
          limits.callDepth }
      let (ending, effects) ← Running.run setting limits.fuel limits.fuel
        { frame, callers := [], effects := Effects.start inputs.storage }
      return report inputs.storage ending effects

end Contract

end Covenant
