import Covenant.Chain.Gas

/-!
Whether contracts can run on chains: whether a chain can represent the addresses and integers that
they use, has the events and transfers that they rely on, and allows the gas that they may need.
-/

namespace Covenant

inductive Discrepancy where
  | unknownChain (chain : String)
  | addressTooWide (contract chain : String) (width : Nat)
  | integerTooWide (contract chain : String) (widest width : Nat)
  | noEvents (contract function chain : String)
  | noCurrency (contract function chain : String)
  | tooMuchGas (contract function chain : String) (gas limit : Nat)
deriving DecidableEq, Repr

def Discrepancy.message : Discrepancy → String
  | unknownChain chain => s!"No profile is known for chain `{chain}`"
  | addressTooWide contract chain width =>
    s!"{contract} uses {Ty.addressWidth}-bit addresses but {chain} addresses are {width} bits wide"
  | integerTooWide contract chain widest width =>
    s!"{contract} uses u{widest} but {chain} integers are at most {width} bits wide"
  | noEvents contract function chain => s!"{contract}.{function} emits events but {chain} has none"
  | noCurrency contract function chain =>
    s!"{contract}.{function} moves native value but {chain} has no native currency"
  | tooMuchGas contract function chain gas limit =>
    s!"{contract}.{function} needs up to {gas} gas but {chain} allows {limit} per transaction"

structure Simulation where
  discrepancies : List Discrepancy
deriving DecidableEq, Repr

def Simulation.passed (simulation : Simulation) : Bool := simulation.discrepancies.isEmpty

def Ty.parts : Ty → List Ty
  | .map key value => key.parts ++ value.parts
  | ty => [ty]

namespace Function

def types (function : Function) : List Ty :=
  let used := function.instructions.filterMap fun (_, instruction) =>
    match instruction.node with
    | .env _ .sender => some Ty.address
    | .env _ .origin => some Ty.address
    | .binary _ _ ty _ _ => some ty
    | .const _ _ ty => some ty
    | _ => none
  function.params.map (fun param => param.2) ++ function.returns.toList ++
    function.locals.map (fun entry => entry.ty) ++ used

def emitsEvents (function : Function) : Bool :=
  function.instructions.any fun (_, instruction) =>
    match instruction.node with
    | .emit _ _ => true
    | _ => false

def movesValue (function : Function) : Bool :=
  function.instructions.any fun (_, instruction) =>
    match instruction.node with
    | .externalCall _ _ _ _ => true
    | .env _ .value => true
    | _ => false

end Function

namespace Contract

def types (contract : Contract) : List Ty :=
  (contract.fields.map (fun field => field.ty) ++
    (contract.events.flatMap fun event => event.params.map fun param => param.2) ++
    contract.functions.flatMap Function.types).flatMap Ty.parts

def widestInteger? (contract : Contract) : Option Nat :=
  ((contract.types.filter Ty.isInteger).map Ty.width).max?

def widthDiscrepancies (contract : Contract) (profile : ChainProfile) : List Discrepancy :=
  let address :=
    if contract.types.contains .address && profile.addressWidth < Ty.addressWidth then
      [Discrepancy.addressTooWide contract.name profile.name profile.addressWidth]
    else []
  let integer := match contract.widestInteger? with
    | some widest =>
      if widest > profile.maxIntegerWidth then
        [.integerTooWide contract.name profile.name widest profile.maxIntegerWidth]
      else []
    | none => []
  address ++ integer

def functionDiscrepancies (contract : Contract) (profile : ChainProfile) (function : Function)
    (gas : Nat) :
    List Discrepancy :=
  (if function.emitsEvents && !profile.supportsEvents then
    [.noEvents contract.name function.name profile.name] else []) ++
  (if function.movesValue && !profile.nativeValueTransfer then
    [.noCurrency contract.name function.name profile.name] else []) ++
  (if gas > profile.gasLimit then
    [.tooMuchGas contract.name function.name profile.name gas profile.gasLimit] else [])

def discrepancies (contract : Contract) (profile : ChainProfile) (loopBound : Nat) :
    List Discrepancy :=
  contract.widthDiscrepancies profile ++
    (GasSetting.transactions ⟨contract, profile.gas, loopBound⟩ [] contract.entryPoints).flatMap
      fun (function, gas) => contract.functionDiscrepancies profile function gas

end Contract

namespace ContractSet

def standardLoopBound : Nat := 16

def simulateOn (set : ContractSet) (registry : ChainRegistry) (loopBound : Nat) (chain : String) :
    Simulation :=
  match registry.profile? chain with
  | none => ⟨[.unknownChain chain]⟩
  | some profile => ⟨set.contracts.flatMap fun contract => contract.discrepancies profile loopBound⟩

def simulate (set : ContractSet) (registry : ChainRegistry) (loopBound : Nat)
    (chains : List String) :
    List (String × Simulation) :=
  chains.eraseDups.map fun chain => (chain, set.simulateOn registry loopBound chain)

end ContractSet

end Covenant
