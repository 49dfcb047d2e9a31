import Covenant.Chain.Profile
import Covenant.Code.FlowGraph

/-!
The most gas that calls can use: the cost of the most expensive path through a function, every loop
running its whole body a fixed number of times and every call inside the contract costing what its
function can cost. A call of a function that is being estimated already costs no more than the call
itself. Amounts stop growing at the largest machine word.
-/

namespace Covenant

def gasCeiling : Nat := Nat.pow 2 64 - 1

def gasAdd (left right : Nat) : Nat := min (left + right) gasCeiling

def gasMul (left right : Nat) : Nat := min (left * right) gasCeiling

structure GasSetting where
  contract : Contract
  schedule : GasSchedule
  loopBound : Nat

abbrev GasTable := List (String × Nat)

namespace GasSetting

def ownCost (setting : GasSetting) : Instruction → Nat
  | .loadField _ _ _ => setting.schedule.storageRead
  | .storeField _ _ _ => setting.schedule.storageWrite
  | .externalCall _ _ _ _ => setting.schedule.externalCall
  | .emit _ args => gasAdd setting.schedule.event (gasMul setting.schedule.eventArg args.length)
  | .call _ _ _ => setting.schedule.internalCall
  | _ => setting.schedule.operation

def endCost (setting : GasSetting) : Terminator → Nat
  | .branch _ _ _ => setting.schedule.branch
  | .guard _ _ _ _ => setting.schedule.branch
  | _ => 0

def blockCost (setting : GasSetting) (callee : GasTable → Function → Nat × GasTable)
    (table : GasTable) (block : BasicBlock) : Nat × GasTable :=
  block.instructions.foldl (fun (total, table) instruction =>
    match instruction.node with
    | .call _ name _ =>
      match setting.contract.function? name with
      | some function =>
        let (cost, table) := callee table function
        (gasAdd total (gasAdd (setting.ownCost instruction.node) cost), table)
      | none => (gasAdd total (setting.ownCost instruction.node), table)
    | node =>
      (gasAdd total (setting.ownCost node), table)) (setting.endCost block.terminator.node, table)

def blockCosts (setting : GasSetting) (callee : GasTable → Function → Nat × GasTable)
    (table : GasTable) :
    List BasicBlock → List Nat × GasTable
  | [] => ([], table)
  | block :: rest =>
    let (cost, table) := setting.blockCost callee table block
    let (costs, table) := setting.blockCosts callee table rest
    (cost :: costs, table)

def loopCost (setting : GasSetting) (graph : FlowGraph) (backEdges : List (BlockId × BlockId))
    (costs : List Nat) (block : BlockId) : Nat :=
  backEdges.foldl (fun total edge =>
    if edge.2 == block then
      let body := (graph.naturalLoop edge.1 edge.2).foldl
        (fun sum inner => gasAdd sum (costs.getD inner 0)) 0
      gasAdd total (gasMul body setting.loopBound)
    else total) 0

def pathCosts (setting : GasSetting) (graph : FlowGraph) (costs : List Nat) :
    List (BlockId × Nat) :=
  let backEdges := graph.backEdges
  graph.reversePostorder.foldr (fun block found =>
    let next := ((graph.successors block).filter fun target => !backEdges.contains
      (block, target)).foldl (fun worst target => max worst ((found.lookup target).getD 0)) 0
    let here := gasAdd (costs.getD block 0) (setting.loopCost graph backEdges costs block)
    (block, gasAdd here next) :: found) []

def graphCost (setting : GasSetting) (graph : FlowGraph) (costs : List Nat) : Nat :=
  ((setting.pathCosts graph costs).lookup graph.entry).getD 0

def functionCost (setting : GasSetting) : Nat → List String → GasTable → Function → Nat × GasTable
  | 0, _, table, _ => (0, table)
  | fuel + 1, active, table, function =>
    match table.lookup function.name with
    | some cost => (cost, table)
    | none =>
      if active.contains function.name then (0, table)
      else
        let (costs, table) := setting.blockCosts
          (fun table callee => setting.functionCost fuel (function.name :: active) table callee)
          table function.blocks
        let cost := setting.graphCost (FlowGraph.ofFunction function) costs
        (cost, (function.name, cost) :: table)

def transaction (setting : GasSetting) (table : GasTable) (function : Function) : Nat × GasTable :=
  let (cost, table) := setting.functionCost (setting.contract.functions.length + 1)
    [] table function
  (gasAdd setting.schedule.base cost, table)

def transactions (setting : GasSetting) : GasTable → List Function → List (Function × Nat)
  | _, [] => []
  | table, function :: rest =>
    let (gas, table) := setting.transaction table function
    (function, gas) :: setting.transactions table rest

end GasSetting

structure GasReport where
  chain : String
  gasLimit : Nat
  functions : List (String × Nat)
deriving DecidableEq, Repr

namespace GasReport

def put (name : String) (gas : Nat) : List (String × Nat) → List (String × Nat)
  | [] => [(name, gas)]
  | (first, held) :: rest =>
    if name < first then (name, gas) :: (first, held) :: rest
    else if name = first then (name, gas) :: rest
    else (first, held) :: put name gas rest

def mostExpensive? (report : GasReport) : Option (String × Nat) :=
  report.functions.foldl (fun worst entry =>
    match worst with
    | none => some entry
    | some held => if held.2 ≤ entry.2 then some entry else some held) none

def efficiency (report : GasReport) : Nat :=
  match report.mostExpensive? with
  | none => 100
  | some (_, worst) =>
    if report.gasLimit = 0 || worst ≥ report.gasLimit then 0
    else 100 - worst * 100 / report.gasLimit

end GasReport

namespace ContractSet

def gasReport (set : ContractSet) (profile : ChainProfile) (loopBound : Nat) : GasReport :=
  let amounts := set.contracts.flatMap fun contract =>
    (GasSetting.transactions ⟨contract, profile.gas, loopBound⟩ [] contract.entryPoints).map
      fun (function, gas) => (contract.name ++ "." ++ function.name, gas)
  { chain := profile.name, gasLimit := profile.gasLimit
    functions := amounts.foldl (fun table entry => GasReport.put entry.1 entry.2 table) [] }

end ContractSet

end Covenant
