import Covenant.Code.FlowGraph
import Covenant.Code.Provenance
import Covenant.Number
import Covenant.Scan.Names

/-!
What each function does to storage and to the world outside, including all that the functions it
calls do, and whether it always compares the sender with a stored address before it returns.
-/

namespace Covenant

structure Effect where
  reads : Names
  writes : Names
  sharedWrites : Names
  externalCalls : Bool
deriving DecidableEq, Repr

namespace Effect

def none : Effect := ⟨[], [], [], false⟩

def join (left right : Effect) : Effect :=
  { reads := left.reads.join right.reads
    writes := left.writes.join right.writes
    sharedWrites := left.sharedWrites.join right.sharedWrites
    externalCalls := left.externalCalls || right.externalCalls }

def size (effect : Effect) : Nat × Nat × Nat × Bool :=
  (effect.reads.length, effect.writes.length, effect.sharedWrites.length, effect.externalCalls)

end Effect

structure Summary where
  name : String
  effect : Effect
  callees : Names
  checksSender : Bool
deriving DecidableEq, Repr

structure Checkpoint where
  block : BlockId
  behind : Option Nat
deriving DecidableEq, Repr

namespace Checkpoint

def covers (point : Checkpoint) (graph : FlowGraph) (block : BlockId) (index : Nat) : Bool :=
  if point.block == block then
    match point.behind with
    | some behind => index > behind
    | none => true
  else graph.dominates point.block block

end Checkpoint

namespace Function

def isSenderKeyed (function : Function) (block : BlockId) : Option ValueId → Bool
  | some key => function.origins ⟨block, key⟩ == [.env .sender]
  | none => false

def isRevertBlock (function : Function) (block : BlockId) : Bool :=
  match function.block? block with
  | some found =>
    match found.terminator.node with
    | .revert _ => true
    | _ => false
  | none => false

def returns? (block : BasicBlock) : Bool :=
  match block.terminator.node with
  | .ret _ => true
  | _ => false

def reachableBlocks (function : Function) : List BasicBlock :=
  let order := (FlowGraph.ofFunction function).reversePostorder
  function.blocks.filter fun block => order.contains block.id

def localEffect (function : Function) : Effect :=
  function.instructions.foldl (fun effect (block, instruction) =>
    match instruction.node with
    | .loadField _ field _ => { effect with reads := effect.reads.add field }
    | .storeField field key _ =>
      { effect with
        writes := effect.writes.add field
        sharedWrites :=
          if function.isSenderKeyed block key then effect.sharedWrites
            else effect.sharedWrites.add field }
    | .externalCall _ _ _ _ => { effect with externalCalls := true }
    | _ => effect) Effect.none

def callees (function : Function) : Names :=
  Names.ofList (function.instructions.filterMap fun (_, instruction) =>
    match instruction.node with
    | .call _ callee _ => some callee
    | _ => none)

end Function

namespace Contract

def isIdentityField (contract : Contract) (name : String) : Bool :=
  match contract.field? name with
  | some field => field.ty == .address || field.ty.isMap
  | none => false

def isSenderCheck (contract : Contract) (origins : List Origin) : Bool :=
  origins.contains (.env .sender) && origins.any fun origin =>
    match origin with
    | .field name => contract.isIdentityField name
    | _ => false

def checkedBlock? (function : Function) : Terminator → Option BlockId
  | .guard _ _ _ next => some next
  | .branch _ thenBlock elseBlock =>
    match function.isRevertBlock thenBlock, function.isRevertBlock elseBlock with
    | true, false => some elseBlock
    | false, true => some thenBlock
    | _, _ => none
  | _ => none

def checkpoints (contract : Contract) (function : Function) (calleeChecks : String → Bool) :
    List Checkpoint :=
  let conditions := function.conditions.filterMap fun (site, terminator) =>
    if contract.isSenderCheck (function.origins site) then
      (checkedBlock? function terminator).map fun block => ⟨block, none⟩
    else none
  let calls := function.blocks.flatMap fun block =>
    block.instructions.zipIdx.filterMap fun (instruction, index) =>
      match instruction.node with
      | .call _ callee _ => if calleeChecks callee then some ⟨block.id, some index⟩ else none
      | _ => none
  conditions ++ calls

def alwaysChecksSender (contract : Contract) (function : Function) (calleeChecks : String → Bool) :
    Bool :=
  let graph := FlowGraph.ofFunction function
  let points := contract.checkpoints function calleeChecks
  function.reachableBlocks.all fun block =>
    !Function.returns? block || points.any fun point =>
      point.covers graph block.id block.instructions.length

end Contract

namespace Summary

abbrev EffectTable := List (String × Names × Effect)

def spread (table : EffectTable) : EffectTable :=
  table.map fun (name, callees, effect) =>
    (name, callees, callees.foldl (fun total callee =>
      match table.lookup callee with
      | some (_, added) => total.join added
      | none => total) effect)

def sizes (table : EffectTable) : List (Nat × Nat × Nat × Bool) :=
  table.map fun (_, _, effect) => effect.size

def settle : Nat → EffectTable → EffectTable × Nat
  | 0, table => (table, 0)
  | fuel + 1, table =>
    let next := spread table
    if sizes next == sizes table then (next, 1)
    else
      let (final, count) := settle fuel next
      (final, count + 1)

def checkRound (contract : Contract) (known : List String) : List String :=
  contract.functions.foldl (fun checked function =>
    if checked.contains function.name then checked
    else if contract.alwaysChecksSender function checked.contains then checked ++ [function.name]
    else checked) known

def settleChecks (contract : Contract) : Nat → List String → List String × Nat
  | 0, known => (known, 0)
  | fuel + 1, known =>
    let next := checkRound contract known
    if next == known then (known, 1)
    else
      let (final, count) := settleChecks contract fuel next
      (final, count + 1)

def sweepCost (contract : Contract) : Nat :=
  total (contract.functions.map fun function => function.blocks.length + 1)

def ofContract (contract : Contract) : List Summary × Nat :=
  let table := contract.functions.map fun function =>
    (function.name, function.callees, function.localEffect)
  let (effects, spreads) := settle (contract.functions.length + 1) table
  let (checked, sweeps) := settleChecks contract (contract.functions.length + 1) []
  (effects.map fun (name, callees, effect) =>
    { name, effect, callees, checksSender := checked.contains name }, sweepCost contract + spreads *
      contract.functions.length + sweeps * sweepCost contract)

end Summary

abbrev Summaries := List (String × List Summary)

namespace Summaries

def get? (summaries : Summaries) (contract function : String) : Option Summary :=
  (summaries.lookup contract).bind fun found => found.find? fun summary => summary.name == function

def checksSender (summaries : Summaries) (contract function : String) : Bool :=
  match summaries.get? contract function with
  | some summary => summary.checksSender
  | none => false

def ofSet (set : ContractSet) : Summaries × Nat :=
  let found := set.contracts.map fun contract => (contract.name, Summary.ofContract contract)
  (found.map fun (name, summaries, _) => (name, summaries),
    total (found.map fun (_, _, cost) => cost))

end Summaries

end Covenant
