import Covenant.Scan.Issue
import Covenant.Scan.Summary

/-!
The checks for mistakes in contracts. Each one lists its findings, and the steps that looking for
them takes.
-/

namespace Covenant

namespace Finding

structure Result where
  issues : List Issue
  cost : Nat

def issue (id : String) (severity : Severity) (location : Location) (function : Function)
    (message : String) : Issue :=
  { location := some location, id, severity, function := some function.name, message }

def openFunctions (set : ContractSet) : List (Contract × Function) :=
  set.functions.filter fun entry => entry.2.kind == .everyone

def openCost (set : ContractSet) : Nat :=
  total ((openFunctions set).map fun entry => entry.2.blocks.length + 1)

def reachableInstructions (function : Function) : List (BlockId × Nat × Located Instruction) :=
  function.reachableBlocks.flatMap fun block =>
    block.instructions.zipIdx.map fun (instruction, index) => (block.id, index, instruction)

/-! ### Writes that anyone can cause -/

def sharedWrite? (summaries : Summaries) (contract : Contract) (function : Function)
    (block : BlockId) :
    Instruction → Option String
  | .storeField field key _ => if function.isSenderKeyed block key then none else some field
  | .call _ callee _ =>
    match summaries.get? contract.name callee with
    | some summary => if summary.checksSender then none else summary.effect.sharedWrites.head?
    | none => none
  | _ => none

def unprotectedWrite? (summaries : Summaries) (contract : Contract) (function : Function) :
    Option String :=
  let graph := FlowGraph.ofFunction function
  let points := contract.checkpoints function (summaries.checksSender contract.name)
  (reachableInstructions function).findSome? fun (block, index, instruction) =>
    match sharedWrite? summaries contract function block instruction.node with
    | none => none
    | some field =>
      if points.any fun point => point.covers graph block index then none else some field

def missingAccessControl (summaries : Summaries) (set : ContractSet) : Result where
  issues := (openFunctions set).filterMap fun (contract, function) =>
    (unprotectedWrite? summaries contract function).map fun field =>
      issue "missing-access-control" .high function.location function
        (s!"`{function.name}` writes `{field}` but anybody can call it, as it never checks " ++
          "`msg.sender` against a stored address")
  cost := openCost set

/-! ### Writes after calls out of the contract -/

structure Position where
  block : BlockId
  index : Nat
deriving DecidableEq, Repr

def Position.precedes (graph : FlowGraph) (first second : Position) : Bool :=
  (first.block == second.block && first.index < second.index) ||
    (graph.reachableFrom first.block).contains second.block

def Position.covers (graph : FlowGraph) (first second : Position) : Bool :=
  if first.block == second.block then first.index < second.index
  else graph.dominates first.block second.block

def effectOf (summaries : Summaries) (contract : Contract) : Instruction → Effect
  | .externalCall _ _ _ _ => { Effect.none with externalCalls := true }
  | .loadField _ field _ => { Effect.none with reads := [field] }
  | .storeField field _ _ => { Effect.none with writes := [field] }
  | .call _ callee _ =>
    match summaries.get? contract.name callee with
    | some summary => summary.effect
    | none => Effect.none
  | _ => Effect.none

def guardedFlags (contract : Contract) (function : Function) : List String :=
  function.conditions.flatMap fun (site, terminator) =>
    match terminator with
    | .guard _ _ _ _ =>
      (function.origins site).filterMap fun origin =>
        match origin with
        | .field name =>
          if (contract.field? name).any fun field => field.ty == .bool then some name else none
        | _ => none
    | _ => []

def lockStores (contract : Contract) (function : Function) : List Position :=
  let flags := guardedFlags contract function
  function.blocks.flatMap fun block =>
    block.instructions.zipIdx.filterMap fun (instruction, index) =>
      match instruction.node with
      | .storeField field none value =>
        if flags.contains field && function.origins ⟨block.id, value⟩ == [.const 1] then
          some ⟨block.id, index⟩
        else none
      | _ => none

def protectedDecorator : String := "nonReentrant"

def readBefore (graph : FlowGraph) (effects : List (Position × Effect)) (call : Position) :
    List String :=
  effects.flatMap fun (position, effect) =>
    if position == call || position.precedes graph call then effect.reads else []

def staleAfter? (graph : FlowGraph) (effects : List (Position × Effect)) (call : Position) :
    Option String :=
  let reads := readBefore graph effects call
  let writes := effects.flatMap fun (position, effect) =>
    if position != call && call.precedes graph position then effect.writes else []
  writes.find? reads.contains

def staleField? (summaries : Summaries) (contract : Contract) (function : Function) :
    Option String :=
  if function.hasDecorator protectedDecorator then none
  else
    let graph := FlowGraph.ofFunction function
    let effects := (reachableInstructions function).map fun (block, index, instruction) =>
      ((⟨block, index⟩ : Position), effectOf summaries contract instruction.node)
    let locks := lockStores contract function
    let calls := effects.filterMap fun (position, effect) =>
      if effect.externalCalls && !(locks.any fun lock => lock.covers graph position) then
        some position
      else none
    calls.findSome? (staleAfter? graph effects)

def reentrancy (summaries : Summaries) (set : ContractSet) : Result where
  issues := (openFunctions set).filterMap fun (contract, function) =>
    (staleField? summaries contract function).map fun field =>
      issue "reentrancy" .high function.location function
        (s!"`{function.name}` calls out of the contract before writing `{field}`, which it read before " ++
          "the call, so a reentrant call can observe the stale value")
  cost := openCost set

/-! ### Arithmetic that may wrap -/

def mayWrap : BinaryOp → Bool
  | .add | .sub | .mul => true
  | _ => false

def isBounded (graph : FlowGraph) (block : BlockId) (origins : List Origin)
    (conditions : List (BlockId × List Origin)) : Bool :=
  conditions.any fun (other, sources) =>
    sources.any origins.contains && (graph.dominates other block || graph.dominates block other)

def wrapIssue? (graph : FlowGraph) (reachable : List BlockId)
    (conditions : List (BlockId × List Origin)) (function : Function) (block : BlockId)
    (instruction : Located Instruction) : Option Issue :=
  match instruction.node with
  | .binary dest op ty lhs rhs =>
    if !mayWrap op || !reachable.contains block then none
    else
      let origins := (function.origins ⟨block, lhs⟩ ++ function.origins ⟨block, rhs⟩).filter
        fun origin =>
        !origin.isConst
      if origins.isEmpty || !function.reachesStore ⟨block, dest⟩ then none
      else if isBounded graph block origins conditions then none
      else some (issue "unchecked-arithmetic" .medium instruction.location function
        (s!"`{op.spelling}` on `{ty.text}` in `{function.name}` can wrap around, and its result is stored " ++
          "without a bounds check"))
  | _ => none

def uncheckedArithmetic (set : ContractSet) : Result where
  issues := set.functions.flatMap fun (_, function) =>
    let graph := FlowGraph.ofFunction function
    let reachable := graph.reversePostorder
    let conditions := function.conditions.map fun (site, _) => (site.block, function.origins site)
    function.instructions.filterMap fun (block, instruction) =>
      wrapIssue? graph reachable conditions function block instruction
  cost := total (set.functions.map fun entry => entry.2.instructions.length)

/-! ### Stores that nothing sees -/

inductive Fate where
  | observed
  | overwritten
  | kept
deriving DecidableEq, Repr

def fateIn (field : String) : List (Located Instruction) → Fate
  | [] => .kept
  | instruction :: rest =>
    match instruction.node with
    | .loadField _ read _ => if read == field then .observed else fateIn field rest
    | .call _ _ _ => .observed
    | .externalCall _ _ _ _ => .observed
    | .storeField written none _ => if written == field then .overwritten else fateIn field rest
    | _ => fateIn field rest

def pushBlocks : List BlockId → List BlockId → List Position → List BlockId × List Position
  | [], visited, stack => (visited, stack)
  | block :: rest, visited, stack =>
    if visited.contains block then pushBlocks rest visited stack
    else pushBlocks rest (block :: visited) (⟨block, 0⟩ :: stack)

/-- Whether the value that a field has at the places on the stack is seen on no path, and is
overwritten on one of them or known to be so, unless finding out takes more than `fuel` steps. A
return shows the value, a revert drops it. -/
def isDead? (function : Function) (field : String) :
    Nat → List BlockId → Bool → List Position → Option Bool
  | _, _, overwritten, [] => some overwritten
  | 0, _, _, _ :: _ => none
  | fuel + 1, visited, overwritten, position :: stack =>
    match function.block? position.block with
    | none => isDead? function field fuel visited overwritten stack
    | some block =>
      match fateIn field (block.instructions.drop position.index) with
      | .observed => some false
      | .overwritten => isDead? function field fuel visited true stack
      | .kept =>
        match block.terminator.node with
        | .ret _ => some false
        | .revert _ => isDead? function field fuel visited overwritten stack
        | terminator =>
          let (visited, stack) := pushBlocks terminator.successors visited stack
          isDead? function field fuel visited overwritten stack

def isDead (function : Function) (field : String) (position : Position) : Bool :=
  (isDead? function field (2 * function.blocks.length + 1) [] false [position]).getD false

def plainStores (function : Function) : List (Position × String × Location) :=
  (reachableInstructions function).filterMap fun (block, index, instruction) =>
    match instruction.node with
    | .storeField field none _ => some (⟨block, index⟩, field, instruction.location)
    | _ => none

def deadStores (function : Function) : List (Position × String × Location) :=
  (plainStores function).filter fun (position, field, _) =>
    isDead function field ⟨position.block, position.index + 1⟩

def deadStore (set : ContractSet) : Result where
  issues := set.functions.flatMap fun (_, function) =>
    (deadStores function).map fun (_, field, location) =>
      issue "dead-store" .low location function
        s!"The value written to `{field}` here is always overwritten before it is read"
  cost :=
    total (set.functions.map fun entry => (plainStores entry.2).length * entry.2.blocks.length)

/-! ### Decisions by the originator -/

def txOrigin (set : ContractSet) : Result where
  issues := set.functions.flatMap fun (_, function) =>
    let reachable := (FlowGraph.ofFunction function).reversePostorder
    function.blocks.filterMap fun block =>
      match block.terminator.node.condition? with
      | none => none
      | some condition =>
        if reachable.contains block.id &&
            (function.origins ⟨block.id, condition⟩).contains (.env .origin) then
          some (issue "tx-origin" .high block.terminator.location function
            (s!"`{function.name}` makes a decision based on `tx.origin`, which any contract the originator " ++
              "calls can exploit; use `msg.sender` instead"))
        else none
  cost := total (set.functions.map fun entry => entry.2.conditions.length)

/-! ### Calls whose result is ignored -/

def uncheckedCall (set : ContractSet) : Result where
  issues := set.functions.flatMap fun (_, function) =>
    let reachable := (FlowGraph.ofFunction function).reversePostorder
    function.instructions.filterMap fun (block, instruction) =>
      match instruction.node with
      | .externalCall dest .call _ _ =>
        if !reachable.contains block || function.reachesCondition ⟨block, dest⟩ then none
        else some (issue "unchecked-call" .medium instruction.location function
          "The result of this `call` is never checked, so a failed call goes unnoticed")
      | _ => none
  cost := total (set.functions.map fun entry => entry.2.instructions.length)

/-! ### Loops without a bound -/

def loopHeaders (function : Function) : List BlockId :=
  let graph := FlowGraph.ofFunction function
  let headers := graph.backEdges.map Prod.snd
  graph.blocks.filter headers.contains

def isUnbounded (function : Function) (header : BasicBlock) : Bool :=
  match header.terminator.node with
  | .branch condition _ _ =>
    (function.origins ⟨header.id, condition⟩).any fun origin => !origin.isConst
  | _ => false

def unboundedLoop (set : ContractSet) : Result where
  issues := (openFunctions set).flatMap fun (_, function) =>
    (loopHeaders function).filterMap fun header =>
      match function.block? header with
      | none => none
      | some block =>
        if isUnbounded function block then
          some (issue "unbounded-loop" .medium block.terminator.location function
            (s!"This loop in `{function.name}` runs for as long as a value that callers or storage control " ++
              "allows, which can exceed the gas limit"))
        else none
  cost := total ((openFunctions set).map fun entry => (loopHeaders entry.2).length)

end Finding

end Covenant
