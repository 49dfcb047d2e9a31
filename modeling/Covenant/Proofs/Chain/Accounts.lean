import Covenant.Proofs.Chain.Estimates
import Covenant.Proofs.Lowering.Edges

/-!
Running code with a meter: what its steps have cost, and which blocks each of its calls has come to.
-/

namespace Covenant

def GasSetting.due (gas : GasSetting) (state : Running) : Nat :=
  match state.frame.pending with
  | next :: _ => gas.charge next.node
  | [] => gas.endCost state.frame.block.terminator.node

structure Journey where
  function : Function
  blocks : List BlockId

/-- Whether a call, each time that it is in a loop, goes back at most `bound` times, in it and in
loops inside it. -/
def Journey.TurnsWithin (journey : Journey) (bound : Nat) : Prop :=
  (FlowGraph.ofFunction journey.function).TurnsWithin bound journey.blocks

/-- Running code, what its steps have cost, the journeys of the calls that run, innermost first, and
those of the calls that are over. -/
structure Metered where
  state : Running
  spent : Nat
  running : List Journey
  finished : List Journey

namespace Metered

def start (state : Running) : Metered :=
  ⟨state, 0, [⟨state.frame.function, [state.frame.block.id]⟩], []⟩

def advance (gas : GasSetting) (meter : Metered) (next : Running) : Metered :=
  let spent := meter.spent + gas.due meter.state
  match meter.running with
  | [] => { meter with state := next, spent }
  | journey :: waiting =>
    if meter.state.callers.length < next.callers.length then
      ⟨next, spent, ⟨next.frame.function, [next.frame.block.id]⟩ :: journey :: waiting,
        meter.finished⟩
    else if next.callers.length < meter.state.callers.length then
      ⟨next, spent, waiting, journey :: meter.finished⟩
    else if meter.state.frame.pending.isEmpty then
      ⟨next, spent, ⟨journey.function, journey.blocks ++ [next.frame.block.id]⟩ :: waiting,
        meter.finished⟩
    else ⟨next, spent, journey :: waiting, meter.finished⟩

/-- Takes at most `fuel` steps. The last one counts too, if the run ends or fails with it. -/
def run (gas : GasSetting) (setting : Setting) : Nat → Metered → Metered
  | 0, meter => meter
  | fuel + 1, meter =>
    match meter.state.step setting with
    | .ok (.running next) => run gas setting fuel (meter.advance gas next)
    | _ => { meter with spent := meter.spent + gas.due meter.state }

def journeys (meter : Metered) : List Journey := meter.running ++ meter.finished

variable {gas : GasSetting} {setting : Setting} {meter : Metered} {next : Running}

@[simp] theorem state_advance : (meter.advance gas next).state = next := by
  unfold advance
  split
  · rfl
  · split_ifs <;> rfl

@[simp] theorem spent_advance :
    (meter.advance gas next).spent = meter.spent + gas.due meter.state := by
  unfold advance
  split
  · rfl
  · split_ifs <;> rfl

theorem finished_subset_advance : meter.finished ⊆ (meter.advance gas next).finished := by
  unfold advance
  split
  · exact List.Subset.refl _
  · split_ifs
    · exact List.Subset.refl _
    · exact List.subset_cons_self _ _
    · exact List.Subset.refl _
    · exact List.Subset.refl _

theorem finished_subset_run (fuel : Nat) :
    meter.finished ⊆ (meter.run gas setting fuel).finished := by
  induction fuel generalizing meter with
  | zero => exact List.Subset.refl _
  | succ fuel ih =>
    unfold run
    split
    · exact List.Subset.trans finished_subset_advance ih
    · exact List.Subset.refl _

end Metered

/-!
Where running code stands against the costs of a table. What a call has cost, and what is left of
the block that it is in, is covered by the blocks that it has come to; so a call is covered by the
cost of its function once its journey is known to go back no more often than loops are counted for.
-/

namespace GasSetting

variable {gas : GasSetting} {table : GasTable} {frame : Frame} {journey : Journey}

def tableCost (table : GasTable) (name : String) : Nat := (table.lookup name).getD 0

def left (gas : GasSetting) (table : GasTable) (frame : Frame) : Nat :=
  gas.chargeAll table frame.pending + gas.endCost frame.block.terminator.node

def journeyCost (gas : GasSetting) (table : GasTable) (journey : Journey) : Nat :=
  FlowGraph.weigh (gas.blockWeight table journey.function) journey.blocks

structure Follows (table : GasTable) (frame : Frame) (journey : Journey) : Prop where
  function : journey.function = frame.function
  walk : (FlowGraph.ofFunction frame.function).IsWalk journey.blocks
  start : journey.blocks.head? = some frame.function.entry
  last : journey.blocks.getLast? = some frame.block.id
  known : ∃ cost, table.lookup frame.function.name = some cost

def Covered (gas : GasSetting) (table : GasTable) (root : String) :
    String → List Caller → List Journey → Nat → Prop
  | name, [], journeys, spent => name = root ∧ journeys = [] ∧ spent = 0
  | name, caller :: callers, journeys, spent =>
    ∃ journey waiting own others, journeys = journey :: waiting ∧ spent = own + others ∧
      Follows table caller.frame journey ∧
      GasCovers (gas.journeyCost table journey)
        (own + gas.left table caller.frame + tableCost table name) ∧
      Covered gas table root caller.frame.function.name callers waiting others

def Accounts (gas : GasSetting) (table : GasTable) (root : String) (frame : Frame)
    (callers : List Caller) (journeys : List Journey) (spent : Nat) : Prop :=
  ∃ journey waiting own others, journeys = journey :: waiting ∧ spent = own + others ∧
    Follows table frame journey ∧
    GasCovers (gas.journeyCost table journey) (own + gas.left table frame) ∧
    gas.Covered table root frame.function.name callers waiting others

structure Ready (gas : GasSetting) (declared : Declarations) (table : GasTable) : Prop where
  code : gas.contract.Typed declared
  loops : ∀ function ∈ gas.contract.functions, (FlowGraph.ofFunction function).Reducible
  settled : gas.Settled table

theorem due_le_left (gas : GasSetting) (table : GasTable) (state : Running) :
    gas.due state ≤ gas.left table state.frame := by
  unfold due left
  cases state.frame.pending with
  | nil => exact Nat.le_add_left _ _
  | cons next rest =>
    simp only [chargeAll]
    omega

theorem left_started (gas : GasSetting) (table : GasTable) (frame : Frame) (block : BasicBlock) :
    gas.left table (frame.started block) = gas.blockCharge table block := rfl

theorem left_of_pending {instruction : Located Instruction} {rest : List (Located Instruction)}
    (pending : frame.pending = instruction :: rest) : gas.left table frame =
      gas.charge instruction.node + gas.calleeCost table instruction.node + gas.left table
        (frame.past rest) := by
  simp only [left, chargeAll, pending, Frame.past]
  omega

theorem left_of_end (pending : frame.pending = []) :
    gas.left table frame = gas.endCost frame.block.terminator.node := by
  simp [left, chargeAll, pending]

theorem left_eq {other : Frame} (block : other.block = frame.block)
    (pending : other.pending = frame.pending) :
    gas.left table other = gas.left table frame := by
  simp only [left, block, pending]

theorem Follows.of_eq {other : Frame} (follows : Follows table frame journey)
    (function : other.function = frame.function) (block : other.block = frame.block) :
    Follows table other journey := by
  obtain ⟨same, walk, start, last, known⟩ := follows
  constructor <;> simp_all

variable {declared : Declarations}

theorem Ready.covers (ready : gas.Ready declared table) (follows : Follows table frame journey)
    (member : frame.function ∈ gas.contract.functions)
    (within : journey.TurnsWithin gas.loopBound) :
    GasCovers (tableCost table frame.function.name) (gas.journeyCost table journey) := by
  obtain ⟨same, walk, start, _, cost, known⟩ := follows
  obtain ⟨types, typed⟩ := ready.code.functions _ member
  have inside : frame.function.entry < frame.function.blocks.length := typed.entry.1 ▸ typed.entry.2
  obtain ⟨function, named, priced⟩ := ready.settled _ _ known
  obtain rfl := Option.some.inj ((ready.code.formed.function? member).symm.trans named)
  obtain ⟨costs, rfl, covers⟩ := priced.cost
  obtain ⟨blocks, path⟩ := List.head?_eq_some_iff.mp start
  unfold Journey.TurnsWithin at within
  rw [same, path] at within
  rw [path] at walk
  rw [tableCost, known, Option.getD_some, journeyCost, same, path]
  exact covers_graphCost inside (ready.loops _ member) covers walk within

theorem Ready.knows (ready : gas.Ready declared table) (follows : Follows table frame journey)
    {types : List Ty} {awaited : Option ValueId}
    (typed : frame.Typed False gas.contract declared types awaited)
    {instruction : Located Instruction} {rest : List (Located Instruction)}
    (pending : frame.pending = instruction :: rest) : gas.Knows table instruction.node := by
  obtain ⟨cost, known⟩ := follows.known
  obtain ⟨function, named, priced⟩ := ready.settled _ _ known
  obtain rfl := Option.some.inj ((ready.code.formed.function? typed.member).symm.trans named)
  obtain ⟨done, split, _⟩ := typed.place
  refine priced.known _ (List.mem_of_getElem? typed.block) instruction ?_
  rw [split, pending]
  exact List.mem_append_right _ List.mem_cons_self

section Steps

variable {root : String} {callers : List Caller} {journeys : List Journey} {spent : Nat}
  {after : Frame} {instruction : Located Instruction} {rest : List (Located Instruction)}
  {caller : Caller}

theorem Accounts.instruct (accounts : gas.Accounts table root frame callers journeys spent)
    (pending : frame.pending = instruction :: rest)
    (plain : gas.calleeCost table instruction.node = 0)
    (function : after.function = frame.function) (block : after.block = frame.block)
    (moved : after.pending = rest) :
    gas.Accounts table root after callers journeys (spent + gas.charge instruction.node) := by
  obtain ⟨journey, waiting, own, others, rfl, rfl, follows, covers, covered⟩ := accounts
  refine ⟨journey, waiting, own + gas.charge instruction.node, others, rfl, by omega,
    follows.of_eq function block, ?_, function ▸ covered⟩
  have left : gas.left table after = gas.left table (frame.past rest) := left_eq block moved
  rw [left_of_pending pending, plain] at covers
  rw [left]
  exact covers.le_trans (by omega)

/-- Going to another block leaves the whole block to be paid for, and adds it to the journey. -/
theorem Accounts.goto (accounts : gas.Accounts table root frame callers journeys spent)
    (pending : frame.pending = []) {target : BlockId} {block : BasicBlock}
    (found : frame.function.block? target = some block) (numbered : block.id = target)
    (here : frame.function.block? frame.block.id = some frame.block)
    (leads : target ∈ frame.block.terminator.node.successors) :
    ∃ journey waiting, journeys = journey :: waiting ∧
      gas.Accounts table root (frame.started block) callers
        (⟨journey.function, journey.blocks ++ [block.id]⟩ :: waiting)
        (spent + gas.endCost frame.block.terminator.node) := by
  obtain ⟨journey, waiting, own, others, rfl, rfl, follows, covers, covered⟩ := accounts
  obtain ⟨same, walk, start, last, known⟩ := follows
  refine ⟨journey, waiting, rfl, _, waiting, own + gas.endCost frame.block.terminator.node, others,
    rfl, by omega, ?_, ?_, covered⟩
  · refine ⟨same, ?_, ?_, by simp [Frame.started], known⟩
    · refine List.isChain_append.mpr ⟨walk, .singleton _, fun source ends target starts => ?_⟩
      rw [last] at ends
      obtain rfl := Option.some.inj ends
      obtain rfl := Option.some.inj starts
      have low := (List.getElem?_eq_some_iff.mp found).1
      exact FlowGraph.mem_successors.mpr ⟨frame.block, here, numbered ▸ leads, numbered ▸ low⟩
    · obtain ⟨blocks, path⟩ := List.head?_eq_some_iff.mp start
      simp [path, Frame.started]
  · have weight : gas.blockWeight table journey.function block.id =
        gas.blockCharge table block := by
      rw [blockWeight, same, numbered, found]
    rw [left_of_end pending] at covers
    rw [left_started]
    simp only [journeyCost, FlowGraph.weigh_append, FlowGraph.weigh_cons, FlowGraph.weigh_nil,
      weight] at covers ⊢
    unfold GasCovers at covers ⊢
    omega

theorem follows_start (gas : GasSetting) {function : Function} {cells : List Cell}
    (framed : function.frame cells = .ok frame) (numbered : frame.block.id = function.entry)
    (known : ∃ cost, table.lookup function.name = some cost) :
    Follows table frame ⟨function, [frame.block.id]⟩ ∧
      gas.journeyCost table ⟨function, [frame.block.id]⟩ = gas.left table frame := by
  obtain ⟨rfl, found, whole⟩ := Function.frame_eq_ok framed
  refine ⟨⟨rfl, .singleton _, congrArg some numbered, rfl, known⟩, ?_⟩
  have weight : gas.blockWeight table frame.function frame.block.id =
      gas.blockCharge table frame.block := by
    rw [blockWeight, numbered, found]
  simp [journeyCost, weight, blockCharge, left, whole]

theorem Accounts.call (accounts : gas.Accounts table root frame callers journeys spent)
    {dest : Option ValueId} {name : String} {args : List ValueId} {location : Location}
    {callee : Function} {cells : List Cell}
    (pending : frame.pending = ⟨.call dest name args, location⟩ :: rest)
    (found : gas.contract.function? name = some callee) (framed : callee.frame cells = .ok after)
    (numbered : after.block.id = callee.entry)
    (known : ∃ cost, table.lookup callee.name = some cost) :
    gas.Accounts table root after (⟨frame.past rest, dest⟩ :: callers)
      (⟨after.function, [after.block.id]⟩ :: journeys)
      (spent + gas.charge (.call dest name args)) := by
  obtain ⟨journey, waiting, own, others, rfl, rfl, follows, covers, covered⟩ := accounts
  obtain ⟨begins, whole⟩ := follows_start gas framed numbered known
  obtain ⟨rfl, _, _⟩ := Function.frame_eq_ok framed
  have cost : gas.calleeCost table (.call dest name args) =
      tableCost table after.function.name := by
    simp [calleeCost, found, tableCost]
  rw [left_of_pending pending, cost] at covers
  refine ⟨_, journey :: waiting, 0, own + gas.charge (.call dest name args) + others, rfl, by omega,
    begins, ?_, journey, waiting, own + gas.charge (.call dest name args), others, rfl, rfl,
    follows.of_eq rfl rfl, covers.le_trans (by dsimp only; omega), covered⟩
  rw [whole, Nat.zero_add]
  exact Nat.min_le_left _ _

theorem Accounts.giveBack (ready : gas.Ready declared table)
    (accounts : gas.Accounts table root frame (caller :: callers) journeys spent)
    (pending : frame.pending = []) (member : frame.function ∈ gas.contract.functions)
    (value : Option Cell) :
    ∃ journey waiting, journeys = journey :: waiting ∧ (journey.TurnsWithin gas.loopBound →
      gas.Accounts table root (caller.receive value) callers waiting
        (spent + gas.endCost frame.block.terminator.node)) := by
  obtain ⟨journey, _, own, _, rfl, rfl, follows, covers, lower, waiting, paid, others, rfl, rfl,
    waits, owed, covered⟩ :=
    accounts
  refine ⟨journey, _, rfl, fun within => ?_⟩
  have all := ready.covers follows member within
  rw [left_of_end pending] at covers
  have function := caller.function_receive value
  have block := caller.block_receive value
  refine ⟨lower, waiting, paid + (own + gas.endCost frame.block.terminator.node), others,
    rfl, by omega, waits.of_eq function block, ?_, function ▸ covered⟩
  rw [left_eq block (caller.pending_receive value)]
  unfold GasCovers at all covers owed ⊢
  omega

/-- A step leaves all that calls have cost accounted for. -/
theorem Accounts.advance (ready : gas.Ready declared table) {setting : Setting}
    (same : setting.contract = gas.contract) {meter : Metered} {next : Running}
    {result : Option Ty} (typed : meter.state.Typed False gas.contract declared result)
    (move : Running.Move setting meter.state next)
    (accounts : gas.Accounts table root meter.state.frame meter.state.callers meter.running
      meter.spent)
    (within : ∀ journey ∈ (meter.advance gas next).finished, journey.TurnsWithin gas.loopBound) :
    gas.Accounts table root next.frame next.callers (meter.advance gas next).running
      (meter.advance gas next).spent := by
  obtain ⟨types, standing⟩ := typed.frame
  obtain ⟨_, _, _, _, running, _, follows, _⟩ := id accounts
  rw [Metered.spent_advance]
  cases move with
  | @instruct instruction rest frame effects pending does =>
    obtain ⟨function, block, left⟩ := does.place_eq
    have plain : gas.calleeCost table instruction.node = 0 := by
      generalize instruction.node = node at does
      cases does <;> rfl
    have due : gas.due meter.state = gas.charge instruction.node := by simp [due, pending]
    have stays : (meter.advance gas ⟨frame, meter.state.callers, effects⟩).running =
        meter.running := by
      simp [Metered.advance, running, pending]
    rw [due, stays]
    exact accounts.instruct pending plain function block left
  | @call dest name args location rest callee cells frame pending found listed framed =>
    rw [same] at found
    obtain ⟨member, rfl⟩ := Contract.mem_of_function? found
    obtain ⟨rfl, begun, _⟩ := Function.frame_eq_ok framed
    obtain ⟨_, begins⟩ := ready.code.functions _ member
    have due : gas.due meter.state = gas.charge (.call dest frame.function.name args) := by
      simp [due, pending]
    have enters :
      (meter.advance gas ⟨frame, ⟨meter.state.frame.past rest, dest⟩ :: meter.state.callers,
        meter.state.effects.record (meter.state.frame.past rest) location
          (.call frame.function.name)⟩).running =
          ⟨frame.function, [frame.block.id]⟩ :: meter.running := by
      simp [Metered.advance, running]
    rw [due, enters]
    exact accounts.call pending found framed (begins.ids _ _ begun)
      (ready.knows follows standing pending dest _ args _ rfl found)
  | @goto target block effects pending goes found =>
    have due : gas.due meter.state = gas.endCost meter.state.frame.block.terminator.node := by
      simp [due, pending]
    obtain ⟨journey, waiting, moves, goes⟩ := accounts.goto pending found
      (standing.function.ids _ _ found) standing.block goes.mem_successors
    have went :
      (meter.advance gas ⟨meter.state.frame.started block, meter.state.callers, effects⟩).running =
        ⟨journey.function, journey.blocks ++ [block.id]⟩ :: waiting := by
      simp [Metered.advance, moves, pending, Frame.started]
    rw [due, went]
    exact goes
  | @giveBack caller callers value effects pending yields waiting =>
    have due : gas.due meter.state = gas.endCost meter.state.frame.block.terminator.node := by
      simp [due, pending]
    rw [waiting] at accounts
    obtain ⟨journey, others, moves, returns⟩ :=
      accounts.giveBack ready pending standing.member value
    have fewer : ¬ callers.length + 1 < callers.length := by omega
    have back : (meter.advance gas ⟨caller.receive value, callers, effects⟩).running = others ∧
        (meter.advance gas ⟨caller.receive value, callers, effects⟩).finished = journey ::
          meter.finished := by
      simp [Metered.advance, moves, waiting, fewer]
    rw [due, back.1]
    exact returns (within journey (back.2 ▸ List.mem_cons_self))

end Steps

theorem Covered.covers (ready : gas.Ready declared table) {root name : String}
    {callers : List Caller} {journeys : List Journey} {spent exact : Nat}
    (covered : gas.Covered table root name callers journeys spent)
    (members : ∀ caller ∈ callers, caller.frame.function ∈ gas.contract.functions)
    (within : ∀ journey ∈ journeys, journey.TurnsWithin gas.loopBound)
    (covers : GasCovers (tableCost table name) exact) :
    GasCovers (tableCost table root) (exact + spent) := by
  induction callers generalizing name journeys spent exact with
  | nil =>
    obtain ⟨rfl, rfl, rfl⟩ := covered
    exact covers
  | cons caller callers ih =>
    obtain ⟨journey, waiting, own, others, rfl, rfl, follows, owed, further⟩ := covered
    obtain ⟨here, below⟩ := List.forall_mem_cons.mp members
    obtain ⟨last, earlier⟩ := List.forall_mem_cons.mp within
    have all := ready.covers follows here last
    have paid : GasCovers (tableCost table caller.frame.function.name) (exact + own) := by
      unfold GasCovers at *
      omega
    have rests := ih further below earlier paid
    rwa [Nat.add_assoc] at rests

theorem Accounts.covers (ready : gas.Ready declared table) {root : String} {state : Running}
    {journeys : List Journey} {spent : Nat} {result : Option Ty}
    (typed : state.Typed False gas.contract declared result)
    (accounts : gas.Accounts table root state.frame state.callers journeys spent)
    (within : ∀ journey ∈ journeys, journey.TurnsWithin gas.loopBound) :
    GasCovers (tableCost table root) (spent + gas.due state) := by
  obtain ⟨journey, waiting, own, others, rfl, rfl, follows, covers, covered⟩ := accounts
  obtain ⟨types, standing⟩ := typed.frame
  obtain ⟨here, later⟩ := List.forall_mem_cons.mp within
  have all := ready.covers follows standing.member here
  have next := gas.due_le_left table state
  have members : ∀ caller ∈ state.callers, caller.frame.function ∈ gas.contract.functions := by
    intro caller listed
    obtain ⟨_, _, waits⟩ := typed.callers.typed caller listed
    exact waits.frame.member
  have paid : GasCovers (tableCost table state.frame.function.name) (own + gas.due state) := by
    unfold GasCovers at *
    omega
  have whole := covered.covers ready members later paid
  exact whole.le_trans (by omega)

/-- What a metered run costs is covered by the cost of its first function. -/
theorem covers_run (ready : gas.Ready declared table) {setting : Setting}
    (same : setting.contract = gas.contract) {root : String} {meter : Metered} {result : Option Ty}
    (typed : meter.state.Typed False gas.contract declared result)
    (accounts : gas.Accounts table root meter.state.frame meter.state.callers meter.running
      meter.spent) {fuel : Nat}
    (within : ∀ journey ∈ (meter.run gas setting fuel).journeys,
      journey.TurnsWithin gas.loopBound) :
    GasCovers (tableCost table root) (meter.run gas setting fuel).spent := by
  induction fuel generalizing meter with
  | zero =>
    refine (accounts.covers ready typed fun journey listed => within journey ?_).le_trans
      (Nat.le_add_right _ _)
    exact List.mem_append_left _ listed
  | succ fuel ih =>
    unfold Metered.run at within ⊢
    split at within
    · rename_i next stepped
      have leads : Running.Leads setting meter.state next := ⟨setting.depthLimit, stepped⟩
      have typedNext : next.Typed False gas.contract declared result := by
        rw [← same] at typed ⊢
        exact leads.reaches.typed (same ▸ ready.code) False.elim typed
      have limited : ∀ journey ∈ (meter.advance gas next).finished,
          journey.TurnsWithin gas.loopBound :=
        fun journey listed =>
          within journey (List.mem_append_right _ (Metered.finished_subset_run fuel listed))
      have advanced := accounts.advance ready same typed leads.move limited
      exact ih (by simpa using typedNext) (by simpa using advanced) within
    · exact accounts.covers ready typed fun journey listed =>
        within journey (List.mem_append_left _ listed)

end GasSetting

/-!
The estimate of the most gas that a transaction can use is an upper bound for all runs of the
function in which control, each time that it is in a loop, goes back no more often, in that loop and
in the loops inside it, than loops are counted for.
-/

/-- An estimate of the most gas that calls of a function can use bounds, as far as it stays below
the ceiling, what each run of the function costs in which control, each time that it is in a loop,
goes back at most `loopBound` times, in that loop and in the loops inside it, before it leaves the
loop. -/
theorem ContractSet.spent_le_estimate {text : String} {contract : Contract}
    (member : contract ∈ (ofText text).contracts)
    (acyclic : ∀ name, ¬ Relation.TransGen contract.Calls name name) (schedule : GasSchedule)
    (loopBound : Nat) {functions : List Function}
    (inside : ∀ function ∈ functions, function ∈ contract.functions) {function : Function}
    {estimate : Nat}
    (estimated : (function, estimate) ∈ GasSetting.transactions ⟨contract, schedule, loopBound⟩
      [] functions)
    {limits : RunLimits} {inputs : Inputs} (count : function.params.length = inputs.args.length)
    {frame : Frame} (framed : function.frame (function.entryCells inputs.args) = .ok frame)
    {meter : Metered}
    (metered : (Metered.start ⟨frame, [], Effects.start inputs.storage⟩).run
      ⟨contract, schedule, loopBound⟩
      (inputs.setting contract limits) limits.fuel = meter)
    (within : ∀ journey ∈ meter.journeys, journey.TurnsWithin loopBound) :
    min (schedule.base + meter.spent) gasCeiling ≤ estimate := by
  obtain ⟨declared, code⟩ := typed_of_ofText member
  have known : ∀ function ∈ functions, contract.function? function.name = some function :=
    fun function listed => code.formed.function? (inside function listed)
  have empty : GasSetting.Settled ⟨contract, schedule, loopBound⟩ [] :=
    fun name cost found => by simp at found
  obtain ⟨listed, table, cost, settled, found, rfl⟩ :=
    GasSetting.cost_of_mem_transactions acyclic known empty estimated
  have loops : ∀ function ∈ contract.functions, (FlowGraph.ofFunction function).Reducible :=
    fun function listed => reducible_of_ofText member listed
  have ready : GasSetting.Ready ⟨contract, schedule, loopBound⟩ declared table :=
    ⟨code, loops, settled⟩
  have typed := code.of_frame (known function listed) count framed inputs.storage
  obtain ⟨rfl, begun, _⟩ := Function.frame_eq_ok framed
  obtain ⟨types, standing⟩ := code.functions _ (inside _ listed)
  obtain ⟨follows, whole⟩ := GasSetting.follows_start _ framed (standing.ids _ _ begun)
    ⟨cost, found⟩
  have accounts :
    GasSetting.Accounts ⟨contract, schedule, loopBound⟩ table frame.function.name frame []
      [⟨frame.function, [frame.block.id]⟩] 0 :=
    ⟨_, [], 0, 0, rfl, rfl, follows, by rw [whole, Nat.zero_add]; exact Nat.min_le_left _ _,
      rfl, rfl, rfl⟩
  have covers := GasSetting.covers_run ready rfl typed accounts (metered ▸ within)
  rw [metered] at covers
  rw [GasSetting.tableCost, found, Option.getD_some] at covers
  unfold GasCovers at covers
  show min (schedule.base + meter.spent) gasCeiling ≤ min (schedule.base + cost) gasCeiling
  omega

/-- A loop that goes back twice and a call: the steps of the run cost 61. -/
theorem ContractSet.spent_le_estimate_of_loop_and_call :
    let text :=
      "contract A \x7b x: u64 f() \x7b let i = 0 while i < 2 \x7b self.x = i i += 1 \x7d self.g() \x7d private g() \x7b self.x = 9 \x7d \x7d"
    let schedule : GasSchedule := ⟨100, 1, 2, 3, 4, 5, 6, 7, 8⟩
    ∃ contract ∈ (ofText text).contracts, ∃ function, contract.function? "f" = some function ∧
      ∃ frame, function.frame (function.entryCells []) = .ok frame ∧
        ∃ meter, (Metered.start ⟨frame, [], Effects.start []⟩).run ⟨contract, schedule, 10⟩
            (Inputs.empty.setting contract .standard) RunLimits.standard.fuel = meter ∧
          meter.spent = 61 ∧ meter.journeys.map Journey.blocks = [[0, 1, 2, 1, 2, 1, 3], [0]] ∧
          ∃ estimate, (function, estimate) ∈ GasSetting.transactions ⟨contract, schedule, 10⟩ []
            [function] ∧
            min (schedule.base + meter.spent) gasCeiling ≤ estimate := by
  intro text schedule
  have facts : ∃ contract ∈ (ofText text).contracts,
      (∀ function ∈ contract.functions, ∀ callee ∈ function.callees, function.name = "f" ∧
        callee = "g") ∧
        ∃ function ∈ contract.function? "f", function.params.length = Inputs.empty.args.length ∧
          ∃ frame ∈ (function.frame (function.entryCells [])).toOption,
            let meter := (Metered.start ⟨frame, [], Effects.start []⟩).run ⟨contract, schedule, 10⟩
              (Inputs.empty.setting contract .standard) RunLimits.standard.fuel
            meter.spent = 61 ∧ meter.journeys.map Journey.blocks =
              [[0, 1, 2, 1, 2, 1, 3], [0]] := by
    decide +kernel
  obtain ⟨contract, member, calls, function, found, count, frame, framed, spent, journeys⟩ := facts
  have framed := Running.toOption_eq_some.mp framed
  have calling {name callee : String} (called : contract.Calls name callee) : name = "f" ∧
      callee = "g" := by
    obtain ⟨caller, there, listed⟩ := called
    obtain ⟨inside, rfl⟩ := Contract.mem_of_function? there
    exact calls caller inside callee listed
  have acyclic : ∀ name, ¬ Relation.TransGen contract.Calls name name := by
    intro name cycle
    obtain ⟨_, first, _⟩ := Relation.TransGen.head'_iff.mp cycle
    obtain ⟨_, _, last⟩ := Relation.TransGen.tail'_iff.mp cycle
    have same := (calling first).1.symm.trans (calling last).2
    simp at same
  have estimated : (function, (GasSetting.transaction ⟨contract, schedule, 10⟩ [] function).1) ∈
      GasSetting.transactions ⟨contract, schedule, 10⟩ [] [function] := List.mem_cons_self
  refine ⟨contract, member, function, found, frame, framed, _, rfl, spent, journeys, _,
    estimated, ?_⟩
  refine spent_le_estimate member acyclic schedule 10 ?_ estimated count framed rfl
    fun journey listed => ?_
  · simpa using (Contract.mem_of_function? found).1
  · have blocks := List.mem_map_of_mem (f := Journey.blocks) listed
    rw [journeys] at blocks
    refine FlowGraph.turnsWithin_of_length ?_
    rcases List.mem_cons.mp blocks with same | last
    · simp [same]
    · simp [List.mem_singleton.mp last]

end Covenant
