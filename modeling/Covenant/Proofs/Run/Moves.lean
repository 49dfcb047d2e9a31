import Covenant.Proofs.Failure
import Covenant.Proofs.Run.Budget
import Covenant.Proofs.Run.Typing

/-!
What a step of running code can do. It runs an instruction, starts a call, goes to another block, or
gives the result of a call back to the caller. A run that succeeds ends where its first function
returns.
-/

namespace Covenant

namespace Frame

inductive Does (setting : Setting) (effects : Effects) (frame : Frame) (location : Location) :
    Instruction → Frame → Effects → Prop
  | const (dest value ty) :
      Does setting effects frame location (.const dest value ty)
        (frame.define dest (.clean value)) effects
  | env (dest var) :
      Does setting effects frame location (.env dest var)
        (frame.define dest (.clean (setting.env.get var))) effects
  | loadLocal {dest slot cell} : frame.locals[slot]? = some cell →
      Does setting effects frame location (.loadLocal dest slot) (frame.define dest cell) effects
  | storeLocal {slot value cell name} : frame.get? value = .ok cell → slot < frame.locals.length →
      Does setting effects frame location (.storeLocal slot value)
        { frame with locals := frame.locals.set slot cell }
        (effects.record frame location (.setLocal name cell.value))
  | loadField {dest field key place} : frame.place field key = .ok place →
      Does setting effects frame location (.loadField dest field key)
        (frame.define dest (effects.load place)) effects
  | storeField {field key value place cell} : frame.place field key = .ok place →
      frame.get? value = .ok cell →
      Does setting effects frame location (.storeField field key value) frame
        ((effects.record frame location (.setStorage place cell.value)).store place cell)
  | binary {dest op ty lhs rhs left right value} : frame.get? lhs = .ok left →
      frame.get? rhs = .ok right →
      op.eval? ty left.value right.value = some value →
      Does setting effects frame location (.binary dest op ty lhs rhs)
        (frame.define dest
          ⟨value, left.tainted || right.tainted || (op == .sub && left.value < right.value)⟩)
          effects
  | not {dest operand cell} : frame.get? operand = .ok cell →
      Does setting effects frame location (.not dest operand)
        (frame.define dest (.clean (ofBool (cell.value == 0)))) effects
  | externalCall {dest kind target amount receiver value} : frame.get? target = .ok receiver →
      frame.get? amount = .ok value → (kind == .transfer && !setting.callsSucceed) = false →
      Does setting effects frame location (.externalCall dest kind target amount)
        (frame.define dest (.clean (ofBool setting.callsSucceed)))
        { effects.record frame location
          (.externalCall kind receiver.value value.value setting.callsSucceed) with
          calls := ⟨kind, receiver.value, value.value⟩ :: effects.calls }
  | emit {event args cells} : args.mapM frame.get? = .ok cells →
      Does setting effects frame location (.emit event args) frame
        { effects.record frame location (.emit event) with
          events := ⟨event, cells.map Cell.value⟩ :: effects.events }

inductive Goes (effects : Effects) (frame : Frame) (location : Location) :
    Terminator → BlockId → Effects → Prop
  | jump (target) : Goes effects frame location (.jump target) target effects
  | branch {condition thenBlock elseBlock cell} : frame.get? condition = .ok cell →
      Goes effects frame location (.branch condition thenBlock elseBlock)
        (if cell.value != 0 then thenBlock else elseBlock)
        (effects.record frame location (.branch (cell.value != 0)))
  | guard {condition kind message next cell} : frame.get? condition = .ok cell →
      (cell.value != 0) = true →
      Goes effects frame location (.guard condition kind message next) next
        (effects.record frame location (.guard kind true))

inductive Yields (effects : Effects) (frame : Frame) (location : Location) :
    Terminator → Option Cell → Effects → Prop
  | nothing : Yields effects frame location
      (.ret none) none (effects.record frame location (.ret none))
  | value {value cell} : frame.get? value = .ok cell →
      Yields effects frame location (.ret (some value)) (some cell)
        (effects.record frame location (.ret (some cell.value)))

def past (frame : Frame) (pending : List (Located Instruction)) : Frame := { frame with pending }

def started (frame : Frame) (block : BasicBlock) : Frame :=
  { frame with block, pending := block.instructions, values := [] }

variable {setting : Setting} {effects later : Effects} {frame after : Frame} {location : Location}

theorem Does.place_eq {instruction : Instruction}
    (does : frame.Does setting effects location instruction after later) :
    after.function = frame.function ∧ after.block = frame.block ∧
      after.pending = frame.pending := by
  cases does <;> exact ⟨rfl, rfl, rfl⟩

theorem enter_eq_ok {target : BlockId} :
    frame.enter target = .ok after ↔ ∃ block, frame.function.block? target = some block ∧
      after = frame.started block := by
  unfold enter
  cases frame.function.block? target with
  | none => simp
  | some block => simp [started, eq_comm]

theorem Goes.mem_successors {terminator : Terminator} {target : BlockId}
    (goes : frame.Goes effects location terminator target later) :
    target ∈ terminator.successors := by
  cases goes with
  | jump => exact List.mem_singleton.mpr rfl
  | branch => split <;> simp [Terminator.successors]
  | guard => exact List.mem_singleton.mpr rfl

end Frame

theorem Function.frame_eq_ok {function : Function} {cells : List Cell} {frame : Frame}
    (framed : function.frame cells = .ok frame) :
    frame.function = function ∧ function.block? function.entry = some frame.block ∧
      frame.pending = frame.block.instructions := by
  unfold Function.frame at framed
  split at framed
  · rename_i block found
    obtain rfl := Except.ok.inj framed
    exact ⟨rfl, found, rfl⟩
  · simp at framed

namespace Running

inductive Move (setting : Setting) (state : Running) : Running → Prop
  | instruct {instruction rest frame effects} : state.frame.pending = instruction :: rest →
      (state.frame.past rest).Does setting state.effects instruction.location instruction.node
        frame effects →
      Move setting state ⟨frame, state.callers, effects⟩
  | call {dest name args location rest callee cells frame} :
      state.frame.pending = ⟨.call dest name args, location⟩ :: rest →
      setting.contract.function? name = some callee →
      args.mapM (state.frame.past rest).get? = .ok cells →
      callee.frame cells = .ok frame →
      Move setting state ⟨frame, ⟨state.frame.past rest, dest⟩ :: state.callers,
        state.effects.record (state.frame.past rest) location (.call name)⟩
  | goto {target block effects} : state.frame.pending = [] →
      state.frame.Goes state.effects state.frame.block.terminator.location
        state.frame.block.terminator.node target effects →
      state.frame.function.block? target = some block →
      Move setting state ⟨state.frame.started block, state.callers, effects⟩
  | giveBack {caller callers value effects} : state.frame.pending = [] →
      state.frame.Yields state.effects state.frame.block.terminator.location
        state.frame.block.terminator.node value effects →
      state.callers = caller :: callers →
      Move setting state ⟨caller.receive value, callers, effects⟩

structure Stops (state : Running) (value : Option Cell) (effects : Effects) : Prop where
  callers : state.callers = []
  pending : state.frame.pending = []
  yields : state.frame.Yields state.effects state.frame.block.terminator.location
    state.frame.block.terminator.node value effects

theorem toOption_eq_some {ε α : Type} {result : Except ε α} {value : α} :
    result.toOption = some value ↔ result = .ok value := by
  cases result <;> simp [Except.toOption]

variable {setting : Setting} {state next : Running}

theorem goOn_eq_ok {frame : Frame} {effects : Effects} {step : Step} :
    state.goOn frame effects = .ok step ↔ step = .running ⟨frame, state.callers, effects⟩ := by
  simp only [goOn, Except.ok.injEq, eq_comm]

/-- What running an instruction other than a call can lead to. -/
theorem instruction_running {frame : Frame} {location : Location} {instruction : Instruction}
    (plain : ∀ dest name args, instruction ≠ .call dest name args)
    (stepped : state.instruction setting frame location instruction = .ok (.running next)) :
    ∃ after effects, frame.Does setting state.effects location instruction after effects ∧
      next = ⟨after, state.callers, effects⟩ := by
  cases instruction
    <;> simp only [Running.instruction, chain_eq_ok, goOn_eq_ok, Step.running.injEq] at stepped
  case const dest value ty => exact ⟨_, _, .const dest value ty, stepped⟩
  case env dest var => exact ⟨_, _, .env dest var, stepped⟩
  case loadLocal dest slot =>
    split at stepped
    · rename_i cell held
      exact ⟨_, _, .loadLocal held, by simpa only [goOn_eq_ok, Step.running.injEq] using stepped⟩
    · simp at stepped
  case storeLocal slot value =>
    obtain ⟨cell, held, stepped⟩ := stepped
    split at stepped
    · rename_i room
      exact ⟨_, _, .storeLocal held
        room, by simpa only [goOn_eq_ok, Step.running.injEq] using stepped⟩
    · simp at stepped
  case loadField dest field key =>
    obtain ⟨place, found, stepped⟩ := stepped
    exact ⟨_, _, .loadField found, stepped⟩
  case storeField field key value =>
    obtain ⟨place, found, cell, held, stepped⟩ := stepped
    exact ⟨_, _, .storeField found held, stepped⟩
  case binary dest op ty lhs rhs =>
    obtain ⟨left, leftHeld, right, rightHeld, stepped⟩ := stepped
    split at stepped
    · simp [pure, Except.pure] at stepped
    · rename_i value computed
      exact ⟨_, _, .binary leftHeld rightHeld
        computed, by simpa only [goOn_eq_ok, Step.running.injEq] using stepped⟩
  case not dest operand =>
    obtain ⟨cell, held, stepped⟩ := stepped
    exact ⟨_, _, .not held, stepped⟩
  case call dest name args => exact absurd rfl (plain dest name args)
  case externalCall dest kind target amount =>
    obtain ⟨receiver, targetHeld, value, amountHeld, stepped⟩ := stepped
    split at stepped
    · simp [pure, Except.pure] at stepped
    · rename_i allowed
      exact ⟨_, _, .externalCall targetHeld amountHeld (by simpa using allowed),
        Step.running.inj (goOn_eq_ok.mp stepped)⟩
  case emit event args =>
    obtain ⟨cells, listed, stepped⟩ := stepped
    exact ⟨_, _, .emit listed, stepped⟩

theorem enterCall_running {frame : Frame} {location : Location} {dest : Option ValueId}
    {name : String} {args : List ValueId}
    (entered : state.enterCall setting frame location dest name args = .ok (.running next)) :
    ∃ callee cells inner, setting.contract.function? name = some callee ∧
      args.mapM frame.get? = .ok cells ∧
      callee.frame cells = .ok inner ∧
      next = ⟨inner, ⟨frame, dest⟩ :: state.callers, state.effects.record frame location
        (.call name)⟩ := by
  unfold enterCall at entered
  split at entered
  · simp at entered
  · rename_i callee found
    obtain ⟨cells, listed, entered⟩ := chain_eq_ok.mp entered
    dsimp only at entered
    split at entered
    · simp at entered
    · obtain ⟨inner, framed, entered⟩ := chain_eq_ok.mp entered
      refine ⟨callee, cells, inner, found, listed, framed, ?_⟩
      simpa only [pure, Except.pure, Except.ok.injEq, Step.running.injEq, eq_comm] using entered

/-- What the end of a block can lead to: another block, or the end of the call. -/
theorem terminator_eq_ok {location : Location} {terminator : Terminator} {step : Step}
    (stepped : state.terminator location terminator = .ok step) :
    (∃ target block effects, state.frame.Goes state.effects location terminator target effects ∧
        state.frame.function.block? target = some block ∧
        step = .running ⟨state.frame.started block, state.callers, effects⟩) ∨
      (∃ value effects, state.frame.Yields state.effects location terminator value effects ∧
        step = state.giveBack value effects) ∨
      ∃ message effects, step = .ended (.reverted message) effects := by
  have went {target : BlockId} {effects : Effects}
      (goes : state.frame.Goes state.effects location terminator target effects)
      (entered : (state.frame.enter target >>= fun frame => state.goOn frame effects) = .ok step) :
      ∃ target block effects, state.frame.Goes state.effects location terminator target effects ∧
        state.frame.function.block? target = some block ∧
        step = .running ⟨state.frame.started block, state.callers, effects⟩ := by
    obtain ⟨frame, entered, stepped⟩ := chain_eq_ok.mp entered
    obtain ⟨block, found, rfl⟩ := Frame.enter_eq_ok.mp entered
    exact ⟨target, block, effects, goes, found, goOn_eq_ok.mp stepped⟩
  cases terminator with
  | jump target => exact .inl (went (.jump target) stepped)
  | branch condition thenBlock elseBlock =>
    obtain ⟨cell, held, stepped⟩ := chain_eq_ok.mp stepped
    exact .inl (went (.branch held) stepped)
  | guard condition kind message target =>
    obtain ⟨cell, held, stepped⟩ := chain_eq_ok.mp stepped
    dsimp only at stepped
    split at stepped
    · rename_i holds
      rw [holds] at stepped
      exact .inl (went (.guard held holds) stepped)
    · exact .inr (.inr ⟨_, _, (Except.ok.inj stepped).symm⟩)
  | ret value =>
    cases value with
    | none => exact .inr (.inl ⟨_, _, .nothing, (Except.ok.inj stepped).symm⟩)
    | some value =>
      obtain ⟨cell, held, stepped⟩ := chain_eq_ok.mp stepped
      exact .inr (.inl ⟨_, _, .value held, (Except.ok.inj stepped).symm⟩)
  | revert message => exact .inr (.inr ⟨_, _, (Except.ok.inj stepped).symm⟩)

theorem step_running (stepped : state.step setting = .ok (.running next)) :
    Move setting state next := by
  unfold step at stepped
  split at stepped
  · rename_i instruction rest pending
    by_cases calls : ∃ dest name args, instruction.node = .call dest name args
    · obtain ⟨node, location⟩ := instruction
      obtain ⟨dest, name, args, rfl⟩ := calls
      obtain ⟨callee, cells, inner, found, listed, framed, rfl⟩ := enterCall_running stepped
      exact .call pending found listed framed
    · push Not at calls
      obtain ⟨after, effects, does, rfl⟩ := instruction_running calls stepped
      exact .instruct pending does
  · rename_i pending
    rcases terminator_eq_ok stepped with ⟨target, block, effects, goes, found, went⟩
      | ⟨value, effects, yields, gave⟩ | ⟨message, effects, ended⟩
    · obtain rfl := Step.running.inj went
      exact .goto pending goes found
    · unfold giveBack at gave
      split at gave
      · simp at gave
      · rename_i caller callers waiting
        obtain rfl := Step.running.inj gave
        exact .giveBack pending yields waiting
    · simp at ended

theorem Leads.move (leads : Leads setting state next) : Move setting state next := by
  obtain ⟨depth, stepped⟩ := leads
  cases step_running stepped with
  | @instruct instruction rest frame effects pending does =>
    obtain ⟨node, location⟩ := instruction
    refine .instruct pending ?_
    cases does <;> constructor <;> assumption
  | call pending found listed framed => exact .call pending found listed framed
  | goto pending goes found => exact .goto pending goes found
  | giveBack pending yields waiting => exact .giveBack pending yields waiting

/-- Instructions give nothing back: they go on, or revert. -/
theorem instruction_ended {frame : Frame} {location : Location} {instruction : Instruction}
    {ending : Ending} {effects : Effects}
    (stepped : state.instruction setting frame location instruction = .ok (.ended ending effects)) :
    ∃ message, ending = .reverted message := by
  cases instruction <;> simp only [Running.instruction, chain_eq_ok, goOn_eq_ok, reduceCtorEq,
    and_false, exists_false] at stepped
  case loadLocal => split at stepped <;> simp [goOn] at stepped
  case storeLocal =>
    obtain ⟨cell, _, stepped⟩ := stepped
    split at stepped <;> simp [goOn] at stepped
  case binary =>
    obtain ⟨left, _, right, _, stepped⟩ := stepped
    split at stepped
    · exact ⟨_, (Step.ended.inj (Except.ok.inj stepped)).1.symm⟩
    · simp [goOn] at stepped
  case call =>
    unfold enterCall at stepped
    split at stepped
    · simp at stepped
    · obtain ⟨cells, _, stepped⟩ := chain_eq_ok.mp stepped
      dsimp only at stepped
      split at stepped
      · simp at stepped
      · obtain ⟨inner, _, stepped⟩ := chain_eq_ok.mp stepped
        simp [pure, Except.pure] at stepped
  case externalCall =>
    obtain ⟨receiver, _, value, _, stepped⟩ := stepped
    split at stepped
    · exact ⟨_, (Step.ended.inj (Except.ok.inj stepped)).1.symm⟩
    · simp [goOn] at stepped

theorem step_returned {value : Option Cell} {effects : Effects}
    (stepped : state.step setting = .ok (.ended (.returned value) effects)) :
    state.Stops value effects := by
  unfold step at stepped
  split at stepped
  · obtain ⟨message, reverts⟩ := instruction_ended stepped
    simp at reverts
  · rename_i pending
    rcases terminator_eq_ok stepped with ⟨_, _, _, _, _, went⟩ | ⟨given, later, yields, gave⟩
      | ⟨_, _, reverted⟩
    · simp at went
    · unfold giveBack at gave
      split at gave
      · rename_i alone
        simp only [Step.ended.injEq, Ending.returned.injEq] at gave
        obtain ⟨rfl, rfl⟩ := gave
        exact ⟨alone, pending, yields⟩
      · simp at gave
    · simp at reverted

theorem EndsWith.stops {value : Option Cell} {effects : Effects}
    (ends : EndsWith setting state (.returned value) effects) :
    ∃ last, Reaches setting state last ∧ last.Stops value effects := by
  obtain ⟨depth, budget, fuel, ran⟩ := ends
  induction fuel generalizing state with
  | zero => simp [run] at ran
  | succ fuel ih =>
    simp only [run] at ran
    cases stepped : state.step (setting.withDepth depth) with
    | error problem => simp [stepped] at ran
    | ok step =>
      rw [stepped] at ran
      cases step with
      | ended ending final =>
        simp only [Except.ok.injEq, Prod.mk.injEq] at ran
        obtain ⟨rfl, rfl⟩ := ran
        exact ⟨state, .refl state, step_returned stepped⟩
      | running next =>
        obtain ⟨last, reaches, stops⟩ := ih ran
        exact ⟨last, .step ⟨depth, stepped⟩ reaches, stops⟩

end Running

/-!
A call runs on its own. What it does is what it would do if no callers waited for it, until it gives
its result back to the first of them.
-/

def Step.onTopOf (base : List Caller) : Step → Step
  | .running next => .running { next with callers := next.callers ++ base }
  | .ended (.returned value) effects =>
    match base with
    | [] => .ended (.returned value) effects
    | caller :: rest => .running ⟨caller.receive value, rest, effects⟩
  | .ended (.reverted message) effects => .ended (.reverted message) effects

theorem map_eq_ok {ε α β : Type} {change : α → β} {result : Except ε α} {value : β} :
    result.map change = .ok value ↔ ∃ found, result = .ok found ∧ change found = value := by
  cases result <;> simp [Except.map]

namespace Running

variable {setting : Setting} {frame : Frame} {inner base : List Caller} {effects final : Effects}
  {state next last : Running} {location : Location}

theorem instruction_onTopOf {instruction : Instruction} (entered : Frame)
    (plain : ∀ dest name args, instruction ≠ .call dest name args) :
    Running.instruction setting ⟨frame, inner ++ base, effects⟩ entered location instruction =
      (Running.instruction setting ⟨frame, inner, effects⟩ entered location instruction).map
      (Step.onTopOf base) := by
  cases instruction with
  | const | env => rfl
  | loadLocal dest slot =>
    simp only [Running.instruction]
    split <;> rfl
  | storeLocal slot value =>
    simp only [Running.instruction]
    cases entered.get? value with
    | error problem => rfl
    | ok cell =>
      simp only [bind, Except.bind]
      split <;> rfl
  | loadField dest field key =>
    simp only [Running.instruction]
    cases entered.place field key <;> rfl
  | storeField field key value =>
    simp only [Running.instruction]
    cases entered.place field key with
    | error problem => rfl
    | ok place => cases entered.get? value <;> rfl
  | binary dest op ty lhs rhs =>
    simp only [Running.instruction]
    cases entered.get? lhs with
    | error problem => rfl
    | ok left =>
      cases entered.get? rhs with
      | error problem => rfl
      | ok right =>
        simp only [bind, Except.bind]
        split <;> rfl
  | not dest operand =>
    simp only [Running.instruction]
    cases entered.get? operand <;> rfl
  | call dest name args => exact absurd rfl (plain dest name args)
  | externalCall dest kind target amount =>
    simp only [Running.instruction]
    cases entered.get? target with
    | error problem => rfl
    | ok receiver =>
      cases entered.get? amount with
      | error problem => rfl
      | ok value =>
        simp only [bind, Except.bind]
        split <;> rfl
  | emit event args =>
    simp only [Running.instruction]
    cases args.mapM entered.get? <;> rfl

theorem giveBack_onTopOf (value : Option Cell) :
    Running.giveBack ⟨frame, inner ++ base, final⟩ value effects =
      (Running.giveBack ⟨frame, inner, final⟩ value effects).onTopOf base := by
  cases inner with
  | nil => cases base <;> rfl
  | cons caller callers => rfl

theorem terminator_onTopOf (terminator : Terminator) :
    Running.terminator ⟨frame, inner ++ base, effects⟩ location terminator =
      (Running.terminator ⟨frame, inner, effects⟩ location terminator).map (Step.onTopOf base) := by
  cases terminator with
  | jump target =>
    simp only [Running.terminator]
    cases frame.enter target <;> rfl
  | branch condition thenBlock elseBlock =>
    simp only [Running.terminator]
    cases frame.get? condition with
    | error problem => rfl
    | ok cell =>
      simp only [bind, Except.bind]
      cases frame.enter (if (cell.value != 0) = true then thenBlock else elseBlock) <;> rfl
  | guard condition kind message target =>
    simp only [Running.terminator]
    cases frame.get? condition with
    | error problem => rfl
    | ok cell =>
      simp only [bind, Except.bind]
      split
      · cases frame.enter target <;> rfl
      · rfl
  | ret value =>
    cases value with
    | none => exact congrArg Except.ok (giveBack_onTopOf none)
    | some value =>
      simp only [Running.terminator]
      cases frame.get? value with
      | error problem => rfl
      | ok cell => exact congrArg Except.ok (giveBack_onTopOf (some cell))
  | revert message => rfl

theorem enterCall_onTopOf {entered : Frame} {dest : Option ValueId} {name : String}
    {args : List ValueId} {step : Step}
    (stepped : Running.enterCall setting ⟨frame, inner ++ base, effects⟩ entered location dest name
      args = .ok step) :
    ∃ alone, Running.enterCall setting ⟨frame, inner, effects⟩ entered location dest name args =
      .ok alone ∧
      alone.onTopOf base = step := by
  unfold enterCall at stepped ⊢
  split at stepped
  · simp at stepped
  · obtain ⟨cells, listed, stepped⟩ := chain_eq_ok.mp stepped
    dsimp only at stepped
    split at stepped
    · simp at stepped
    · rename_i deep
      obtain ⟨begun, framed, stepped⟩ := chain_eq_ok.mp stepped
      obtain rfl := Except.ok.inj stepped
      -- fewer calls are nested if fewer callers wait
      have shallow : ¬ inner.length + 1 > setting.depthLimit := by
        rw [List.length_append] at deep
        omega
      refine ⟨.running
        ⟨begun, ⟨entered, dest⟩ :: inner, effects.record entered location (.call name)⟩, ?_, rfl⟩
      simp only [listed, bind, Except.bind, if_neg shallow, framed]
      rfl

theorem step_onTopOf {step : Step}
    (stepped : Running.step setting ⟨frame, inner ++ base, effects⟩ = .ok step) :
    ∃ alone, Running.step setting ⟨frame, inner, effects⟩ = .ok alone ∧
      alone.onTopOf base = step := by
  unfold Running.step at stepped ⊢
  dsimp only at stepped ⊢
  split at stepped
  · rename_i instruction rest pending
    by_cases calls : ∃ dest name args, instruction.node = .call dest name args
    · obtain ⟨dest, name, args, same⟩ := calls
      rw [same] at stepped ⊢
      exact enterCall_onTopOf stepped
    · push Not at calls
      rw [instruction_onTopOf _ calls] at stepped
      exact map_eq_ok.mp stepped
  · rw [terminator_onTopOf] at stepped
    exact map_eq_ok.mp stepped

theorem Leads.onTopOf (leads : Leads setting ⟨frame, inner ++ base, effects⟩ next) :
    (∃ alone, Leads setting ⟨frame, inner, effects⟩ alone ∧
      next = { alone with callers := alone.callers ++ base }) ∨
      ∃ caller rest value later, base = caller :: rest ∧ Stops ⟨frame, inner, effects⟩ value later ∧
        next = ⟨caller.receive value, rest, later⟩ := by
  obtain ⟨depth, stepped⟩ := leads
  obtain ⟨alone, taken, same⟩ := step_onTopOf stepped
  cases alone with
  | running ahead => exact .inl ⟨ahead, ⟨depth, taken⟩, (Step.running.inj same).symm⟩
  | ended ending later =>
    cases ending with
    | reverted message => simp [Step.onTopOf] at same
    | returned value =>
      cases base with
      | nil => simp [Step.onTopOf] at same
      | cons caller rest =>
        exact .inr ⟨caller, rest, value, later, rfl, step_returned taken,
          (Step.running.inj same).symm⟩

theorem Reaches.unwinds {caller : Caller} {rest : List Caller}
    (reaches : Reaches setting ⟨frame, inner ++ caller :: rest, effects⟩ last)
    (done : last.callers = []) :
    ∃ middle value later, Reaches setting ⟨frame, inner, effects⟩ middle ∧
      middle.Stops value later ∧
      Reaches setting ⟨frame, inner ++ caller :: rest, effects⟩
        ⟨caller.receive value, rest, later⟩ ∧
      Reaches setting ⟨caller.receive value, rest, later⟩ last := by
  generalize start : (⟨frame, inner ++ caller :: rest, effects⟩ : Running) = state at reaches
  induction reaches generalizing frame inner effects with
  | refl =>
    subst start
    simp at done
  | step leads further ih =>
    subst start
    rcases leads.onTopOf with ⟨alone, led, rfl⟩ | ⟨_, _, value, later, same, stops, rfl⟩
    · obtain ⟨middle, value, later, reached, stops, back, others⟩ := ih done rfl
      exact ⟨middle, value, later, .step led reached, stops, .step leads back, others⟩
    · obtain ⟨rfl, rfl⟩ := List.cons.inj same
      exact ⟨_, value, later, .refl _, stops, .step leads (.refl _), further⟩

end Running

end Covenant
