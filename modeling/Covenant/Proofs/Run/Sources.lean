import Covenant.Proofs.Run.Outermost

/-!
Where things come from in a run. Each value that a frame holds was given by an instruction of its
function, and all events and calls out of the contract that are reported were the next thing to do
in some state of the run.
-/

namespace Covenant

def Function.Has (function : Function) (instruction : Instruction) : Prop :=
  ∃ block ∈ function.blocks, ∃ located ∈ block.instructions, located.node = instruction

structure Setting.Gives (setting : Setting) (instruction : Instruction) (value : ValueId)
    (cell : Cell) : Prop where
  dest : instruction.dest? = some value
  env : ∀ var, instruction = .env value var → cell.value = setting.env.get var
  called : ∀ name args, instruction = .call (some value) name args →
    (setting.contract.function? name).isSome = true

def Frame.Sourced (setting : Setting) (frame : Frame) : Prop :=
  ∀ entry ∈ frame.values, ∃ instruction, frame.function.Has instruction ∧
    setting.Gives instruction entry.1 entry.2

structure Caller.Sourced (setting : Setting) (caller : Caller) : Prop where
  frame : caller.frame.Sourced setting
  dest : ∀ dest, caller.dest = some dest → ∃ name args, caller.frame.function.Has
    (.call (some dest) name args) ∧
    (setting.contract.function? name).isSome = true

structure Running.Sourced (setting : Setting) (state : Running) : Prop where
  frame : state.frame.Sourced setting
  callers : ∀ caller ∈ state.callers, caller.Sourced setting

variable {given : Prop} {setting : Setting} {declared : Declarations} {result : Option Ty}
  {types : List Ty}

namespace Frame

variable {frame : Frame} {effects later : Effects} {after : Frame} {location : Location}
  {instruction : Instruction}

theorem Typed.has {contract : Contract} {awaited : Option ValueId}
    (typed : frame.Typed given contract declared types awaited) {located : Located Instruction}
    {rest : List (Located Instruction)} (pending : frame.pending = located :: rest) :
    frame.function.Has located.node := by
  obtain ⟨done, split, _⟩ := typed.place
  have listed : located ∈ frame.block.instructions := by
    rw [split, pending]
    exact List.mem_append_right _ List.mem_cons_self
  exact ⟨frame.block, List.mem_of_getElem? typed.block, located, listed, rfl⟩

theorem Sourced.define (sourced : frame.Sourced setting) {value : ValueId} {cell : Cell}
    (has : frame.function.Has instruction) (gives : setting.Gives instruction value cell) :
    (frame.define value cell).Sourced setting := by
  intro entry member
  rcases List.mem_cons.mp member with same | old
  · rw [same]
    exact ⟨instruction, has, gives⟩
  · exact sourced entry old

theorem sourced_of_no_values (empty : frame.values = []) : frame.Sourced setting := by
  intro entry member
  simp [empty] at member

theorem sourced_of_framed {function : Function} {cells : List Cell}
    (framed : function.frame cells = .ok frame) :
    frame.Sourced setting := by
  unfold Function.frame at framed
  split at framed
  · obtain rfl := Except.ok.inj framed
    exact sourced_of_no_values rfl
  · simp at framed

theorem Goes.effects_eq {terminator : Terminator} {target : BlockId}
    (goes : frame.Goes effects location terminator target later) :
    ∃ trace, later = { effects with trace } := by
  cases goes <;> exact ⟨_, rfl⟩

theorem Yields.effects_eq {terminator : Terminator} {value : Option Cell}
    (yields : frame.Yields effects location terminator value later) :
    ∃ trace, later = { effects with trace } := by
  cases yields <;> exact ⟨_, rfl⟩

theorem Sourced.does (sourced : frame.Sourced setting) (has : frame.function.Has instruction)
    (does : frame.Does setting effects location instruction after later) :
    after.Sourced setting := by
  cases does with
  | const | loadLocal | loadField | binary | not | externalCall =>
    exact sourced.define has ⟨rfl, nofun, nofun⟩
  | env dest var =>
    refine sourced.define has ⟨rfl, fun other same => ?_, nofun⟩
    rw [(Instruction.env.inj same).2]
    rfl
  | storeLocal | storeField | emit => exact sourced

end Frame

namespace Running

variable {state next final : Running}

theorem Move.sourced (move : Move setting state next)
    (typed : state.Typed given setting.contract declared result) (sourced : state.Sourced setting) :
    next.Sourced setting := by
  obtain ⟨types, standing⟩ := typed.frame
  cases move with
  | @instruct instruction rest frame effects pending does =>
    have start : (state.frame.past rest).Sourced setting := sourced.frame
    exact ⟨start.does (standing.has pending) does, sourced.callers⟩
  | @call dest name args location rest callee cells frame pending found listed framed =>
    refine ⟨Frame.sourced_of_framed framed,
      List.forall_mem_cons.mpr ⟨⟨sourced.frame, ?_⟩, sourced.callers⟩⟩
    rintro value rfl
    exact ⟨name, args, standing.has pending, by rw [found]; rfl⟩
  | goto => exact ⟨Frame.sourced_of_no_values rfl, sourced.callers⟩
  | @giveBack caller callers value effects pending yields waiting =>
    have waits := sourced.callers
    rw [waiting] at waits
    obtain ⟨first, others⟩ := List.forall_mem_cons.mp waits
    refine ⟨?_, others⟩
    unfold Caller.receive
    split
    · rename_i dest awaits
      obtain ⟨name, args, has, exist⟩ := first.dest dest awaits
      refine first.frame.define has ⟨rfl, nofun, fun other passed same => ?_⟩
      rwa [← (Instruction.call.inj same).2.1]
    · exact first.frame

theorem Reaches.sourced (reaches : Reaches setting state final)
    (code : setting.contract.Typed declared)
    (typed : state.Typed False setting.contract declared result) (sourced : state.Sourced setting) :
    final.Sourced setting := by
  induction reaches with
  | refl => exact sourced
  | step leads _ ih =>
    exact ih (leads.reaches.typed code False.elim typed) (leads.move.sourced typed sourced)

theorem Reaches.mem_effects {α : Type} {list : Effects → List α} {adds : Running → α → Prop}
    {item : α}
    (step : ∀ state next, Move setting state next → item ∈ list next.effects →
      item ∈ list state.effects ∨ adds state item)
    (reaches : Reaches setting state final) (member : item ∈ list final.effects) :
    item ∈ list state.effects ∨ ∃ middle, Reaches setting state middle ∧ adds middle item := by
  induction reaches with
  | refl => exact .inl member
  | @step state middle final leads _ ih =>
    rcases ih member with early | ⟨later, reached, added⟩
    · rcases step state middle leads.move early with old | added
      · exact .inl old
      · exact .inr ⟨state, .refl state, added⟩
    · exact .inr ⟨later, .step leads reached, added⟩

def Emits (state : Running) (event : EmittedEvent) : Prop :=
  ∃ args, state.Runs (.emit event.name args)

theorem Move.mem_events {event : EmittedEvent} (move : Move setting state next)
    (member : event ∈ next.effects.events) :
    event ∈ state.effects.events ∨ state.Emits event := by
  cases move with
  | @instruct instruction rest frame effects pending does =>
    obtain ⟨node, location⟩ := instruction
    cases does with
    | @emit name args cells listed =>
      rcases List.mem_cons.mp member with rfl | old
      · exact .inr ⟨args, location, rest, pending⟩
      · exact .inl old
    | _ => exact .inl member
  | call => exact .inl member
  | goto _ goes _ =>
    obtain ⟨trace, rfl⟩ := goes.effects_eq
    exact .inl member
  | giveBack _ yields _ =>
    obtain ⟨trace, rfl⟩ := yields.effects_eq
    exact .inl member

def Makes (state : Running) (call : ExternalCallRecord) : Prop :=
  ∃ dest target amount cell, state.Runs (.externalCall dest call.kind target amount) ∧
    state.frame.get? amount = .ok cell ∧ cell.value = call.amount

theorem Move.mem_calls {call : ExternalCallRecord} (move : Move setting state next)
    (member : call ∈ next.effects.calls) : call ∈ state.effects.calls ∨ state.Makes call := by
  cases move with
  | @instruct instruction rest frame effects pending does =>
    obtain ⟨node, location⟩ := instruction
    cases does with
    | @externalCall dest kind target amount receiver value targetHeld amountHeld allowed =>
      rcases List.mem_cons.mp member with rfl | old
      · exact .inr ⟨dest, target, amount, value, ⟨location, rest, pending⟩, amountHeld, rfl⟩
      · exact .inl old
    | _ => exact .inl member
  | call => exact .inl member
  | goto _ goes _ =>
    obtain ⟨trace, rfl⟩ := goes.effects_eq
    exact .inl member
  | giveBack _ yields _ =>
    obtain ⟨trace, rfl⟩ := yields.effects_eq
    exact .inl member

end Running

namespace Contract

variable {contract : Contract} {limits : RunLimits} {inputs : Inputs} {frame : Frame}
  {ending : Ending} {effects : Effects}

/-- What a call reports was the next thing to do in a state that it comes to. -/
theorem runs_of_report
    (ended : Running.run (inputs.setting contract limits) limits.fuel limits.fuel
      ⟨frame, [], Effects.start inputs.storage⟩ = .ok (ending, effects)) :
    (∀ event ∈ (report inputs.storage ending effects).events, ∃ state,
      Running.Reaches (inputs.setting contract limits)
        ⟨frame, [], Effects.start inputs.storage⟩ state ∧
        state.Emits event) ∧
      ∀ call ∈ (report inputs.storage ending effects).calls, ∃ state,
        Running.Reaches (inputs.setting contract limits)
          ⟨frame, [], Effects.start inputs.storage⟩ state ∧
          state.Makes call := by
  cases ending with
  | reverted message => exact ⟨by simp [report], by simp [report]⟩
  | returned value =>
    have ends : Running.EndsWith (inputs.setting contract limits)
      ⟨frame, [], Effects.start inputs.storage⟩
        (.returned value) effects := ⟨limits.callDepth, limits.fuel, limits.fuel, ended⟩
    obtain ⟨last, reaches, stops⟩ := ends.stops
    obtain ⟨trace, rfl⟩ := stops.yields.effects_eq
    refine ⟨fun event member => ?_, fun call member => ?_⟩
    · have listed : event ∈ last.effects.events := List.mem_reverse.mp member
      exact (reaches.mem_effects (fun _ _ move => move.mem_events) listed).resolve_left
        (by simp [Effects.start])
    · have listed : call ∈ last.effects.calls := List.mem_reverse.mp member
      exact (reaches.mem_effects (fun _ _ move => move.mem_calls) listed).resolve_left
        (by simp [Effects.start])

end Contract

/-! Where the values in storage come from. -/

namespace Running

variable {setting : Setting} {state next final : Running}

theorem Move.writes (move : Move setting state next) :
    (next.effects.storage = state.effects.storage ∧ next.effects.stores = state.effects.stores) ∨
      ∃ record : StoreRecord, next.effects.storage =
        Storage.put record.place record.value state.effects.storage ∧
        next.effects.stores = record :: state.effects.stores := by
  cases move with
  | @instruct instruction rest frame effects pending does =>
    obtain ⟨node, location⟩ := instruction
    cases does with
    | @storeField field key value place cell found held =>
      exact .inr ⟨⟨place, cell.value, cell.tainted⟩, rfl, rfl⟩
    | _ => exact .inl ⟨rfl, rfl⟩
  | call => exact .inl ⟨rfl, rfl⟩
  | goto _ goes _ =>
    obtain ⟨trace, rfl⟩ := goes.effects_eq
    exact .inl ⟨rfl, rfl⟩
  | giveBack _ yields _ =>
    obtain ⟨trace, rfl⟩ := yields.effects_eq
    exact .inl ⟨rfl, rfl⟩

theorem Reaches.comesFrom (reaches : Reaches setting state final) {initial : Storage}
    (comes : initial.ComesFrom state.effects.stores state.effects.storage) :
    initial.ComesFrom final.effects.stores final.effects.storage := by
  induction reaches with
  | refl => exact comes
  | step leads _ ih =>
    refine ih ?_
    rcases leads.move.writes with ⟨storage, stores⟩ | ⟨record, storage, stores⟩
    · rwa [storage, stores]
    · rw [storage, stores]
      exact comes.put record

end Running

theorem Contract.comesFrom_of_run {contract : Contract} {limits : RunLimits} {name : String}
    {inputs : Inputs} {report : Report} (ran : contract.run limits name inputs = .ok report) :
    inputs.storage.ComesFrom report.stores report.storage := by
  obtain ⟨function, frame, ending, effects, _, _, _, ended, rfl⟩ := Contract.run_eq_ok_iff.mp ran
  cases ending with
  | reverted message => exact Storage.comesFrom_self _ _
  | returned value =>
    have ends : Running.EndsWith (inputs.setting contract limits)
      ⟨frame, [], Effects.start inputs.storage⟩
        (.returned value) effects := ⟨limits.callDepth, limits.fuel, limits.fuel, ended⟩
    obtain ⟨last, reaches, stops⟩ := ends.stops
    obtain ⟨trace, rfl⟩ := stops.yields.effects_eq
    obtain ⟨sorted, keeps, written⟩ := reaches.comesFrom (Storage.comesFrom_self inputs.storage [])
    refine ⟨sorted, keeps, fun entry member => ?_⟩
    rcases written entry member with first | ⟨record, listed, same⟩
    · exact .inl first
    · exact .inr ⟨record, List.mem_reverse.mpr listed, same⟩

end Covenant
