import Covenant.Proofs.Run.Moves
import Covenant.Proofs.Run.Storage
import Covenant.Scan.Finding

/-!
Runs in which one store writes another value than it says. Next to the run as it is, such a run
takes the same steps for as long as what it loads is the same: all else that a step looks at is in
the frames.
-/

namespace Covenant

structure Alteration where
  function : Function
  position : Finding.Position
  value : Running → Nat

def Alteration.hits (change : Alteration) (frame : Frame) : Bool :=
  frame.function == change.function && frame.block.id == change.position.block &&
    frame.pending.length + change.position.index == frame.block.instructions.length

namespace Running

def storing (state : Running) (frame : Frame) (location : Location) (field : String)
    (key : Option ValueId) (value : ValueId) (written : Nat → Nat) : Except ExecutionError Step :=
  do
  let place ← frame.place field key
  let cell ← frame.get? value
  let effects := state.effects.record frame location (.setStorage place (written cell.value))
  state.goOn frame (effects.store place ⟨written cell.value, cell.tainted⟩)

def stepAltered (change : Alteration) (setting : Setting) (state : Running) :
    Except ExecutionError Step :=
  match state.frame.pending with
  | ⟨.storeField field key value, location⟩ :: rest =>
    if change.hits state.frame then
      state.storing (state.frame.past rest) location field key value fun _ => change.value state
    else state.step setting
  | _ => state.step setting

/-- Takes at most `fuel` steps; `budget` is named in the error if they do not suffice. -/
def runAltered (change : Alteration) (setting : Setting) (budget : Nat) :
    Nat → Running → Except ExecutionError (Ending × Effects)
  | 0, _ => .error (.outOfFuel budget)
  | fuel + 1, state =>
    match state.stepAltered change setting with
    | .error problem => .error problem
    | .ok (.ended ending effects) => .ok (ending, effects)
    | .ok (.running next) => runAltered change setting budget fuel next

end Running

def Contract.runAltered (change : Alteration) (contract : Contract) (limits : RunLimits)
    (name : String) (inputs : Inputs) : Except ExecutionError Report :=
  match contract.function? name with
  | none => .error (.unknownFunction name)
  | some function =>
    if function.params.length != inputs.args.length then
      .error (.arityMismatch name function.params.length inputs.args.length)
    else do
      let frame ← function.frame (function.entryCells inputs.args)
      let (ending, effects) ← Running.runAltered change (inputs.setting contract limits) limits.fuel
        limits.fuel { frame, callers := [], effects := Effects.start inputs.storage }
      return report inputs.storage ending effects

theorem Contract.runAltered_eq_bind {change : Alteration} {contract : Contract} {name : String}
    {function : Function} {inputs : Inputs} (found : contract.function? name = some function)
    (count : function.params.length = inputs.args.length) (limits : RunLimits) :
    contract.runAltered change limits name inputs =
      (function.frame (function.entryCells inputs.args) >>= fun frame =>
      (Running.runAltered change (inputs.setting contract limits) limits.fuel limits.fuel
        ⟨frame, [], Effects.start inputs.storage⟩).map fun ended =>
        report inputs.storage ended.1 ended.2) := by
  unfold runAltered
  simp only [found, count, bne_self_eq_false, Bool.false_eq_true, if_false]
  rfl

/-- What a call leaves behind: how it ended, the storage, and what it told the world outside. -/
def Report.outcome (report : Report) :
    CallResult × Storage × List EmittedEvent × List ExternalCallRecord :=
  (report.result, report.storage, report.events, report.calls)

structure Effects.Shares (related : Storage → Storage → Prop) (left right : Effects) : Prop where
  storage : related left.storage right.storage
  tainted : right.tainted = left.tainted
  events : right.events = left.events
  calls : right.calls = left.calls

variable {related : Storage → Storage → Prop} {left right : Effects}

theorem Effects.Shares.refl (effects : Effects) : effects.Shares Eq effects := ⟨rfl, rfl, rfl, rfl⟩

theorem Effects.Shares.record (shares : left.Shares related right) (frame : Frame)
    (location : Location) (action other : Action) :
    (left.record frame location action).Shares related (right.record frame location other) :=
  ⟨shares.storage, shares.tainted, shares.events, shares.calls⟩

theorem Effects.Shares.store {later : Storage → Storage → Prop}
    (shares : left.Shares related right) {place : StorageKey} {value other : Nat}
    (puts : later (Storage.put place value left.storage) (Storage.put place other right.storage))
    (tainted : Bool) :
    (left.store place ⟨value, tainted⟩).Shares later (right.store place ⟨other, tainted⟩) := by
  obtain ⟨_, same, events, calls⟩ := shares
  exact ⟨puts, by simp only [Effects.store, same], events, calls⟩

namespace Running

inductive Agree (goes : Running → Running → Prop) (ends : Effects → Effects → Prop) :
    Except ExecutionError Step → Except ExecutionError Step → Prop
  | error (problem) : Agree goes ends (.error problem) (.error problem)
  | running {first second : Running} : goes first second → Agree goes ends (.ok (.running first))
      (.ok (.running second))
  | returned (value) {left right : Effects} : ends left right →
      Agree goes ends (.ok (.ended (.returned value) left)) (.ok (.ended (.returned value) right))
  | reverted (message) (left right : Effects) :
      Agree goes ends (.ok (.ended (.reverted message) left))
        (.ok (.ended (.reverted message) right))

inductive Beside (related : Storage → Storage → Prop) : Running → Running → Prop
  | intro (frame callers) {left right : Effects} : left.Shares related right →
      Beside related ⟨frame, callers, left⟩ ⟨frame, callers, right⟩

abbrev Parallel (related : Storage → Storage → Prop) :
    Except ExecutionError Step → Except ExecutionError Step → Prop :=
  Agree (Beside related) (Effects.Shares related)

theorem Agree.imp {goes later : Running → Running → Prop} {ends after : Effects → Effects → Prop}
    {first second : Except ExecutionError Step} (agree : Agree goes ends first second)
    (running : ∀ state other, first = .ok (.running state) → goes state other → later state other)
    (returned : ∀ value left right, first = .ok (.ended (.returned value) left) → ends left right →
      after left right) :
    Agree later after first second := by
  cases agree with
  | error problem => exact .error problem
  | running relates => exact .running (running _ _ rfl relates)
  | returned value relates => exact .returned value (returned value _ _ rfl relates)
  | reverted message left right => exact .reverted message left right

theorem Agree.bind {goes : Running → Running → Prop} {ends : Effects → Effects → Prop} {α : Type}
    {part : Except ExecutionError α} {first second : α → Except ExecutionError Step}
    (next : ∀ value, part = .ok value → Agree goes ends (first value) (second value)) :
    Agree goes ends (part >>= first) (part >>= second) := by
  cases part with
  | error problem => exact .error problem
  | ok value => exact next value rfl

variable {setting : Setting} {frame inner : Frame} {callers : List Caller} {location : Location}

theorem parallel_storing {later : Storage → Storage → Prop} {field : String} {key : Option ValueId}
    {value : ValueId} {written other : Nat → Nat} (shares : left.Shares related right)
    (puts : ∀ place number, inner.place field key = .ok place →
      later (Storage.put place (written number) left.storage)
        (Storage.put place (other number) right.storage)) :
    Parallel later (storing ⟨frame, callers, left⟩ inner location field key value written)
      (storing ⟨frame, callers, right⟩ inner location field key value other) := by
  refine .bind fun place found => .bind fun cell _ => .running (.intro _ _ ?_)
  exact (shares.record inner location _ _).store (puts place cell.value found) cell.tainted

/-- An instruction other than a store leads to the same if it loads the same. -/
theorem parallel_instruction {instruction : Instruction} (shares : left.Shares related right)
    (plain : ∀ field key value, instruction ≠ .storeField field key value)
    (loads : ∀ dest field key place, instruction = .loadField dest field key →
      inner.place field key = .ok place →
      right.storage.get place = left.storage.get place) :
    Parallel related (Running.instruction setting ⟨frame, callers, left⟩ inner location instruction)
      (Running.instruction setting ⟨frame, callers, right⟩ inner location instruction) := by
  cases instruction with
  | const dest value ty => exact .running (.intro _ _ shares)
  | env dest var => exact .running (.intro _ _ shares)
  | loadLocal dest slot =>
    simp only [Running.instruction]
    cases inner.locals[slot]? with
    | none => exact .error _
    | some cell => exact .running (.intro _ _ shares)
  | storeLocal slot value =>
    refine .bind fun cell _ => ?_
    split
    · exact .running (.intro _ _ (shares.record ..))
    · exact .error _
  | loadField dest field key =>
    refine .bind fun place found => ?_
    have same : right.load place = left.load place := by
      simp only [Effects.load, loads dest field key place rfl found, shares.tainted]
    rw [same]
    exact .running (.intro _ _ shares)
  | storeField field key value => exact absurd rfl (plain field key value)
  | binary dest op ty lhs rhs =>
    refine .bind fun first _ => .bind fun second _ => ?_
    cases op.eval? ty first.value second.value with
    | none => exact .reverted _ _ _
    | some value => exact .running (.intro _ _ shares)
  | not dest operand => exact .bind fun cell _ => .running (.intro _ _ shares)
  | call dest name args =>
    simp only [Running.instruction, enterCall]
    cases setting.contract.function? name with
    | none => exact .error _
    | some callee =>
      refine .bind fun cells _ => ?_
      split
      · exact .error _
      · exact .bind fun begun _ => .running (.intro _ _ (shares.record ..))
  | externalCall dest kind target amount =>
    refine .bind fun receiver _ => .bind fun value _ => ?_
    dsimp only
    split
    · exact .reverted _ _ _
    · exact .running
        (.intro _ _ ⟨shares.storage, shares.tainted, shares.events,
          congrArg (List.cons _) shares.calls⟩)
  | emit event args =>
    exact .bind fun cells _ =>
      .running
        (.intro _ _ ⟨shares.storage, shares.tainted, congrArg (List.cons _) shares.events,
          shares.calls⟩)

theorem parallel_giveBack (shares : left.Shares related right) (value : Option Cell) :
    Parallel related
      (.ok (giveBack ⟨frame, callers, left⟩ value (left.record frame location action)))
      (.ok (giveBack ⟨frame, callers, right⟩ value (right.record frame location action))) := by
  cases callers with
  | nil => exact .returned value (shares.record ..)
  | cons caller callers => exact .running (.intro _ _ (shares.record ..))

theorem parallel_terminator (shares : left.Shares related right) (terminator : Terminator) :
    Parallel related (Running.terminator ⟨frame, callers, left⟩ location terminator)
      (Running.terminator ⟨frame, callers, right⟩ location terminator) := by
  cases terminator with
  | jump target => exact .bind fun entered _ => .running (.intro _ _ shares)
  | branch condition thenBlock elseBlock =>
    exact .bind fun cell _ => .bind fun entered _ => .running (.intro _ _ (shares.record ..))
  | guard condition kind message next =>
    refine .bind fun cell _ => ?_
    dsimp only
    split
    · exact .bind fun entered _ => .running (.intro _ _ (shares.record ..))
    · exact .reverted _ _ _
  | ret value =>
    cases value with
    | none => exact parallel_giveBack shares none
    | some value => exact .bind fun cell _ => parallel_giveBack shares (some cell)
  | revert message => exact .reverted _ _ _

theorem step_of_nil {state : Running} (pending : state.frame.pending = []) : state.step setting =
    state.terminator state.frame.block.terminator.location state.frame.block.terminator.node := by
  simp only [step, pending]

theorem step_of_cons {state : Running} {instruction : Located Instruction}
    {rest : List (Located Instruction)} (pending : state.frame.pending = instruction :: rest) :
    state.step setting =
      state.instruction setting (state.frame.past rest) instruction.location instruction.node := by
  simp only [step, pending]
  rfl

theorem step_of_store {state : Running} {field : String} {key : Option ValueId} {value : ValueId}
    {rest : List (Located Instruction)}
    (pending : state.frame.pending = ⟨.storeField field key value, location⟩ :: rest) :
    state.step setting = state.storing (state.frame.past rest) location field key value id := by
  rw [step_of_cons pending]
  rfl

/-! Where a step goes that leaves a call where it is. -/

variable {state next : Running}

theorem place_of_step {instruction : Located Instruction} {rest : List (Located Instruction)}
    (stepped : state.step setting = .ok (.running next))
    (pending : state.frame.pending = instruction :: rest)
    (plain : ∀ dest name args, instruction.node ≠ .call dest name args) :
    next.frame.function = state.frame.function ∧ next.frame.block = state.frame.block ∧
      next.frame.pending = rest := by
  cases step_running stepped with
  | instruct here does =>
    obtain ⟨rfl, rfl⟩ := List.cons.inj (pending.symm.trans here)
    exact does.place_eq
  | call here =>
    obtain ⟨rfl, rfl⟩ := List.cons.inj (pending.symm.trans here)
    exact absurd rfl (plain _ _ _)
  | goto here => simp [pending] at here
  | giveBack here => simp [pending] at here

theorem place_of_step_nil (stepped : state.step setting = .ok (.running next))
    (pending : state.frame.pending = [])
    (stays : ∀ value, state.frame.block.terminator.node ≠ .ret value) :
    ∃ target ∈ state.frame.block.terminator.node.successors, ∃ block,
      state.frame.function.block? target = some block ∧
      next.frame = state.frame.started block := by
  cases step_running stepped with
  | instruct here => simp [pending] at here
  | call here => simp [pending] at here
  | goto _ goes found => exact ⟨_, goes.mem_successors, _, found, rfl⟩
  | @giveBack _ _ _ _ _ yields =>
    generalize state.frame.block.terminator.node = node at yields stays
    cases yields <;> exact absurd rfl (stays _)

theorem stepAltered_of_nil {change : Alteration} (pending : state.frame.pending = []) :
    state.stepAltered change setting = state.step setting := by
  simp only [stepAltered, pending]

theorem stepAltered_of_not_hits {change : Alteration} (other : change.hits state.frame = false) :
    state.stepAltered change setting = state.step setting := by
  unfold stepAltered
  split
  · rw [if_neg (by simp [other])]
  · rfl

theorem stepAltered_of_hits {change : Alteration} {field : String} {key : Option ValueId}
    {value : ValueId} {rest : List (Located Instruction)}
    (pending : state.frame.pending = ⟨.storeField field key value, location⟩ :: rest)
    (hits : change.hits state.frame = true) : state.stepAltered change setting =
      state.storing (state.frame.past rest) location field key value fun _ =>
        change.value state := by
  simp only [stepAltered, pending, hits, if_true]

end Running

end Covenant
