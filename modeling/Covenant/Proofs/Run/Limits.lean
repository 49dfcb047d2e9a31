import Covenant.Proofs.Lowering.Names
import Covenant.Proofs.Run.Budget
import Mathlib.Control.Monad.Basic

/-!
How a run fails that its limits do not suffice for. The error names the limit that was reached, and
all other outcomes of a run stay the same under greater limits.
-/

namespace Covenant

inductive Setting.Raises (setting : Setting) : ExecutionError → Prop
  | malformed (message) : Raises setting (.malformed message)
  | unknownFunction (name) : Raises setting (.unknownFunction name)
  | callDepthExceeded : Raises setting (.callDepthExceeded setting.depthLimit)

def Setting.Confines {α : Type} (setting : Setting) (part : Except ExecutionError α) : Prop :=
  ∀ problem, part = .error problem → setting.Raises problem

namespace Setting

variable {α β : Type} {setting : Setting}

theorem confines_ok (value : α) : setting.Confines (.ok value) := by
  intro problem failed
  simp at failed

theorem confines_error {problem : ExecutionError} (raises : setting.Raises problem) :
    setting.Confines (.error problem : Except ExecutionError α) := by
  intro other failed
  exact Except.error.inj failed ▸ raises

theorem Confines.bind {part : Except ExecutionError α} {next : α → Except ExecutionError β}
    (first : setting.Confines part) (second : ∀ value, setting.Confines (next value)) :
    setting.Confines (part >>= next) := by
  intro problem failed
  cases done : part with
  | error other =>
    rw [done] at failed
    obtain rfl := Except.error.inj failed
    exact first other done
  | ok value =>
    rw [done] at failed
    exact second value problem failed

theorem Confines.ite {condition : Prop} [Decidable condition]
    {first second : Except ExecutionError α} (yes : setting.Confines first)
    (no : setting.Confines second) :
    setting.Confines (if condition then first else second) := by
  split
  · exact yes
  · exact no

theorem confines_get (frame : Frame) (value : ValueId) : setting.Confines (frame.get? value) := by
  unfold Frame.get?
  split
  · exact confines_ok _
  · exact confines_error (.malformed _)

theorem confines_getAll (frame : Frame) (values : List ValueId) :
    setting.Confines (values.mapM frame.get?) := by
  induction values with
  | nil => exact confines_ok _
  | cons value values ih =>
    rw [List.mapM_cons]
    exact (confines_get frame value).bind fun _ => ih.bind fun _ => confines_ok _

theorem confines_place (frame : Frame) (field : String) (key : Option ValueId) :
    setting.Confines (frame.place field key) := by
  cases key with
  | none => exact confines_ok _
  | some value => exact (confines_get frame value).bind fun _ => confines_ok _

theorem confines_enter (frame : Frame) (target : BlockId) :
    setting.Confines (frame.enter target) := by
  unfold Frame.enter
  split
  · exact confines_ok _
  · exact confines_error (.malformed _)

theorem confines_frame (function : Function) (cells : List Cell) :
    setting.Confines (function.frame cells) := by
  unfold Function.frame
  split
  · exact confines_ok _
  · exact confines_error (.malformed _)

end Setting

namespace Running

open Setting

variable {setting : Setting} {state : Running}

theorem confines_enterCall (frame : Frame) (location : Location) (dest : Option ValueId)
    (name : String) (args : List ValueId) :
    setting.Confines (state.enterCall setting frame location dest name args) := by
  unfold enterCall
  split
  · exact confines_error (.unknownFunction name)
  · refine (confines_getAll frame args).bind fun cells => ?_
    exact .ite (confines_error .callDepthExceeded)
      ((confines_frame _ _).bind fun _ => confines_ok _)

theorem confines_instruction (frame : Frame) (location : Location) (instruction : Instruction) :
    setting.Confines (state.instruction setting frame location instruction) := by
  cases instruction with
  | const | env => exact confines_ok _
  | loadLocal dest slot =>
    simp only [Running.instruction]
    cases frame.locals[slot]? with
    | none => exact confines_error (.malformed _)
    | some cell => exact confines_ok _
  | storeLocal slot value =>
    exact (confines_get frame value).bind fun _ =>
      .ite (confines_ok _) (confines_error (.malformed _))
  | loadField dest field key => exact (confines_place frame field key).bind fun _ => confines_ok _
  | storeField field key value =>
    exact (confines_place frame field key).bind fun _ => (confines_get frame value).bind fun _ =>
      confines_ok _
  | binary dest op ty lhs rhs =>
    refine (confines_get frame lhs).bind fun left => (confines_get frame rhs).bind fun right => ?_
    cases op.eval? ty left.value right.value with
    | none => exact confines_ok _
    | some value => exact confines_ok _
  | not dest operand => exact (confines_get frame operand).bind fun _ => confines_ok _
  | call dest name args => exact confines_enterCall frame location dest name args
  | externalCall dest kind target amount =>
    exact (confines_get frame target).bind fun _ => (confines_get frame amount).bind fun _ =>
      .ite (confines_ok _) (confines_ok _)
  | emit event args => exact (confines_getAll frame args).bind fun _ => confines_ok _

theorem confines_terminator (location : Location) (terminator : Terminator) :
    setting.Confines (state.terminator location terminator) := by
  cases terminator with
  | jump target => exact (confines_enter state.frame target).bind fun _ => confines_ok _
  | branch condition thenBlock elseBlock =>
    exact (confines_get state.frame condition).bind fun _ => (confines_enter _ _).bind fun _ =>
      confines_ok _
  | guard condition kind message next =>
    exact (confines_get state.frame condition).bind fun _ =>
      .ite ((confines_enter _ _).bind fun _ => confines_ok _) (confines_ok _)
  | ret value =>
    cases value with
    | none => exact confines_ok _
    | some value => exact (confines_get state.frame value).bind fun _ => confines_ok _
  | revert message => exact confines_ok _

theorem confines_step : setting.Confines (state.step setting) := by
  unfold step
  split
  · exact confines_instruction _ _ _
  · exact confines_terminator _ _

theorem run_eq_error {budget fuel : Nat} {problem : ExecutionError}
    (failed : run setting budget fuel state = .error problem) :
    problem = .outOfFuel budget ∨ setting.Raises problem := by
  induction fuel generalizing state with
  | zero => exact .inl (Except.error.inj failed).symm
  | succ fuel ih =>
    simp only [run] at failed
    cases stepped : state.step setting with
    | error other =>
      rw [stepped] at failed
      obtain rfl := Except.error.inj failed
      exact .inr (confines_step other stepped)
    | ok next =>
      rw [stepped] at failed
      cases next with
      | ended ending effects => simp at failed
      | running next => exact ih failed

end Running

namespace Contract

open Setting

variable {contract : Contract} {limits : RunLimits} {name : String} {inputs : Inputs}
  {problem : ExecutionError}

/-- An error that tells of a limit names the limit of the run. -/
theorem limit_of_run_eq_error (failed : contract.run limits name inputs = .error problem) :
    (∀ budget, problem = .outOfFuel budget → budget = limits.fuel) ∧
      ∀ limit, problem = .callDepthExceeded limit → limit = limits.callDepth := by
  have named (raises : (inputs.setting contract limits).Raises problem) :
      (∀ budget, problem = .outOfFuel budget → budget = limits.fuel) ∧
        ∀ limit, problem = .callDepthExceeded limit → limit = limits.callDepth := by
    cases raises with
    | malformed | unknownFunction => simp
    | callDepthExceeded => simp [Inputs.setting]
  cases found : contract.function? name with
  | none =>
    simp only [run, found] at failed
    simp [← Except.error.inj failed]
  | some function =>
    by_cases count : function.params.length = inputs.args.length
    · cases framed : function.frame (function.entryCells inputs.args) with
      | error other =>
        rw [run_eq_bind found count, framed] at failed
        exact named (Except.error.inj failed ▸ confines_frame _ _ other framed)
      | ok frame =>
        rw [run_eq_map found count framed] at failed
        cases ended : Running.run (inputs.setting contract limits) limits.fuel limits.fuel
            ⟨frame, [], Effects.start inputs.storage⟩ with
        | ok result => simp [ended, Except.map] at failed
        | error other =>
          rw [ended] at failed
          obtain rfl : other = problem := Except.error.inj failed
          rcases Running.run_eq_error ended with spent | raises
          · simp [spent]
          · exact named raises
    · have differ : (function.params.length != inputs.args.length) = true := by simpa using count
      simp only [run, found, differ, if_true] at failed
      simp [← Except.error.inj failed]

/-- Limits never change the outcome of a call, they only withhold it: greater limits leave a report
as it is, and also every error but those that tell that a limit was reached, which name that limit.
-/
theorem run_of_greater_limits {greater : RunLimits} (fuel : limits.fuel ≤ greater.fuel)
    (depth : limits.callDepth ≤ greater.callDepth) :
    match contract.run limits name inputs with
    | .ok report => contract.run greater name inputs = .ok report
    | .error (.outOfFuel budget) => budget = limits.fuel
    | .error (.callDepthExceeded limit) => limit = limits.callDepth
    | .error problem => contract.run greater name inputs = .error problem := by
  have same := run_eq_of_limits_le contract name inputs fuel depth
  cases ran : contract.run limits name inputs with
  | ok report => exact run_of_limits_le ran fuel depth
  | error problem =>
    have named := limit_of_run_eq_error ran
    rw [ran] at same
    cases problem with
    | outOfFuel budget => exact named.1 budget rfl
    | callDepthExceeded limit => exact named.2 limit rfl
    | _ => simpa using same

/-- Two calls of one level, with their thirteen steps, give under the standard limits what they give
under the least limits that suffice. -/
theorem run_of_greater_limits_of_two_calls :
    let text :=
      "contract A \x7b x: u8 step() \x7b self.x += 1 \x7d go() \x7b self.step() self.step() \x7d \x7d"
    ∃ contract ∈ (ContractSet.ofText text).contracts, ∃ report, report.storage =
      [(⟨"x", none⟩, 2)] ∧
      contract.run ⟨13, 1⟩ "go" .empty = .ok report ∧ contract.run .standard "go" .empty =
        .ok report ∧
      contract.run ⟨12, 1⟩ "go" .empty = .error (.outOfFuel 12) ∧
      contract.run ⟨13, 0⟩ "go" .empty = .error (.callDepthExceeded 0) := by
  intro text
  have checked : ∃ contract ∈ (ContractSet.ofText text).contracts,
      (contract.run ⟨13, 1⟩ "go" .empty).toOption.map Report.storage = some [(⟨"x", none⟩, 2)] ∧
        contract.run ⟨12, 1⟩ "go" .empty = .error (.outOfFuel 12) ∧
        contract.run ⟨13, 0⟩ "go" .empty = .error (.callDepthExceeded 0) := by
    decide +kernel
  obtain ⟨contract, member, held, spent, tooDeep⟩ := checked
  cases ran : contract.run ⟨13, 1⟩ "go" .empty with
  | error problem => simp [ran, Except.toOption] at held
  | ok report =>
    have more := @run_of_greater_limits contract ⟨13, 1⟩ "go" .empty .standard
      (by decide) (by decide)
    rw [ran] at held more
    exact ⟨contract, member, report, Option.some.inj held, ran, more, spent, tooDeep⟩

end Contract

end Covenant
