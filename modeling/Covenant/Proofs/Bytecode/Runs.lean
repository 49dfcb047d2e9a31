import Covenant.Bytecode.Machine

/-!
Runs of programs that end on their own. What an operation does, jumps apart, does not depend on its
place; so a run can be followed in a program whose operations have moved.
-/

namespace Covenant

namespace Bytecode

/-- Whether a run ended on its own: not by a fault of the stack, and not because it took too many
steps. -/
def Outcome.isProper : Outcome → Bool
  | stopped | returned | reverted => true
  | fault _ | outOfFuel => false

def Halt.outcome : Halt → Outcome
  | committed outcome _ => outcome
  | discarded outcome => outcome

def Op.isLoad : Op → Bool
  | load _ _ => true
  | _ => false

namespace MachineState

def moved (state : MachineState) (place : Nat) : MachineState := { state with next := place }

def past (state : MachineState) : MachineState := state.moved (state.next + 1)

def HasRoom (state : MachineState) (op : Op) : Prop :=
  op.isLoad = true → state.stack.length < stackLimit

instance (state : MachineState) (op : Op) : Decidable (state.HasRoom op) :=
  inferInstanceAs (Decidable (_ → _))

def leavesRoom (code : Array Op) (input : MachineInput) : Nat → MachineState → Bool
  | 0, _ => true
  | fuel + 1, state =>
    match code[state.next]? with
    | none => true
    | some op =>
      match run input state.past op with
      | .halted _ _ => true
      | .running next => decide (next.HasRoom op) && leavesRoom code input fuel next

@[simp] theorem next_moved (state : MachineState) (place : Nat) :
    (state.moved place).next = place := rfl

@[simp] theorem stack_moved (state : MachineState) (place : Nat) :
    (state.moved place).stack = state.stack := rfl

@[simp] theorem storage_moved (state : MachineState) (place : Nat) :
    (state.moved place).storage = state.storage := rfl

@[simp] theorem effects_moved (state : MachineState) (place : Nat) :
    (state.moved place).effects = state.effects := rfl

@[simp] theorem moved_moved (state : MachineState) (first second : Nat) :
    (state.moved first).moved second = state.moved second := rfl

@[simp] theorem moved_next (state : MachineState) : state.moved state.next = state := rfl

@[simp] theorem past_moved (state : MachineState) (place : Nat) :
    (state.moved place).past = state.moved (place + 1) :=
  rfl

end MachineState

def MachineStep.moved (place : Nat) : MachineStep → MachineStep
  | .running state => .running (state.moved place)
  | .halted halt state => .halted halt (state.moved place)

namespace MachineState

variable {input : MachineInput}

theorem push_moved (state : MachineState) (place : Nat) (stack : List UInt64) (value : UInt64) :
    (state.moved place).push stack value = (state.push stack value).moved place := by
  unfold push
  split <;> rfl

/-- An operation that does not jump does the same at each place. -/
theorem run_moved (state : MachineState) (place : Nat) {op : Op} (still : op.target? = none) :
    (state.moved place).run input op = (state.run input op).moved place := by
  cases op with
  | jump target => simp [Op.target?] at still
  | jumpIf target => simp [Op.target?] at still
  | push value width => exact push_moved state place _ _
  | load slot wide => exact push_moved state place _ _
  | arg index => exact push_moved state place _ _
  | caller => exact push_moved state place _ _
  | timestamp => exact push_moved state place _ _
  | callValue => exact push_moved state place _ _
  | stop => rfl
  | jumpDest => rfl
  | revert => rfl
  | call =>
    obtain ⟨next, _ | ⟨amount, _ | ⟨target, rest⟩⟩, storage, effects⟩ := state
    · rfl
    · rfl
    · exact push_moved ⟨next, amount :: target :: rest, storage, .transfer target amount :: effects⟩
        place rest 1
  | _ =>
    obtain ⟨next, _ | ⟨first, _ | ⟨second, rest⟩⟩, storage, effects⟩ := state <;>
      first | rfl | exact push_moved _ place _ _

theorem next_of_run {state after : MachineState} {op : Op} (still : op.target? = none)
    (ran : state.run input op = .running after) : after.next = state.next := by
  have same : (state.moved state.next).run input op = (state.run input op).moved state.next :=
    run_moved state state.next still
  rw [moved_next, ran] at same
  exact (MachineStep.running.inj same).symm ▸ rfl

theorem not_running_of_isTerminal {state after : MachineState} {op : Op}
    (ends : op.isTerminal = true) (still : op.target? = none) :
    state.run input op ≠ .running after := by
  cases op with
  | stop => simp [run]
  | revert => simp [run]
  | ret =>
    simp only [run]
    split <;> simp [fault]
  | jump target => simp [Op.target?] at still
  | _ => simp [Op.isTerminal] at ends

theorem improper_of_push {state final : MachineState} {stack : List UInt64} {value : UInt64}
    {halt : Halt} (halts : state.push stack value = .halted halt final) :
    halt.outcome.isProper = false := by
  unfold push at halts
  split at halts
  · obtain ⟨rfl, _⟩ := MachineStep.halted.inj halts
    rfl
  · simp at halts

/-- Only what ends a program can end its run properly. -/
theorem isTerminal_of_halted {state final : MachineState} {op : Op} {halt : Halt}
    (halts : state.run input op = .halted halt final) (proper : halt.outcome.isProper = true) :
    op.isTerminal = true ∧ op.target? = none := by
  have improper {stack : List UInt64} {value : UInt64} {other : MachineState}
      (faulty : other.push stack value = .halted halt final) : False := by
    rw [improper_of_push faulty] at proper
    simp at proper
  have faultless {fault : Fault}
      (faulty : MachineStep.halted (.discarded (.fault fault)) state = .halted halt final) :
      False := by
    obtain ⟨rfl, _⟩ := MachineStep.halted.inj faulty
    simp [Halt.outcome, Outcome.isProper] at proper
  cases op with
  | stop => exact ⟨rfl, rfl⟩
  | ret => exact ⟨rfl, rfl⟩
  | revert => exact ⟨rfl, rfl⟩
  | push value width => exact (improper halts).elim
  | load slot wide => exact (improper halts).elim
  | arg index => exact (improper halts).elim
  | caller => exact (improper halts).elim
  | timestamp => exact (improper halts).elim
  | callValue => exact (improper halts).elim
  | jump target => simp [run] at halts
  | jumpDest => simp [run] at halts
  | _ =>
    simp only [run] at halts
    split at halts
    · first
        | exact (improper halts).elim
        | simp at halts
    · exact (faultless halts).elim

/-! When an operation goes on, and with what state. -/

theorem push_eq_running {state next : MachineState} {stack : List UInt64} {value : UInt64} :
    state.push stack value = .running next ↔
      stack.length < stackLimit ∧ next = { state with stack := value :: stack } := by
  unfold push
  split
  · simp only [fault, reduceCtorEq, false_iff]
    omega
  · simp only [MachineStep.running.injEq]
    exact ⟨fun same => ⟨by omega, same.symm⟩, fun same => same.2.symm⟩

theorem run_pop_eq_running {state next : MachineState} :
    state.run input .pop = .running next ↔
      ∃ value rest, state.stack = value :: rest ∧ next = { state with stack := rest } := by
  cases held : state.stack with
  | nil => simp [run, held, fault]
  | cons value rest =>
    simp only [run, held, MachineStep.running.injEq, List.cons.injEq]
    exact ⟨fun same => ⟨value, rest, ⟨rfl, rfl⟩, same.symm⟩,
      fun ⟨_, _, ⟨rfl, rfl⟩, same⟩ => same.symm⟩

theorem run_store_eq_running {state next : MachineState} {slot : UInt32} {wide : Bool} :
    state.run input (.store slot wide) = .running next ↔ ∃ value rest, state.stack = value :: rest ∧
      next = { state with stack := rest, storage := state.storage.put slot value } := by
  cases held : state.stack with
  | nil => simp [run, held, fault]
  | cons value rest =>
    simp only [run, held, MachineStep.running.injEq, List.cons.injEq]
    exact ⟨fun same => ⟨value, rest, ⟨rfl, rfl⟩, same.symm⟩,
      fun ⟨_, _, ⟨rfl, rfl⟩, same⟩ => same.symm⟩

theorem run_jumpIf_eq_running {state next : MachineState} {target : Nat} :
    state.run input (.jumpIf target) = .running next ↔ ∃ condition rest,
      state.stack = condition :: rest ∧
      next =
        { state with stack := rest, next := if condition = 0 then state.next else target } := by
  cases held : state.stack with
  | nil => simp [run, held, fault]
  | cons condition rest =>
    simp only [run, held, MachineStep.running.injEq, List.cons.injEq]
    exact ⟨fun same => ⟨condition, rest, ⟨rfl, rfl⟩, same.symm⟩,
      fun ⟨_, _, ⟨rfl, rfl⟩, same⟩ => same.symm⟩

theorem run_unary_eq_running {state next : MachineState} {op : Unary} {value : UInt64}
    {rest : List UInt64} (held : state.stack = value :: rest) :
    state.run input (.unary op) = .running next ↔ rest.length < stackLimit ∧
      next = { state with stack := op.eval value :: rest } := by
  simp only [run, held, push_eq_running]

theorem run_binary_eq_running {state next : MachineState} {op : Binary} :
    state.run input (.binary op) = .running next ↔ ∃ right left rest, state.stack = right ::
      left :: rest ∧
      rest.length < stackLimit ∧ next = { state with stack := op.eval left right :: rest } := by
  cases held : state.stack with
  | nil => simp [run, held, fault]
  | cons right rest =>
    cases rest with
    | nil => simp [run, held, fault]
    | cons left rest =>
      simp only [run, held, push_eq_running, List.cons.injEq]
      exact ⟨fun goes => ⟨right, left, rest, ⟨rfl, rfl, rfl⟩, goes⟩,
        fun ⟨_, _, _, ⟨rfl, rfl, rfl⟩, goes⟩ => goes⟩

end MachineState

inductive Ends (roomy : Prop) (ops : List Op) (input : MachineInput) :
    Nat → MachineState → Halt → MachineState → Prop
  | off {fuel state} : ops[state.next]? = none → Ends roomy ops input fuel state
      (.committed .stopped none) state
  | halt {fuel state op halt final} : ops[state.next]? = some op → state.past.run input op =
      .halted halt final →
      halt.outcome.isProper = true → Ends roomy ops input (fuel + 1) state halt final
  | step {fuel state op next halt final} : ops[state.next]? = some op → state.past.run input op =
      .running next →
      (roomy → next.HasRoom op) → Ends roomy ops input fuel next halt final →
      Ends roomy ops input (fuel + 1) state halt final

inductive Steps (roomy : Prop) (ops : List Op) (input : MachineInput) :
    Nat → MachineState → MachineState → Prop
  | refl {state} : Steps roomy ops input 0 state state
  | step {count state op next last} : ops[state.next]? = some op → state.past.run input op =
      .running next →
      (roomy → next.HasRoom op) → Steps roomy ops input count next last →
      Steps roomy ops input (count + 1) state last

section Ends

variable {roomy : Prop} {ops : List Op} {input : MachineInput} {fuel : Nat}
  {state final : MachineState} {halt : Halt}

theorem Ends.more (ends : Ends roomy ops input fuel state halt final) {greater : Nat}
    (least : fuel ≤ greater) :
    Ends roomy ops input greater state halt final := by
  induction ends generalizing greater with
  | off outside => exact .off outside
  | halt found ran proper =>
    obtain ⟨other, rfl⟩ : ∃ other, greater = other + 1 := ⟨greater - 1, by omega⟩
    exact .halt found ran proper
  | step found ran room _ ih =>
    obtain ⟨other, rfl⟩ : ∃ other, greater = other + 1 := ⟨greater - 1, by omega⟩
    exact .step found ran room (ih (by omega))

theorem Steps.ends {count : Nat} {next : MachineState}
    (steps : Steps roomy ops input count state next)
    (ends : Ends roomy ops input fuel next halt final) :
    Ends roomy ops input (fuel + count) state halt final := by
  induction steps with
  | refl => exact ends
  | step found ran room _ ih => exact .step found ran room (ih ends)

theorem Steps.one {op : Op} {next : MachineState} (found : ops[state.next]? = some op)
    (ran : state.past.run input op = .running next) (room : roomy → next.HasRoom op) :
    Steps roomy ops input 1 state next :=
  .step found ran room .refl

theorem Ends.next (ends : Ends roomy ops input fuel state halt final) {op : Op}
    (found : ops[state.next]? = some op) (goes : op.isTerminal = false ∨ op.target?.isSome = true) :
    ∃ less next, fuel = less + 1 ∧ state.past.run input op = .running next ∧
      (roomy → next.HasRoom op) ∧
      Ends roomy ops input less next halt final := by
  cases ends with
  | off outside => simp [found] at outside
  | halt there ran proper =>
    rw [found] at there
    obtain rfl := Option.some.inj there
    obtain ⟨terminal, still⟩ := MachineState.isTerminal_of_halted ran proper
    simp [terminal, still] at goes
  | step there ran room rest =>
    rw [found] at there
    obtain rfl := Option.some.inj there
    exact ⟨_, _, rfl, ran, room, rest⟩

/-- A run ends properly, and leaves room if it is to be roomy, exactly if the machine says so. -/
theorem ends_iff : Ends roomy ops input fuel state halt final ↔
    MachineState.runFor ops.toArray input fuel state = (halt, final) ∧
    halt.outcome.isProper = true ∧
      (roomy → MachineState.leavesRoom ops.toArray input fuel state = true) := by
  constructor
  · intro ends
    induction ends with
    | @off fuel state outside =>
      refine ⟨?_, rfl, fun _ => ?_⟩
      · unfold MachineState.runFor
        simp [outside]
      · cases fuel with
        | zero => rfl
        | succ fuel => simp [MachineState.leavesRoom, outside]
    | halt found ran proper =>
      refine ⟨?_, proper, fun _ => ?_⟩
      · unfold MachineState.runFor
        simp only [MachineState.past, MachineState.moved] at ran
        simp [found, ran]
      · simp [MachineState.leavesRoom, found, ran]
    | step found ran room _ ih =>
      obtain ⟨runs, proper, leaves⟩ := ih
      refine ⟨?_, proper, fun strict => ?_⟩
      · unfold MachineState.runFor
        simp only [MachineState.past, MachineState.moved] at ran
        simp only [List.getElem?_toArray, found, ran]
        exact runs
      · simp [MachineState.leavesRoom, found, ran, room strict, leaves strict]
  · rintro ⟨runs, proper, leaves⟩
    induction fuel generalizing state with
    | zero =>
      unfold MachineState.runFor at runs
      cases found : ops[state.next]? with
      | none =>
        simp only [List.getElem?_toArray, found, Prod.mk.injEq] at runs
        obtain ⟨rfl, rfl⟩ := runs
        exact .off found
      | some op =>
        simp only [List.getElem?_toArray, found, Prod.mk.injEq] at runs
        obtain ⟨rfl, _⟩ := runs
        simp [Halt.outcome, Outcome.isProper] at proper
    | succ fuel ih =>
      unfold MachineState.runFor at runs
      cases found : ops[state.next]? with
      | none =>
        simp only [List.getElem?_toArray, found, Prod.mk.injEq] at runs
        obtain ⟨rfl, rfl⟩ := runs
        exact .off found
      | some op =>
        simp only [List.getElem?_toArray, found] at runs
        simp only [MachineState.leavesRoom, List.getElem?_toArray, found] at leaves
        cases ran : state.past.run input op with
        | halted other last =>
          have stepped := ran
          simp only [MachineState.past, MachineState.moved] at stepped
          simp only [stepped, Prod.mk.injEq] at runs
          obtain ⟨rfl, rfl⟩ := runs
          exact .halt found ran proper
        | running next =>
          have stepped := ran
          simp only [MachineState.past, MachineState.moved] at stepped
          simp only [stepped] at runs
          simp only [ran, Bool.and_eq_true, decide_eq_true_eq] at leaves
          exact .step found ran (fun strict => (leaves strict).1)
            (ih runs fun strict => (leaves strict).2)

end Ends

namespace Program

def start (input : MachineInput) : MachineState :=
  { next := 0, stack := [], storage := input.storage, effects := [] }

/-- Whether a run of the program ends properly within some steps, no load filling the stack. -/
def Completes (program : Program) (fuel : Nat) (input : MachineInput) : Prop :=
  (program.observe fuel input).outcome.isProper = true ∧
    MachineState.leavesRoom program.ops.toArray input fuel (start input) = true

instance (program : Program) (fuel : Nat) (input : MachineInput) :
    Decidable (program.Completes fuel input) :=
  inferInstanceAs (Decidable (_ ∧ _))

def observation (input : MachineInput) : Halt → MachineState → Observation
  | .committed outcome value, final =>
    { outcome, storageDelta := delta input.storage final.storage, effects := final.effects.reverse,
      returnValue := value }
  | .discarded outcome, _ => { outcome, storageDelta := [], effects := [], returnValue := none }

theorem observe_eq (program : Program) (fuel : Nat) (input : MachineInput) :
    program.observe fuel input =
      observation input (MachineState.runFor program.ops.toArray input fuel (start input)).1
        (MachineState.runFor program.ops.toArray input fuel (start input)).2 := by
  dsimp only [observe, start]
  split <;> rename_i same <;> rw [same] <;> rfl

theorem outcome_observation (input : MachineInput) (halt : Halt) (final : MachineState) :
    (observation input halt final).outcome = halt.outcome := by
  cases halt <;> rfl

theorem observation_moved (input : MachineInput) (halt : Halt) (final : MachineState)
    (place : Nat) :
    observation input halt (final.moved place) = observation input halt final := by
  cases halt <;> rfl

theorem completes_iff {program : Program} {fuel : Nat} {input : MachineInput} :
    program.Completes fuel input ↔ ∃ halt final, Ends True program.ops input fuel
      (start input) halt final := by
  unfold Completes
  rw [observe_eq, outcome_observation]
  constructor
  · rintro ⟨proper, leaves⟩
    exact ⟨_, _, ends_iff.mpr ⟨rfl, proper, fun _ => leaves⟩⟩
  · rintro ⟨halt, final, ends⟩
    obtain ⟨runs, proper, leaves⟩ := ends_iff.mp ends
    rw [runs]
    exact ⟨proper, leaves trivial⟩

theorem observe_of_ends {roomy : Prop} {program : Program} {fuel : Nat} {input : MachineInput}
    {halt : Halt} {final : MachineState}
    (ends : Ends roomy program.ops input fuel (start input) halt final) :
    program.observe fuel input = observation input halt final := by
  rw [observe_eq, (ends_iff.mp ends).1]

end Program

end Bytecode

end Covenant
