import Covenant.Proofs.Lowering.Formation
import Covenant.Proofs.Run.Budget
import Covenant.Proofs.Run.Typing

/-!
Running a function of a lowered contract is safe. It never stops because code is malformed, and
where the surroundings and the storage fit the types that are declared for them, so does everything
that the run computes and reports.
-/

namespace Covenant

def Frame.LocalsFit (contract : Contract) (frame : Frame) : Prop :=
  frame.function ∈ contract.functions ∧
    List.Forall₂ (fun entry cell => cell.value ≤ entry.ty.maxValue) frame.function.locals
      frame.locals

/-- Whether running code fits the types of its contract: all local variables do, also those of the
callers that wait, and so do what is passed by a call that comes next and all that was done so far.
-/
structure Running.Fits (contract : Contract) (state : Running) : Prop where
  frame : state.frame.LocalsFit contract
  callers : ∀ caller ∈ state.callers, caller.frame.LocalsFit contract
  passed : ∀ dest name args location rest callee,
    state.frame.pending = ⟨.call dest name args, location⟩ :: rest → contract.function? name =
      some callee →
      ∃ cells, args.mapM state.frame.get? = .ok cells ∧
        List.Forall₂ (fun param cell => cell.value ≤ param.2.maxValue) callee.params cells
  effects : state.effects.Fits contract

/-- Whether the report of a call fits the types of the contract. The call gives a value if and only
if it succeeds and the function declares what it returns. -/
structure Report.Fits (contract : Contract) (function : Function) (report : Report) : Prop where
  storage : report.storage.Fits contract
  trace : ∀ step ∈ report.trace, step.action.Fits contract step.function
  events : ∀ event ∈ report.events, event.Fits contract
  stores : ∀ record ∈ report.stores, Storage.Admits contract record.place record.value
  calls : ∀ call ∈ report.calls, call.Fits
  returned : ∀ value, report.result = .returned (some value) →
    ∃ ty, function.returns = some ty ∧ value ≤ ty.maxValue
  returns : (∃ value, report.result = .returned (some value)) ↔
    report.result.isSuccess = true ∧ function.returns.isSome = true

/-- How a call of a function may fail: the function does not exist or takes another number of
arguments, the limits do not suffice, or another function does not exist although it is declared. -/
inductive Contract.Fails (contract : Contract) (declared : Declarations) (name : String) :
    ExecutionError → Prop
  | absent : contract.function? name = none → Fails contract declared name (.unknownFunction name)
  | arityMismatch (expected found) :
      Fails contract declared name (.arityMismatch name expected found)
  | outOfFuel (budget) : Fails contract declared name (.outOfFuel budget)
  | callDepthExceeded (limit) : Fails contract declared name (.callDepthExceeded limit)
  | unknownFunction {callee signature} : declared.signature? callee = some signature →
      contract.function? callee = none → Fails contract declared name (.unknownFunction callee)

section Runs

variable {given : Prop} {contract : Contract} {declared : Declarations} {result : Option Ty}

theorem Frame.Typed.localsFit {types : List Ty} {awaited : Option ValueId} {frame : Frame}
    (typed : frame.Typed given contract declared types awaited) (holds : given) :
    frame.LocalsFit contract :=
  ⟨typed.member, typed.locals.imp fun _ _ small => Ty.le_maxValue_iff.mpr (small holds)⟩

theorem Caller.Waiting.localsFit {callers : List Caller} {returns : Option Ty}
    (waiting : Waiting given contract declared result returns callers) (holds : given) :
    ∀ caller ∈ callers, caller.frame.LocalsFit contract := by
  intro caller member
  obtain ⟨_, types, typed⟩ := waiting.typed caller member
  exact typed.frame.localsFit holds

theorem Running.Typed.fits {state : Running} (typed : state.Typed given contract declared result)
    (code : contract.Typed declared) (holds : given) : state.Fits contract := by
  obtain ⟨types, standing⟩ := typed.frame
  refine ⟨standing.localsFit holds, typed.callers.localsFit holds, ?_, typed.effects holds⟩
  intro dest name args location rest callee pending found
  cases standing.instruction pending with
  | call known passed =>
    obtain rfl := code.signatures _ _ _ known found
    obtain ⟨cells, got, fits⟩ := standing.operands pending passed fun _ used => used
    refine ⟨cells, got, ?_⟩
    rw [List.forall₂_map_left_iff] at fits
    exact fits.imp fun _ _ small => Ty.le_maxValue_iff.mpr (small holds)

theorem Contract.Typed.start (code : contract.Typed declared) {name : String} {function : Function}
    (found : contract.function? name = some function) {args : List Nat}
    (count : function.params.length = args.length) {storage : Storage}
    (fits : given → storage.Fits contract) :
    ∃ frame, function.frame (function.entryCells args) = .ok frame ∧
      Running.Typed given contract declared function.returns
        ⟨frame, [], Effects.start storage⟩ := by
  obtain ⟨member, _⟩ := Contract.mem_of_function? found
  obtain ⟨types, checked⟩ := code.functions function member
  have small : List.Forall₂ (fun ty cell => given → cell.value < ty.bound)
      (function.params.map Prod.snd)
      (function.entryCells args) := by
    rw [List.forall₂_map_left_iff, Function.entryCells]
    refine List.forall₂_iff_get.mpr ⟨by simp [count], fun index low high => ?_⟩
    simp only [List.get_eq_getElem, List.getElem_zipWith]
    exact fun _ => Ty.wrap_lt _ _
  obtain ⟨frame, framed, same, stands⟩ := checked.entered member small
  refine ⟨frame, framed, ⟨types, stands⟩, ?_, fun holds => Effects.fits_start (fits holds)⟩
  exact congrArg Function.returns same

theorem Running.Reaches.typed {setting : Setting} {state final : Running}
    (reaches : Reaches setting state final) (code : setting.contract.Typed declared)
    (env : given → setting.env.Fits) (typed : state.Typed given setting.contract declared result) :
    final.Typed given setting.contract declared result := by
  induction reaches with
  | refl => exact typed
  | step leads _ ih =>
    obtain ⟨depth, stepped⟩ := leads
    have deeper : (setting.withDepth depth).contract.Typed declared := code
    have keeps := step_keeps deeper env typed
    rw [stepped] at keeps
    cases keeps with
    | running next => exact ih next

/-- A call of code with types fails only in these ways. -/
theorem Contract.Typed.fails (code : contract.Typed declared) {limits : RunLimits} {name : String}
    {inputs : Inputs} {problem : ExecutionError}
    (failed : contract.run limits name inputs = .error problem) :
    contract.Fails declared name problem := by
  cases found : contract.function? name with
  | none =>
    simp only [run, found] at failed
    exact Except.error.inj failed ▸ .absent found
  | some function =>
    by_cases count : function.params.length = inputs.args.length
    · have nothing : False → inputs.storage.Fits contract := False.elim
      obtain ⟨frame, framed, typed⟩ := code.start found count nothing
      have setting : (inputs.setting contract limits).contract.Typed declared := code
      have ends := Running.run_ends setting False.elim limits.fuel limits.fuel typed
      rw [run_eq_map found count framed] at failed
      generalize Running.run _ _ _ _ = outcome at ends failed
      cases ends with
      | returned => simp [Except.map] at failed
      | reverted => simp [Except.map] at failed
      | outOfFuel budget => exact Except.error.inj failed ▸ .outOfFuel budget
      | callDepthExceeded limit => exact Except.error.inj failed ▸ .callDepthExceeded limit
      | unknownFunction known missing =>
        exact Except.error.inj failed ▸ .unknownFunction known missing
    · have differ : (function.params.length != inputs.args.length) = true := by simpa using count
      simp only [run, found, differ, if_true] at failed
      exact Except.error.inj failed ▸ .arityMismatch _ _

/-- What a run reports fits the types if what it is given does. -/
theorem Running.Ends.fits {ending : Ending} {effects : Effects} {function : Function}
    (ends : Ends given contract declared function.returns (.ok (ending, effects))) (holds : given)
    {storage : Storage} (initial : storage.Fits contract) :
    (Contract.report storage ending effects).Fits contract function := by
  cases ends with
  | @reverted message effects fits =>
    have trace := (fits holds).trace
    exact ⟨initial, fun step member => trace step
      (List.mem_reverse.mp member), by simp [Contract.report], by simp [Contract.report], by
      simp [Contract.report], by simp [Contract.report], by
        simp [Contract.report, CallResult.isSuccess]⟩
  | @returned value effects typed fits =>
    obtain ⟨held, trace, events, stores, calls⟩ := fits holds
    refine ⟨held, fun step member => trace step (List.mem_reverse.mp member),
      fun event member => events event (List.mem_reverse.mp member),
      fun record member => stores record (List.mem_reverse.mp member),
      fun call member => calls call (List.mem_reverse.mp member), ?_, ?_⟩
    · intro value given
      generalize function.returns = returns at typed
      cases typed with
      | none => simp [Contract.report] at given
      | @some ty cell small =>
        obtain rfl : cell.value = value := by simpa [Contract.report] using given
        exact ⟨ty, rfl, Ty.le_maxValue_iff.mpr (small holds)⟩
    · generalize function.returns = returns at typed
      cases typed <;> simp [Contract.report, CallResult.isSuccess]

end Runs

namespace ContractSet

/-- Execution is sound: where the surroundings and the storage fit their types, every value that a
run works with or reports fits its type, whatever the arguments are, and a value is returned just
where one is declared. -/
theorem fits_of_run {text : String} {contract : Contract}
    (member : contract ∈ (ofText text).contracts) {inputs : Inputs} (env : inputs.env.Fits)
    (storage : inputs.storage.Fits contract) {limits : RunLimits} {name : String} {report : Report}
    (ran : contract.run limits name inputs = .ok report) :
    ∃ function frame, contract.function? name = some function ∧
      function.frame (function.entryCells inputs.args) = .ok frame ∧ report.Fits contract function ∧
      ∀ state, Running.Reaches (inputs.setting contract limits)
        ⟨frame, [], Effects.start inputs.storage⟩ state →
        state.Fits contract := by
  obtain ⟨declared, code⟩ := typed_of_ofText member
  have setting : (inputs.setting contract limits).contract.Typed declared := code
  obtain ⟨function, frame, ending, effects, found, count, framed, ended, rfl⟩ :=
    Contract.run_eq_ok_iff.mp ran
  obtain ⟨start, begun, typed⟩ := code.start found count fun _ : True => storage
  obtain rfl := Except.ok.inj (framed.symm.trans begun)
  refine ⟨function, frame, found, framed, ?_, fun state reaches => ?_⟩
  · have ends := Running.run_ends setting (fun _ => env) limits.fuel limits.fuel typed
    rw [ended] at ends
    exact ends.fits trivial storage
  · exact (reaches.typed setting (fun _ => env) typed).fits code trivial

/-- An argument that is too large is cut down, and a difference below zero wraps around at the type
of the field. -/
theorem fits_of_run_of_wrapped_difference :
    let set :=
      ofText
        "contract A \x7b\n  x: u8\n  take(n: u8) -> u8 \x7b self.x = self.x - n return self.x \x7d\n\x7d"
    let inputs : Inputs := { Inputs.empty with args := [300] }
    ∃ contract ∈ set.contracts, ∃ report function, contract.run .standard "take" inputs =
      .ok report ∧
      report.result = .returned (some 212) ∧ contract.function? "take" = some function ∧
      report.Fits contract function := by
  intro set inputs
  let contract := set.contracts.head (by decide +kernel)
  have member : contract ∈ set.contracts := List.head_mem _
  have checked : (contract.run .standard "take" inputs).toOption.map Report.result =
      some (.returned (some 212)) := by
    decide +kernel
  cases ran : contract.run .standard "take" inputs with
  | error problem =>
    rw [ran] at checked
    cases checked
  | ok report =>
    rw [ran] at checked
    obtain ⟨function, _, found, _, fits, _⟩ :=
      fits_of_run member Environment.fits_zero (Storage.fits_nil contract) ran
    exact ⟨contract, member, report, function, ran, Option.some.inj checked, found, fits⟩

/-- Lowering gives nothing but well-formed code, whatever else is wrong with a contract. So no run
is stopped by malformed code, and none that has started misses a function but one with a body that
could not be lowered. -/
theorem run_ne_malformed {text : String} {contract : Contract}
    (member : contract ∈ (ofText text).contracts) :
    ∃ decl ∈ (SyntaxTree.read text).tree.contracts,
      contract = (Lowering.contractOf (LineTable.ofText text) decl).1 ∧
      (∀ function ∈ contract.functions, function.Formed decl contract) ∧
      ∀ limits name inputs,
        (∀ message, contract.run limits name inputs ≠ .error (.malformed message)) ∧
        ∀ callee, (contract.function? name).isSome = true →
          contract.run limits name inputs = .error (.unknownFunction callee) →
          ∃ header body, (header, body) ∈ Lowering.bodiesOf decl ∧ header.name = callee ∧
          ∃ events problem,
            (Lowering.functionOf (Lowering.scopeOf (LineTable.ofText text) decl) events
              header body).1 =
                .error problem ∧
              problem ∈ (Lowering.contractOf (LineTable.ofText text) decl).2 := by
  obtain ⟨decl, listed, _, rfl⟩ := Lowering.mem_contractsOf member
  have readable := SyntaxTree.readable_of_read listed
  have code : (Lowering.contractOf (LineTable.ofText text) decl).1.Typed _ :=
    Lowering.contractOf_typed readable
  refine ⟨decl, listed, rfl, Lowering.functions_formed readable,
    fun limits name inputs => ⟨fun message failed => ?_, fun callee present failed => ?_⟩⟩
  · cases code.fails failed
  · cases code.fails failed with
    | absent missing =>
      rw [missing] at present
      exact absurd present Bool.false_ne_true
    | unknownFunction known missing => exact Lowering.failed_of_missing known missing

/-- A function that uses an unknown field is missed when another one calls it. -/
theorem run_ne_malformed_of_unknown_field :
    let text := "contract A \x7b\n  bad() \x7b self.y = 1 \x7d\n  go() \x7b self.bad() \x7d\n\x7d"
    ∃ contract ∈ (ofText text).contracts, contract.run .standard "go" .empty =
      .error (.unknownFunction "bad") ∧
      ∃ decl ∈ (SyntaxTree.read text).tree.contracts,
        (∀ function ∈ contract.functions, function.Formed decl contract) ∧
        ∃ header body, (header, body) ∈ Lowering.bodiesOf decl ∧ header.name = "bad" := by
  intro text
  let contract := (ofText text).contracts.head (by decide +kernel)
  have member : contract ∈ (ofText text).contracts := List.head_mem _
  have failed : contract.run .standard "go" .empty = .error (.unknownFunction "bad") := by
    decide +kernel
  obtain ⟨decl, listed, _, formed, runs⟩ := run_ne_malformed member
  have present : (contract.function? "go").isSome = true := by decide +kernel
  obtain ⟨header, body, declared, named, _⟩ := (runs .standard "go" .empty).2 "bad" present failed
  exact ⟨contract, member, failed, decl, listed, formed, header, body, declared, named⟩

end ContractSet

end Covenant
