import Covenant.Chain.Simulation
import Covenant.Proofs.Code.Provenance
import Covenant.Proofs.Run.Sources

/-!
What a chain that passes can be relied on for. No integer that a run works with is too wide for the
chain, whatever functions the run comes to. Events and native value are checked where functions that
can be called from outside use them.
-/

namespace Covenant

/-- Whether a value can be represented in a number of bits if it is an integer. -/
def Ty.Within (width : Nat) (ty : Ty) (value : Nat) : Prop :=
  ty.isInteger = true → value < 2 ^ width

/-- What a contract is like that has no discrepancy with a chain, the gas apart. -/
structure Contract.Suits (contract : Contract) (profile : ChainProfile) : Prop where
  narrow : ∀ width, .uint width ∈ contract.types → width ≤ profile.maxIntegerWidth
  events : ∀ function ∈ contract.entryPoints, function.emitsEvents = true →
    profile.supportsEvents = true
  value : ∀ function ∈ contract.entryPoints, function.movesValue = true →
    profile.nativeValueTransfer = true

/-- Whether the values that a call has computed or holds in its local variables can be represented.
-/
structure Frame.Within (declared : Declarations) (width : Nat) (frame : Frame) : Prop where
  values : ∃ types, frame.function.Typed declared types ∧
    ∀ entry ∈ frame.values, ∃ ty, types[entry.1]? = some ty ∧ ty.Within width entry.2.value
  locals : List.Forall₂ (fun entry cell => entry.ty.Within width cell.value) frame.function.locals
    frame.locals

/-- Whether a chain can go on with running code: it represents all values, also those of the callers
that wait, and has what the next step uses unless that is a step of a function for internal calls
only. -/
structure Running.Suits (declared : Declarations) (profile : ChainProfile) (state : Running) :
    Prop where
  frame : state.frame.Within declared profile.maxIntegerWidth
  callers : ∀ caller ∈ state.callers, caller.frame.Within declared profile.maxIntegerWidth
  emits : state.frame.function.isEntryPoint = true → ∀ event args, state.Runs (.emit event args) →
    profile.supportsEvents = true
  calls : state.frame.function.isEntryPoint = true → ∀ dest kind target amount,
    state.Runs (.externalCall dest kind target amount) → profile.nativeValueTransfer = true
  looks : state.frame.function.isEntryPoint = true → ∀ dest, state.Runs (.env dest .value) →
    profile.nativeValueTransfer = true

structure Report.Suits (contract : Contract) (function : Function) (profile : ChainProfile)
    (report : Report) : Prop where
  storage : ∀ field ∈ contract.fields, ∀ key : Option Nat, key.isSome = field.ty.isMap →
    field.ty.content.Within profile.maxIntegerWidth (report.storage.get ⟨field.name, key⟩)
  stores : ∀ record ∈ report.stores, ∃ field, contract.field? record.place.field = some field ∧
    field.ty.content.Within profile.maxIntegerWidth record.value
  returned : ∀ value, report.result = .returned (some value) →
    ∃ ty, function.returns = some ty ∧ ty.Within profile.maxIntegerWidth value
  events : ∀ event ∈ report.events, ∃ shape, contract.eventTypes? event.name = some shape ∧
    List.Forall₂ (fun ty arg => ty.Within profile.maxIntegerWidth arg) shape event.args
  calls : ∀ call ∈ report.calls, call.amount < 2 ^ profile.maxIntegerWidth
  emits : report.events ≠ [] → profile.supportsEvents = true ∨
    ∃ helper ∈ contract.functions, helper.isEntryPoint = false ∧ helper.emitsEvents = true
  transfers : report.calls ≠ [] → profile.nativeValueTransfer = true ∨
    ∃ helper ∈ contract.functions, helper.isEntryPoint = false ∧ helper.movesValue = true

/-! What a contract needs of a chain. -/

namespace Function

variable {function : Function} {instruction : Instruction}

theorem Has.mem_instructions (has : function.Has instruction) :
    ∃ id location, (id, ⟨instruction, location⟩) ∈ function.instructions := by
  obtain ⟨block, member, ⟨node, location⟩, listed, rfl⟩ := has
  exact ⟨block.id, location, mem_instructions member listed⟩

theorem Has.emitsEvents {event : String} {args : List ValueId}
    (has : function.Has (.emit event args)) :
    function.emitsEvents = true := by
  obtain ⟨id, location, member⟩ := has.mem_instructions
  exact List.any_eq_true.mpr ⟨_, member, rfl⟩

theorem Has.movesValue_of_call {dest target amount : ValueId} {kind : ExternalKind}
    (has : function.Has (.externalCall dest kind target amount)) : function.movesValue = true := by
  obtain ⟨id, location, member⟩ := has.mem_instructions
  exact List.any_eq_true.mpr ⟨_, member, rfl⟩

theorem Has.movesValue_of_env {dest : ValueId} (has : function.Has (.env dest .value)) :
    function.movesValue = true := by
  obtain ⟨id, location, member⟩ := has.mem_instructions
  exact List.any_eq_true.mpr ⟨_, member, rfl⟩

theorem Has.const_mem_types {dest : ValueId} {value : Nat} {ty : Ty}
    (has : function.Has (.const dest value ty)) :
    ty ∈ function.types := by
  obtain ⟨id, location, member⟩ := has.mem_instructions
  exact List.mem_append_right _ (List.mem_filterMap.mpr ⟨_, member, rfl⟩)

theorem Has.binary_mem_types {dest lhs rhs : ValueId} {op : BinaryOp} {ty : Ty}
    (has : function.Has (.binary dest op ty lhs rhs)) : ty ∈ function.types := by
  obtain ⟨id, location, member⟩ := has.mem_instructions
  exact List.mem_append_right _ (List.mem_filterMap.mpr ⟨_, member, rfl⟩)

theorem local_mem_types {entry : LocalVar} (member : entry ∈ function.locals) :
    entry.ty ∈ function.types := by
  have listed : entry.ty ∈ function.locals.map fun entry => entry.ty :=
    List.mem_map.mpr ⟨entry, member, rfl⟩
  simp [types, listed]

theorem returns_mem_types {ty : Ty} (returns : function.returns = some ty) :
    ty ∈ function.types := by
  simp [types, returns]

end Function

namespace Ty

theorem mem_parts_of_isInteger {ty : Ty} (integer : ty.isInteger = true) : ty ∈ ty.parts := by
  cases ty with
  | uint width => exact List.mem_singleton.mpr rfl
  | _ => simp [isInteger] at integer

theorem content_mem_parts {ty : Ty} (integer : ty.content.isInteger = true) :
    ty.content ∈ ty.parts := by
  cases ty with
  | map key value => exact List.mem_append_right _ (mem_parts_of_isInteger integer)
  | _ => exact mem_parts_of_isInteger integer

theorem within_of_not_integer {width value : Nat} {ty : Ty} (other : ty.isInteger = false) :
    ty.Within width value := by
  intro integer
  simp [other] at integer

end Ty

namespace Contract

variable {contract : Contract} {profile : ChainProfile}

theorem mem_types_of_field {field : Field} (member : field ∈ contract.fields)
    (integer : field.ty.content.isInteger = true) : field.ty.content ∈ contract.types := by
  have listed : field.ty ∈ contract.fields.map fun field => field.ty :=
    List.mem_map.mpr ⟨field, member, rfl⟩
  exact List.mem_flatMap.mpr ⟨field.ty, by simp [listed], Ty.content_mem_parts integer⟩

theorem mem_types_of_event {event : Event} (member : event ∈ contract.events) {ty : Ty}
    (reported : ty ∈ event.params.map Prod.snd) (integer : ty.isInteger = true) :
    ty ∈ contract.types := by
  have listed : ty ∈ contract.events.flatMap fun event => event.params.map fun param => param.2 :=
    List.mem_flatMap.mpr ⟨event, member, reported⟩
  refine List.mem_flatMap.mpr ⟨ty, ?_, Ty.mem_parts_of_isInteger integer⟩
  exact List.mem_append_left _ (List.mem_append_right _ listed)

theorem mem_types_of_function {function : Function} (member : function ∈ contract.functions)
    {ty : Ty} (used : ty ∈ function.types) (integer : ty.isInteger = true) :
    ty ∈ contract.types := by
  have listed : ty ∈ contract.functions.flatMap Function.types :=
    List.mem_flatMap.mpr ⟨function, member, used⟩
  exact List.mem_flatMap.mpr ⟨ty, List.mem_append_right _ listed, Ty.mem_parts_of_isInteger integer⟩

theorem narrow_of_widthDiscrepancies (none : contract.widthDiscrepancies profile = []) {width : Nat}
    (used : .uint width ∈ contract.types) : width ≤ profile.maxIntegerWidth := by
  have listed : width ∈ (contract.types.filter Ty.isInteger).map Ty.width :=
    List.mem_map.mpr ⟨.uint width, List.mem_filter.mpr ⟨used, rfl⟩, rfl⟩
  have widths := (List.append_eq_nil_iff.mp none).2
  cases found : contract.widestInteger? with
  | none =>
    rw [List.max?_eq_none_iff.mp found] at listed
    simp at listed
  | some widest =>
    have bound : width ≤ widest := (List.max?_eq_some_iff.mp found).2 width listed
    by_cases tooWide : widest > profile.maxIntegerWidth
    · simp [found, tooWide] at widths
    · omega

theorem mem_transactions {setting : GasSetting} {functions : List Function} {function : Function}
    (member : function ∈ functions) (table : GasTable) :
    ∃ gas, (function, gas) ∈ setting.transactions table functions := by
  induction functions generalizing table with
  | nil => simp at member
  | cons first rest ih =>
    rcases List.mem_cons.mp member with same | later
    · exact ⟨_, by rw [same]; exact List.mem_cons_self⟩
    · obtain ⟨gas, listed⟩ := ih later (setting.transaction table first).2
      exact ⟨gas, List.mem_cons_of_mem _ listed⟩

theorem suits_of_discrepancies {loopBound : Nat}
    (none : contract.discrepancies profile loopBound = []) :
    contract.Suits profile := by
  obtain ⟨widths, functions⟩ := List.append_eq_nil_iff.mp none
  have checked (function : Function) (member : function ∈ contract.entryPoints) :
      ∃ gas, contract.functionDiscrepancies profile function gas = [] := by
    obtain ⟨gas, listed⟩ := mem_transactions member []
    exact ⟨gas, List.flatMap_eq_nil_iff.mp functions _ listed⟩
  refine ⟨fun width => narrow_of_widthDiscrepancies widths, fun function member emits => ?_,
    fun function member moves => ?_⟩
  · obtain ⟨gas, fine⟩ := checked function member
    by_contra unsupported
    simp [functionDiscrepancies, emits, unsupported] at fine
  · obtain ⟨gas, fine⟩ := checked function member
    by_contra unsupported
    simp [functionDiscrepancies, moves, unsupported] at fine

theorem Suits.within (suits : contract.Suits profile) {ty : Ty} {value : Nat}
    (small : value < ty.bound) (used : ty.isInteger = true → ty ∈ contract.types) :
    ty.Within profile.maxIntegerWidth value := by
  intro integer
  cases ty with
  | uint width =>
    calc value < 2 ^ min width 128 := small
      _ ≤ 2 ^ profile.maxIntegerWidth :=
        Nat.pow_le_pow_right (by decide)
          (Nat.le_trans (Nat.min_le_left _ _) (suits.narrow width (used integer)))
  | _ => simp [Ty.isInteger] at integer

theorem Suits.within_of_le (suits : contract.Suits profile) {ty : Ty} {value : Nat}
    (small : value ≤ ty.maxValue) (used : ty.isInteger = true → ty ∈ contract.types) :
    ty.Within profile.maxIntegerWidth value :=
  suits.within (Ty.le_maxValue_iff.mp small) used

end Contract

/-! Runs. -/

/-- Whether the surroundings provide no integer that a chain cannot represent. -/
def Environment.Within (width : Nat) (env : Environment) : Prop :=
  ∀ var, (Ty.ofEnv var).Within width (env.get var)

section Runs

variable {setting : Setting} {profile : ChainProfile} {declared : Declarations} {types : List Ty}

theorem Setting.Gives.within {function : Function} {instruction : Instruction} {value : ValueId}
    {cell : Cell} (gives : setting.Gives instruction value cell)
    (code : setting.contract.Typed declared) (suits : setting.contract.Suits profile)
    (env : setting.env.Within profile.maxIntegerWidth)
    (member : function ∈ setting.contract.functions) (has : function.Has instruction)
    (typed : instruction.Typed declared function.locals types) {ty : Ty}
    (known : types[value]? = some ty) (small : cell.value < ty.bound) :
    ty.Within profile.maxIntegerWidth cell.value := by
  have inside (used : ty ∈ function.types) : ty.Within profile.maxIntegerWidth cell.value :=
    suits.within small (Contract.mem_types_of_function member used)
  have same {dest : ValueId} {other : Ty} (defines : some dest = some value)
      (found : types[dest]? = some other) :
      other = ty := by
    obtain rfl := Option.some.inj defines
    exact Option.some.inj (found.symm.trans known)
  cases typed with
  | const dest _ =>
    obtain rfl := same gives.dest dest
    exact inside has.const_mem_types
  | @env dest var found =>
    obtain rfl := same gives.dest found
    obtain rfl := Option.some.inj gives.dest
    rw [gives.env var rfl]
    exact env var
  | loadLocal found dest =>
    obtain rfl := same gives.dest dest
    exact inside (Function.local_mem_types (List.mem_of_getElem? found))
  | loadField declares keyed dest =>
    obtain rfl := same gives.dest dest
    rw [code.fields] at declares
    obtain ⟨field, found, rfl⟩ := Option.map_eq_some_iff.mp declares
    exact suits.within small (Contract.mem_types_of_field (Contract.mem_of_field? found).1)
  | arithmetic _ _ _ dest =>
    obtain rfl := same gives.dest dest
    exact inside has.binary_mem_types
  | relation _ _ _ dest | not _ dest | externalCall _ _ dest =>
    obtain rfl := same gives.dest dest
    exact Ty.within_of_not_integer rfl
  | @call dest name args signature declares _ returns =>
    obtain rfl : dest = some value := gives.dest
    obtain ⟨result, returned, found⟩ := returns value rfl
    obtain rfl := same rfl found
    obtain ⟨callee, exist⟩ := Option.isSome_iff_exists.mp (gives.called name args rfl)
    obtain rfl := code.signatures name signature callee declares exist
    exact suits.within small
      (Contract.mem_types_of_function (Contract.mem_of_function? exist).1
        (Function.returns_mem_types returned))
  | storeLocal | storeField | emit => exact absurd gives.dest nofun

theorem Frame.Typed.within {awaited : Option ValueId} {frame : Frame}
    (typed : frame.Typed True setting.contract declared types awaited)
    (sourced : frame.Sourced setting) (code : setting.contract.Typed declared)
    (suits : setting.contract.Suits profile) (env : setting.env.Within profile.maxIntegerWidth) :
    frame.Within declared profile.maxIntegerWidth := by
  refine ⟨⟨types, typed.function, fun entry member => ?_⟩, ?_⟩
  · obtain ⟨instruction, has, gives⟩ := sourced entry member
    have agrees : instruction.Typed declared frame.function.locals types := by
      obtain ⟨block, inside, located, listed, rfl⟩ := has
      exact typed.function.instructions block inside located listed
    have known := List.getElem?_eq_getElem (agrees.dest_lt gives.dest)
    exact ⟨_, known, gives.within code suits env typed.member has agrees known
      (typed.values entry member _ known trivial)⟩
  · refine List.forall₂_iff_get.mpr ⟨typed.locals.length_eq, fun index low high => ?_⟩
    have small := typed.locals.get low high trivial
    exact suits.within small
      (Contract.mem_types_of_function typed.member (Function.local_mem_types (List.get_mem _ _)))

namespace Running

variable {result : Option Ty} {state : Running}

theorem Typed.suits (typed : state.Typed True setting.contract declared result)
    (sourced : state.Sourced setting) (code : setting.contract.Typed declared)
    (suits : setting.contract.Suits profile) (env : setting.env.Within profile.maxIntegerWidth) :
    state.Suits declared profile := by
  obtain ⟨types, standing⟩ := typed.frame
  have waiting (caller : Caller) (member : caller ∈ state.callers) :
      caller.frame.Within declared profile.maxIntegerWidth := by
    obtain ⟨returns, others, waits⟩ := typed.callers.typed caller member
    exact waits.frame.within (sourced.callers caller member).frame code suits env
  have listed (outside : state.frame.function.isEntryPoint = true) :
      state.frame.function ∈ setting.contract.entryPoints :=
    List.mem_filter.mpr ⟨standing.member, outside⟩
  refine ⟨standing.within sourced.frame code suits env, waiting, ?_, ?_, ?_⟩
  · rintro outside event args ⟨location, rest, pending⟩
    exact suits.events _ (listed outside) (standing.has pending).emitsEvents
  · rintro outside dest kind target amount ⟨location, rest, pending⟩
    exact suits.value _ (listed outside) (standing.has pending).movesValue_of_call
  · rintro outside dest ⟨location, rest, pending⟩
    exact suits.value _ (listed outside) (standing.has pending).movesValue_of_env

theorem Runs.has {contract : Contract} {instruction : Instruction} (runs : state.Runs instruction)
    {given : Prop} (typed : state.Typed given contract declared result) :
    state.frame.function ∈ contract.functions ∧ state.frame.function.Has instruction := by
  obtain ⟨types, standing⟩ := typed.frame
  obtain ⟨location, rest, pending⟩ := runs
  exact ⟨standing.member, standing.has pending⟩

theorem Makes.amount_lt {contract : Contract} {call : ExternalCallRecord} (makes : state.Makes call)
    (typed : state.Typed True contract declared result) (suits : state.Suits declared profile) :
    call.amount < 2 ^ profile.maxIntegerWidth := by
  obtain ⟨dest, target, amount, cell, runs, got, same⟩ := makes
  obtain ⟨types, checked, within⟩ := suits.frame.values
  obtain ⟨_, block, inside, located, listed, called⟩ := runs.has typed
  have agrees := checked.instructions block inside located listed
  rw [called] at agrees
  cases agrees with
  | externalCall _ known _ =>
    have held : state.frame.values.lookup amount = some cell := by
      unfold Frame.get? at got
      split at got
      · rename_i found
        rw [found, Except.ok.inj got]
      · simp at got
    obtain ⟨ty, found, small⟩ := within (amount, cell) (mem_of_lookup held)
    obtain rfl := Option.some.inj (known.symm.trans found)
    exact same ▸ small rfl

end Running

theorem Report.Fits.suits {contract : Contract} {function : Function} {report : Report}
    (fits : report.Fits contract function) (member : function ∈ contract.functions)
    (suits : contract.Suits profile)
    (calls : ∀ call ∈ report.calls, call.amount < 2 ^ profile.maxIntegerWidth)
    (emits : report.events ≠ [] → profile.supportsEvents = true ∨
      ∃ helper ∈ contract.functions, helper.isEntryPoint = false ∧ helper.emitsEvents = true)
    (transfers : report.calls ≠ [] → profile.nativeValueTransfer = true ∨
      ∃ helper ∈ contract.functions, helper.isEntryPoint = false ∧ helper.movesValue = true) :
    report.Suits contract function profile := by
  refine ⟨fun field listed key keyed => ?_, fun record stored => ?_, fun value gave => ?_,
    fun event emitted => ?_, calls, emits, transfers⟩
  · exact suits.within_of_le (fits.storage field listed key keyed)
      (Contract.mem_types_of_field listed)
  · obtain ⟨field, found, _, small⟩ := fits.stores record stored
    exact ⟨field, found,
      suits.within_of_le small (Contract.mem_types_of_field (Contract.mem_of_field? found).1)⟩
  · obtain ⟨ty, returns, small⟩ := fits.returned value gave
    exact ⟨ty, returns,
      suits.within_of_le small
        (Contract.mem_types_of_function member (Function.returns_mem_types returns))⟩
  · obtain ⟨shape, known, small⟩ := fits.events event emitted
    refine ⟨shape, known, List.forall₂_iff_get.mpr ⟨small.length_eq, fun index low high => ?_⟩⟩
    obtain ⟨declaration, found, rfl⟩ := Option.map_eq_some_iff.mp known
    exact suits.within_of_le (small.get low high)
      (Contract.mem_types_of_event (List.mem_of_find?_eq_some found) (List.get_mem _ _))

end Runs

namespace ContractSet

variable {text chain : String} {registry : ChainRegistry} {loopBound : Nat} {profile : ChainProfile}

theorem suits_of_passed {set : ContractSet} (known : registry.profile? chain = some profile)
    (passed : (set.simulateOn registry loopBound chain).passed = true) {contract : Contract}
    (member : contract ∈ set.contracts) : contract.Suits profile := by
  have none : set.contracts.flatMap (fun contract => contract.discrepancies profile loopBound) =
      [] := by
    simpa [simulateOn, known, Simulation.passed] using passed
  exact Contract.suits_of_discrepancies (List.flatMap_eq_nil_iff.mp none contract member)

/-- Where a chain passes, it can represent every integer that a run computes, holds in a local
variable, passes, stores, emits or returns, also in the functions that it calls. The chain has the
events and the native currency that functions use which can be called from outside; what only
helpers use is not looked at. -/
theorem suits_of_run (known : registry.profile? chain = some profile)
    (passed : ((ofText text).simulateOn registry loopBound chain).passed = true)
    {contract : Contract} (member : contract ∈ (ofText text).contracts) {inputs : Inputs}
    (env : inputs.env.Fits) (small : inputs.env.Within profile.maxIntegerWidth)
    (storage : inputs.storage.Fits contract) {limits : RunLimits} {name : String} {report : Report}
    (ran : contract.run limits name inputs = .ok report) :
    ∃ declared function frame, contract.Typed declared ∧ contract.function? name = some function ∧
      function.frame (function.entryCells inputs.args) = .ok frame ∧
      report.Suits contract function profile ∧
      ∀ state, Running.Reaches (inputs.setting contract limits)
        ⟨frame, [], Effects.start inputs.storage⟩ state →
        state.Suits declared profile := by
  have suits := suits_of_passed known passed member
  obtain ⟨declared, code⟩ := typed_of_ofText member
  have setting : (inputs.setting contract limits).contract.Typed declared := code
  obtain ⟨function, frame, ending, effects, found, count, framed, ended, rfl⟩ :=
    Contract.run_eq_ok_iff.mp ran
  obtain ⟨start, begun, typed⟩ := code.start found count fun _ : True => storage
  obtain rfl := Except.ok.inj (framed.symm.trans begun)
  have untyped := code.of_frame found count framed inputs.storage
  have typedAt {state : Running}
      (reaches : Running.Reaches (inputs.setting contract limits)
        ⟨frame, [], Effects.start inputs.storage⟩ state) :
      state.Typed True contract declared function.returns :=
    reaches.typed setting (fun _ => env) typed
  have suitsAt {state : Running}
      (reaches : Running.Reaches (inputs.setting contract limits)
        ⟨frame, [], Effects.start inputs.storage⟩ state) :
      state.Suits declared profile :=
    (typedAt reaches).suits
      (reaches.sourced setting untyped ⟨Frame.sourced_of_framed framed, by simp⟩)
      setting suits small
  refine ⟨declared, function, frame, code, found, framed, ?_, fun state reaches => suitsAt reaches⟩
  have ends := Running.run_ends setting (fun _ => env) limits.fuel limits.fuel typed
  rw [ended] at ends
  obtain ⟨emitted, called⟩ := Contract.runs_of_report ended
  refine (ends.fits trivial storage).suits (Contract.mem_of_function? found).1 suits ?_ ?_ ?_
  · intro call listed
    obtain ⟨state, reaches, makes⟩ := called call listed
    exact makes.amount_lt (typedAt reaches) (suitsAt reaches)
  · intro some
    obtain ⟨event, listed⟩ := List.exists_mem_of_ne_nil _ some
    obtain ⟨state, reaches, args, runs⟩ := emitted event listed
    obtain ⟨inside, has⟩ := runs.has (typedAt reaches)
    cases outside : state.frame.function.isEntryPoint with
    | true => exact .inl ((suitsAt reaches).emits outside _ _ runs)
    | false => exact .inr ⟨_, inside, outside, has.emitsEvents⟩
  · intro some
    obtain ⟨call, listed⟩ := List.exists_mem_of_ne_nil _ some
    obtain ⟨state, reaches, dest, target, amount, cell, runs, _⟩ := called call listed
    obtain ⟨inside, has⟩ := runs.has (typedAt reaches)
    cases outside : state.frame.function.isEntryPoint with
    | true => exact .inl ((suitsAt reaches).calls outside _ _ _ _ runs)
    | false => exact .inr ⟨_, inside, outside, has.movesValue_of_call⟩

/-- A sum that a helper computes is stored and emitted. -/
theorem suits_of_run_of_helper :
    let text :=
      "contract A \x7b\n  x: u64\n  private twice(n: u64) -> u64 \x7b return n + n \x7d\n" ++
        "  go(n: u64) \x7b self.x = self.twice(n) emit Done(self.x) \x7d\n\x7d"
    let inputs : Inputs := { Inputs.empty with args := [3] }
    ((ofText text).simulateOn .builtin standardLoopBound "Solana").passed = true ∧
      ∃ contract ∈ (ofText text).contracts, ∃ report function, contract.run .standard "go" inputs =
        .ok report ∧
        report.events = [⟨"Done", [6]⟩] ∧ contract.function? "go" = some function ∧
        report.Suits contract function .solana := by
  intro text inputs
  have passed : ((ofText text).simulateOn .builtin standardLoopBound "Solana").passed = true := by
    decide +kernel
  have known : ChainRegistry.builtin.profile? "Solana" = some .solana := by decide +kernel
  have checked : ∃ contract ∈ (ofText text).contracts,
      (contract.run .standard "go" inputs).toOption.map Report.events = some [⟨"Done", [6]⟩] := by
        decide +kernel
  obtain ⟨contract, member, emitted⟩ := checked
  obtain ⟨report, ran, events⟩ := Option.map_eq_some_iff.mp emitted
  have ran := Running.toOption_eq_some.mp ran
  have small : inputs.env.Within ChainProfile.solana.maxIntegerWidth := by
    intro var _
    cases var <;> decide
  obtain ⟨_, function, _, _, found, _, suits, _⟩ :=
    suits_of_run known passed member Environment.fits_zero small (Storage.fits_nil contract) ran
  exact ⟨passed, contract, member, report, function, ran, events, found, suits⟩

/-- An event that a helper emits goes unnoticed. -/
example :
    ((ofText
      "contract A \x7b private log() \x7b emit Done() \x7d go() \x7b self.log() \x7d \x7d").simulateOn
    (.insertAll [] [{ ChainProfile.solana with supportsEvents := false }]) standardLoopBound
    "Solana").passed = true := by
  decide +kernel

end ContractSet

end Covenant
