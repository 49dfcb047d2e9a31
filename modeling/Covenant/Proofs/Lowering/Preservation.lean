import Covenant.Proofs.Lowering.Bodies
import Mathlib.Algebra.Group.Nat.Defs
import Mathlib.Data.List.Perm.Subperm

/-!
Lowering preserves meaning. If all functions of a contract can be lowered, then running a function
on the machine ends with what the source code means, and with nothing else.
-/

namespace Covenant

namespace Lowering

section Events

variable (scope : ContractScope)

/-- Declared events are known with the types of their parameters. -/
theorem eventsOf_lists (decls : List EventDecl) {known : EventScope} {earlier : List Event}
    (listed : known.Lists earlier) (none : known.implied = []) :
    (eventsOf scope known decls).2.1.Lists (earlier ++ (eventsOf scope known decls).1) ∧
      (eventsOf scope known decls).2.1.implied = [] := by
  induction decls generalizing known earlier with
  | nil => simpa [eventsOf] using ⟨listed, none⟩
  | cons decl rest ih =>
    simp only [eventsOf]
    cases checked : eventOf scope known decl with
    | error problem => exact ih listed none
    | ok event =>
      have fresh : known.types? event.name = .none := by
        unfold eventOf at checked
        split at checked
        · simp at checked
        · rename_i free
          split at checked
          · simp at checked
          · obtain rfl := Except.ok.inj checked
            simpa using free
      have declared : (known.declare event.name (event.params.map Prod.snd)).Lists
          (earlier ++ [event]) := by
        intro name
        have before := listed name
        simp only [none, List.append_nil] at before
        simp only [EventScope.declare, none, List.append_nil, List.find?_append, EventScope.types?,
          List.lookup_cons]
        cases same : name == event.name with
        | true =>
          have equal := eq_of_beq same
          rw [equal, fresh, Option.map_eq_none_iff] at before
          rw [equal, before]
          simp
        | false =>
          have apart : (event.name == name) = false := by
            rw [beq_eq_false_iff_ne] at same ⊢
            exact Ne.symm same
          rw [EventScope.types?] at before
          simp [apart, before]
      have later := ih declared (by exact none)
      rw [List.append_assoc] at later
      exact later

end Events

section Functions

variable {scope : ContractScope}

theorem functionsOf_length (events : EventScope) (bodies : List (Header × Block)) :
    (functionsOf scope events bodies).1.length + (functionsOf scope events bodies).2.2.length =
      bodies.length := by
  induction bodies generalizing events with
  | nil => rfl
  | cons entry rest ih =>
    obtain ⟨header, body⟩ := entry
    simp only [functionsOf, functionOf]
    cases Build.function header body
      (Builder.start scope header.name (header.returns.map Ty.ofExpr) events) with
    | ok result final =>
      simp only [List.length_cons]
      rw [Nat.add_right_comm]
      exact congrArg (· + 1) (ih final.events)
    | error problem final => exact congrArg (· + 1) (ih final.events)

/-- When all bodies can be lowered, each of them is, and all events that it knows stay known. -/
theorem functionsOf_built (grows : ∀ header body known function final, Build.function header body
      (Builder.start scope header.name (header.returns.map Ty.ofExpr) known) = .ok function final →
      known.Extends final.events) (events : EventScope) (bodies : List (Header × Block))
    (free : (functionsOf scope events bodies).2.2 = []) :
    events.Extends (functionsOf scope events bodies).2.1 ∧
      ∀ entry ∈ bodies, ∃ function ∈ (functionsOf scope events bodies).1, ∃ known final,
        Build.function entry.1 entry.2
          (Builder.start scope entry.1.name (entry.1.returns.map Ty.ofExpr) known) =
          .ok function final ∧ final.events.Extends (functionsOf scope events bodies).2.1 := by
  induction bodies generalizing events with
  | nil => exact ⟨.refl events, by simp⟩
  | cons entry rest ih =>
    obtain ⟨header, body⟩ := entry
    simp only [functionsOf, functionOf] at free ⊢
    cases built : Build.function header body
        (Builder.start scope header.name (header.returns.map Ty.ofExpr) events) with
    | ok result final =>
      simp only [built] at free ⊢
      obtain ⟨extends_, others⟩ := ih final.events free
      refine ⟨(grows _ _ _ _ _ built).trans extends_, ?_⟩
      intro entry member
      rcases List.mem_cons.mp member with rfl | later
      · exact ⟨result, List.mem_cons_self, events, final, built, extends_⟩
      · obtain ⟨function, listed, found⟩ := others entry later
        exact ⟨function, List.mem_cons_of_mem _ listed, found⟩
    | error problem final => simp [built] at free

end Functions

/-- Whether all functions of a contract could be lowered: none of them is left out. -/
def Complete (lines : LineTable) (decl : ContractDecl) : Prop :=
  ∀ name code, decl.routine? name = some code → ((contractOf lines decl).1.function? name).isSome

/-- What the meaning of a contract's code depends on: its declarations, the shapes of its events,
and the inputs. -/
def surroundings (lines : LineTable) (decl : ContractDecl) (inputs : Inputs) : Surroundings :=
  { decl
    eventTypes? := fun name => ((contractOf lines decl).1.events.find? fun event => event.name ==
      name).map fun event => event.params.map Prod.snd
    env := inputs.env
    callsSucceed := inputs.callsSucceed }

section Contract

variable {lines : LineTable} {decl : ContractDecl} {inputs : Inputs}

theorem knowsFields : Build.KnowsFields (surroundings lines decl inputs) (scopeOf lines decl) where
  fields := by
    intro name
    have kept : (fieldsOf lines decl).map (fun field => (field.name, field.ty)) =
        (splitRepeated (fun field => field.name.name) [] decl.fields).1.map
          fun field => (field.name.name, Ty.ofExpr field.ty) := by
      conv =>
        rhs; rw [← List.zipIdx_map_fst 0
          (splitRepeated (fun field => field.name.name) [] decl.fields).1]
      simp only [fieldsOf, List.map_map]
      rfl
    simp only [ContractScope.field?, scopeOf, kept]
    rw [lookup_map, find?_splitRepeated decl.fields (by simp)]
    rfl
  signatures := by
    intro name
    have listed := lookup_map (functionDecls decl) (fun function => function.name.name)
      (fun function => (signatureOf function).2) name
    simp only [ContractScope.signature?, scopeOf]
    exact listed.trans (by rw [functionDecls, find?_splitRepeated decl.functions (by simp)]; rfl)

theorem mem_bodies_of_routine {name : String} {code : Routine}
    (found : decl.routine? name = some code) :
    ∃ header, (header, code.body) ∈ bodiesOf decl ∧ header.name = name ∧
      header.params = code.params ∧
      header.returns = code.returns := by
  unfold ContractDecl.routine? at found
  split at found
  · rename_i same
    obtain ⟨handler, first, rfl⟩ := Option.map_eq_some_iff.mp found
    refine ⟨ContractDecl.initHeader handler, ?_, same.symm, rfl, rfl⟩
    exact List.mem_append.mpr (.inl (by simp [first]))
  · obtain ⟨function, first, rfl⟩ := Option.map_eq_some_iff.mp found
    have named : function.name.name = name := by simpa using List.find?_some first
    rw [← find?_splitRepeated decl.functions (by simp : name ∉ [])] at first
    have listed : function ∈ functionDecls decl := List.mem_of_find?_eq_some first
    refine ⟨ContractDecl.functionHeader function, ?_, named, rfl, rfl⟩
    exact List.mem_append.mpr (.inr (List.mem_map.mpr ⟨function, listed, rfl⟩))

theorem routine_of_mem_bodies (readable : decl.Readable) {header : Header} {body : Block}
    (member : (header, body) ∈ bodiesOf decl) : ∃ code, decl.routine? header.name = some code := by
  rcases mem_bodiesOf member with ⟨handler, declared, rfl, _⟩ | ⟨function, declared, rfl, _⟩
  · obtain ⟨first, rest, found⟩ := List.exists_cons_of_ne_nil (List.ne_nil_of_mem declared)
    exact ⟨⟨first.params, none, first.body⟩, by
      simp [ContractDecl.routine?, ContractDecl.initHeader, found]⟩
  · have other : function.name.name ≠ "init" := readable.name_ne_init declared
    have present :
        (decl.functions.find? fun first => first.name.name == function.name.name).isSome :=
      List.find?_isSome.mpr ⟨function, declared, by simp⟩
    obtain ⟨first, found⟩ := Option.isSome_iff_exists.mp present
    exact ⟨⟨first.params, first.returns, first.body⟩, by
      simp only [ContractDecl.routine?, ContractDecl.functionHeader, other, if_false, found,
        Option.map_some]⟩

def bareLink (lines : LineTable) (decl : ContractDecl) (inputs : Inputs) : Link where
  setting := inputs.setting (contractOf lines decl).1 .standard
  around := surroundings lines decl inputs
  scope := scopeOf lines decl
  fuel := 0
  call := fun _ _ => Meaning.noAnswer
  knows := knowsFields
  env := rfl
  callsSucceed := rfl
  calls := callsFollow_none _ _

theorem function_extends (header : Header) (body : Block) (known : EventScope)
    (function : Function) (final : Builder)
    (made : Build.function header body
      (Builder.start (scopeOf lines decl) header.name (header.returns.map Ty.ofExpr) known) =
        .ok function final) :
    known.Extends final.events := by
  obtain ⟨entered, ended, span, built, same⟩ :=
    Link.built_of_function (bareLink lines decl .empty) made
  have events := built.grows.events
  rw [built.kept.events] at events
  rw [same]
  exact events

theorem Complete.free (complete : Complete lines decl) (readable : decl.Readable) :
    (loweredBodies lines decl).2.2 = [] := by
  have names : (bodiesOf decl).map (fun entry => entry.1.name) ⊆
      (loweredBodies lines decl).1.map Function.name := by
    intro name member
    obtain ⟨⟨header, body⟩, listed, rfl⟩ := List.mem_map.mp member
    obtain ⟨code, found⟩ := routine_of_mem_bodies readable listed
    obtain ⟨function, kept⟩ := Option.isSome_iff_exists.mp (complete header.name code found)
    obtain ⟨inside, same⟩ := Contract.mem_of_function? kept
    exact List.mem_map.mpr ⟨function, inside, same⟩
  have enough := (List.Nodup.subperm (bodiesOf_names readable) names).length_le
  rw [List.length_map, List.length_map] at enough
  have total : (loweredBodies lines decl).1.length + (loweredBodies lines decl).2.2.length =
      (bodiesOf decl).length :=
    functionsOf_length _ _
  exact List.eq_nil_of_length_eq_zero (by omega)

theorem complete_of_no_problems (readable : decl.Readable)
    (clean : (contractOf lines decl).2 = []) :
    Complete lines decl := by
  intro name code found
  have free : (loweredBodies lines decl).2.2 = [] := (List.append_eq_nil_iff.mp clean).2
  obtain ⟨header, member, named, _⟩ := mem_bodies_of_routine found
  obtain ⟨function, listed, known, final, made, _⟩ := (functionsOf_built function_extends
    (declaredEvents lines decl).2.1 (bodiesOf decl) free).2 _ member
  obtain ⟨_, _, _, _, _, rfl⟩ := Build.function_eq_ok made
  have kept := (contractOf_wellFormed readable).function? listed
  rw [← named, kept]
  rfl

theorem Complete.eventTypes (complete : Complete lines decl) (readable : decl.Readable)
    (name : String) :
    (surroundings lines decl inputs).eventTypes? name =
      (loweredBodies lines decl).2.1.types? name := by
  have start : EventScope.Lists ⟨[], []⟩ [] := fun _ => rfl
  obtain ⟨declared, _⟩ := eventsOf_lists (scopeOf lines decl) decl.events start rfl
  have extended := (functionsOf_built function_extends (declaredEvents lines decl).2.1
    (bodiesOf decl) (complete.free readable)).1
  exact extended.listed _ declared name

/-- The function that a routine is lowered to does what the routine means. -/
theorem Complete.routine_follows (complete : Complete lines decl) (readable : decl.Readable)
    (link : Link) (scope : link.scope = scopeOf lines decl)
    (around : link.around = surroundings lines decl inputs) {name : String} {code : Routine}
    (found : decl.routine? name = some code) :
    ∃ callee, (contractOf lines decl).1.function? name = some callee ∧
      callee.params = (code.params.map fun param => (param.name.name, Ty.ofExpr param.ty)) ∧
      (∃ block, callee.block? callee.entry = some block) ∧
      ∀ (cells : List Cell) (frame : Frame) (effects : Effects) (world : World)
        (callers : List Caller),
        cells.length = code.params.length → callee.frame cells = .ok frame → effects.Shows world →
        Follows link.setting link.fuel ⟨frame, callers, effects⟩ world
          (link.around.routine link.call link.fuel code (cells.map Cell.value))
          fun result changed next => next.Returns link.setting callers result changed := by
  obtain ⟨header, member, named, params, returns⟩ := mem_bodies_of_routine found
  obtain ⟨callee, listed, known, final, made, stays⟩ := (functionsOf_built function_extends
    (declaredEvents lines decl).2.1 (bodiesOf decl) (complete.free readable)).2 _ member
  rw [← scope] at made
  obtain ⟨entered, ended, span, built, events⟩ := Link.built_of_function link made
  have knows : link.KnowsEvents ended := by
    intro event types shape
    rw [around, complete.eventTypes readable]
    exact stays.kept event types (events ▸ shape)
  refine ⟨callee, ?_, by rw [built.params, params], built.start, ?_⟩
  · have same : callee.name = name := by
      obtain ⟨_, _, _, _, _, rfl⟩ := Build.function_eq_ok made
      exact named
    rw [← same]
    exact (contractOf_wellFormed readable).function? listed
  · intro cells frame effects world callers count framed shown
    have follows := built.follows knows (by rw [params]; exact count) framed shown callers
    rw [params, returns] at follows
    exact follows

/-- Calls of the functions of a contract do what they mean, if they are nested less deeply than the
fuel allows. -/
theorem Complete.calls_follow (complete : Complete lines decl) (readable : decl.Readable)
    (setting : Setting) (contract : setting.contract = (contractOf lines decl).1)
    (env : setting.env = inputs.env) (succeeds : setting.callsSucceed = inputs.callsSucceed)
    (fuel : Nat) :
    CallsFollow setting fuel (scopeOf lines decl) ((surroundings lines decl inputs).call fuel) := by
  induction fuel with
  | zero => exact callsFollow_none setting (scopeOf lines decl)
  | succ fuel ih =>
    intro state rest world dest name signature args given location known count pending held showing
    let link : Link :=
      { setting, around := surroundings lines decl inputs, scope := scopeOf lines decl, fuel
        call := (surroundings lines decl inputs).call fuel, knows :=
          knowsFields, env, callsSucceed := succeeds
        calls := ih }
    have knows : Build.KnowsFields (surroundings lines decl inputs) (scopeOf lines decl) :=
      knowsFields
    rw [knows.signatures] at known
    obtain ⟨declared, first, rfl⟩ := Option.map_eq_some_iff.mp known
    have other : name ≠ "init" := by
      have named : declared.name.name = name := by simpa using List.find?_some first
      exact named ▸ readable.name_ne_init (List.mem_of_find?_eq_some first)
    have found : decl.routine? name = some ⟨declared.params, declared.returns, declared.body⟩ := by
      have first : decl.functions.find? (fun function => function.name.name == name) =
          some declared := first
      simp only [ContractDecl.routine?, other, if_false, first, Option.map_some]
    obtain ⟨callee, kept, params, ⟨block, entry⟩, follows⟩ :=
      complete.routine_follows readable link rfl rfl found
    obtain ⟨cells, got, same⟩ := Frame.Holds.getAll held
    have arity : cells.length = declared.params.length := by
      have length := held.length_eq
      simp only [List.length_map] at count
      rw [← same, List.length_map] at length
      omega
    obtain ⟨inner, framed⟩ : ∃ inner, callee.frame cells = .ok inner := by
      simp only [Function.frame, entry]
      exact ⟨_, rfl⟩
    let frame : Frame := { state.frame with pending := rest }
    let effects := state.effects.record frame location (.call name)
    have leads : state.Leads setting ⟨inner, ⟨frame, dest⟩ :: state.callers, effects⟩ := by
      refine ⟨state.callers.length + 1, ?_⟩
      have there : args.mapM ({ state.frame with pending := rest } : Frame).get? = .ok cells := got
      rw [← contract] at kept
      rw [Running.step_of_pending pending]
      simp only [Running.instruction, Running.enterCall, Setting.withDepth, kept, there, framed,
        bind, Except.bind]
      rw [if_neg (by omega)]
      rfl
    have called := follows cells inner effects world (⟨frame, dest⟩ :: state.callers) arity framed
      ⟨showing.storage, showing.events, showing.calls⟩
    rw [same] at called
    refine .of_leads leads (.known found (called.further ?_))
    rintro result changed next ⟨value, after, stepped, waiting, returned, shown⟩
    refine ⟨_, (Running.leads_of_step fun depth => ?_).reaches, value, after, returned, shown, rfl⟩
    rw [stepped depth]
    simp only [Running.giveBack, waiting]
    cases dest <;> rfl

/-- A call from outside starts in a state from where the function does what it means, however much
fuel there is. -/
theorem Complete.entry_follows (complete : Complete lines decl) (readable : decl.Readable)
    {name : String} {code : Routine} (found : decl.routine? name = some code)
    (count : inputs.args.length = code.params.length) :
    ∃ callee frame, (contractOf lines decl).1.function? name = some callee ∧
      callee.params.length = inputs.args.length ∧
      callee.frame (callee.entryCells inputs.args) = .ok frame ∧
      ∀ fuel, Follows (inputs.setting (contractOf lines decl).1 .standard) fuel
        ⟨frame, [], Effects.start inputs.storage⟩ ⟨inputs.storage, [], []⟩
        ((surroundings lines decl inputs).routine ((surroundings lines decl inputs).call fuel) fuel
          code
          (List.zipWith (fun param arg => (Ty.ofExpr param.ty).wrap arg) code.params inputs.args))
        fun result changed next =>
          next.Returns (inputs.setting (contractOf lines decl).1 .standard) [] result changed := by
  let link (fuel : Nat) : Link :=
    { setting := inputs.setting (contractOf lines decl).1 .standard, around :=
      surroundings lines decl inputs
      scope := scopeOf lines decl, fuel, call := (surroundings lines decl inputs).call fuel,
        knows := knowsFields
      env := rfl, callsSucceed := rfl, calls := complete.calls_follow readable _ rfl rfl rfl fuel }
  obtain ⟨callee, kept, params, ⟨block, entry⟩, _⟩ :=
    complete.routine_follows readable (link 0) rfl rfl found
  have arity : callee.params.length = inputs.args.length := by rw [params, List.length_map, count]
  have values : (callee.entryCells inputs.args).map Cell.value =
      List.zipWith (fun param arg => (Ty.ofExpr param.ty).wrap arg) code.params inputs.args := by
    simp only [Function.entryCells, params, List.zipWith_map_left, List.map_zipWith, Cell.clean]
  have length : (callee.entryCells inputs.args).length = code.params.length := by
    simp only [Function.entryCells, List.length_zipWith, arity, Nat.min_self, count]
  obtain ⟨frame, framed⟩ : ∃ frame, callee.frame (callee.entryCells inputs.args) = .ok frame := by
    simp only [Function.frame, entry]
    exact ⟨_, rfl⟩
  refine ⟨callee, frame, kept, arity, framed, fun fuel => ?_⟩
  obtain ⟨other, again, _, _, follows⟩ :=
    complete.routine_follows readable (link fuel) rfl rfl found
  obtain rfl := Option.some.inj (kept.symm.trans again)
  rw [← values]
  exact follows _ frame (Effects.start inputs.storage) ⟨inputs.storage, [], []⟩ [] length framed
    ⟨rfl, rfl, rfl⟩

def ofAnswer (storage : Storage) : Answer (Option Nat) → CallResult × World
  | .gives result world => (.returned result, world)
  | .reverts message => (.reverted message, ⟨storage, [], []⟩)

theorem transaction_succ {name : String} {code : Routine} (found : decl.routine? name = some code)
    (fuel : Nat) :
    (surroundings lines decl inputs).transaction (fuel + 1) name inputs.args inputs.storage =
      ((surroundings lines decl inputs).routine ((surroundings lines decl inputs).call fuel) fuel
        code (List.zipWith (fun param arg => (Ty.ofExpr param.ty).wrap arg) code.params inputs.args)
        ⟨inputs.storage, [], []⟩).map (ofAnswer inputs.storage) := by
  have here : (surroundings lines decl inputs).decl.routine? name = some code := found
  simp only [Surroundings.transaction, Surroundings.call, here, bind, Option.bind, Meaning.known,
    Meaning.andThen, Meaning.give]
  cases (surroundings lines decl inputs).routine
    ((surroundings lines decl inputs).call fuel) fuel code
      (List.zipWith (fun param arg => (Ty.ofExpr param.ty).wrap arg) code.params inputs.args)
      ⟨inputs.storage, [], []⟩ with
  | none => rfl
  | some answer => cases answer <;> rfl

end Contract

end Lowering

def Report.world (report : Report) : World := ⟨report.storage, report.events, report.calls⟩

theorem Follows.ends {setting : Setting} {fuel : Nat} {state : Running} {world : World}
    {meaning : Meaning (Option Nat)} {answer : Answer (Option Nat)}
    (answered : meaning world = some answer)
    (follows : Follows setting fuel state world meaning
      fun result changed next => next.Returns setting [] result changed)
    (initial : Storage) :
    ∃ ending effects, state.EndsWith setting ending effects ∧
      ((Contract.report initial ending effects).result,
        (Contract.report initial ending effects).world) =
        Lowering.ofAnswer initial answer := by
  unfold Follows at follows
  rw [answered] at follows
  cases answer with
  | reverts message =>
    obtain ⟨effects, ends⟩ := follows
    exact ⟨_, effects, ends, rfl⟩
  | gives result changed =>
    obtain ⟨next, reaches, value, effects, stepped, waiting, returned, shown⟩ := follows
    have ended : next.step (setting.withDepth 0) = .ok (.ended (.returned value) effects) := by
      rw [stepped 0]
      simp only [Running.giveBack, waiting]
    refine ⟨.returned value, effects, reaches.endsWith (Running.endsWith_of_step ended), ?_⟩
    simp only [Contract.report, Report.world, Lowering.ofAnswer, returned, shown.storage,
      shown.events, shown.calls]

namespace Lowering

/-- Running a function ends with what its source code means, and with nothing else. -/
theorem run_iff_transaction {text : String} {decl : ContractDecl}
    (declared : decl ∈ (SyntaxTree.read text).tree.contracts)
    (complete : Complete (LineTable.ofText text) decl) {name : String} {code : Routine}
    (found : decl.routine? name = some code) (inputs : Inputs)
    (count : inputs.args.length = code.params.length) (outcome : CallResult) (world : World) :
    (∃ fuel, (surroundings (LineTable.ofText text) decl inputs).transaction fuel name inputs.args
      inputs.storage =
        some (outcome, world)) ↔
      ∃ limits report, (contractOf (LineTable.ofText text) decl).1.run limits name inputs =
        .ok report ∧
        report.result = outcome ∧ report.world = world := by
  have readable := SyntaxTree.readable_of_read declared
  obtain ⟨callee, frame, kept, arity, framed, follows⟩ :=
    complete.entry_follows readable found count
  constructor
  · rintro ⟨fuel, answered⟩
    cases fuel with
    | zero =>
      simp [Surroundings.transaction, Surroundings.call, Meaning.noAnswer, surroundings,
        found] at answered
    | succ fuel =>
      rw [transaction_succ found, Option.map_eq_some_iff] at answered
      obtain ⟨answer, answers, shows⟩ := answered
      obtain ⟨ending, effects, ⟨depth, budget, steps, ran⟩, reported⟩ :=
        (follows fuel).ends answers inputs.storage
      rw [shows] at reported
      obtain ⟨result, left⟩ := Prod.mk.inj reported
      refine ⟨⟨steps, depth⟩, _, Contract.run_eq_ok_iff.mpr
        ⟨callee, frame, ending, effects, kept, arity, framed, ?_, rfl⟩, result, left⟩
      exact Running.run_of_le ran (Nat.le_refl steps)
  · rintro ⟨limits, report, ran, rfl, rfl⟩
    obtain ⟨function, start, ending, effects, there, _, begun, ended, rfl⟩ :=
      Contract.run_eq_ok_iff.mp ran
    obtain rfl := Option.some.inj (kept.symm.trans there)
    obtain rfl := Except.ok.inj (framed.symm.trans begun)
    refine ⟨limits.fuel + 1, ?_⟩
    rw [transaction_succ found]
    have following := follows limits.fuel
    cases answers : (surroundings (LineTable.ofText text) decl inputs).routine
        ((surroundings (LineTable.ofText text) decl inputs).call limits.fuel) limits.fuel code
        (List.zipWith (fun param arg => (Ty.ofExpr param.ty).wrap arg) code.params inputs.args)
        ⟨inputs.storage, [], []⟩ with
    | none =>
      unfold Follows at following
      rw [answers] at following
      exact absurd ended (following limits.callDepth limits.fuel (ending, effects))
    | some answer =>
      obtain ⟨other, others, ends, reported⟩ := following.ends answers inputs.storage
      obtain ⟨rfl, rfl⟩ := ends.unique ⟨limits.callDepth, limits.fuel, limits.fuel, ended⟩
      rw [Option.map_some, ← reported]

/-- A loop that subtracts below zero: the machine wraps around as the source code means it. -/
theorem run_of_countdown :
    let text :=
      "contract A \x7b\n  x: u64\n  down(n: u64) \x7b while n > 0 \x7b self.x -= 1 n -= 1 \x7d \x7d\n\x7d"
    let inputs : Inputs := { Inputs.empty with args := [2], storage := [(⟨"x", none⟩, 1)] }
    ∃ decl ∈ (SyntaxTree.read text).tree.contracts, ∃ limits report,
      (contractOf (LineTable.ofText text) decl).1.run limits "down" inputs = .ok report ∧
        report.result = .returned none ∧ report.world = ⟨[(⟨"x", none⟩, 2 ^ 64 - 1)], [], []⟩ := by
  intro text inputs
  let decl := (SyntaxTree.read text).tree.contracts.head (by decide +kernel)
  let code := (decl.routine? "down").get (by decide +kernel)
  have checked : (SyntaxTree.read text).tree.contracts ≠ [] ∧ (decl.routine? "down").isSome ∧
      (contractOf (LineTable.ofText text) decl).2.isEmpty ∧ inputs.args.length =
        code.params.length ∧
      (surroundings (LineTable.ofText text) decl inputs).transaction 4 "down" inputs.args
        inputs.storage =
        some (.returned none, ⟨[(⟨"x", none⟩, 2 ^ 64 - 1)], [], []⟩) := by decide +kernel
  obtain ⟨filled, present, clean, count, means⟩ := checked
  have declared : decl ∈ (SyntaxTree.read text).tree.contracts := List.head_mem filled
  have complete := complete_of_no_problems (SyntaxTree.readable_of_read declared)
    (List.isEmpty_iff.mp clean)
  have found : decl.routine? "down" = some code := (Option.some_get present).symm
  exact ⟨decl, declared,
    (run_iff_transaction declared complete found inputs count _ _).mp ⟨4, means⟩⟩

end Lowering

end Covenant
