import Covenant.Proofs.Symbolic.Steps

/-!
Whole steps of a path. It goes on at the block that the run goes on at, gives back what the run
gives back, and starts or skips the calls of the run: where a call only reads, the path goes on
behind it, and the run catches up.
-/

namespace Covenant

section

variable {course : Course} {arena later : Arena} {numbers : SymbolId → Nat} {mindful : Bool}

namespace Explorer

variable {explorer : Explorer} {path : Path} {continuations : List Continuation} {frame : Frame}
  {effects : Effects} {types : List Ty} {result : Option Ty} {instruction : Located Instruction}
  {rest : List (Located Instruction)}

/-! Going on at another block. -/

theorem goto_eq_ok {limits : VerifierLimits} {target : BlockId} {next : Path}
    (went : path.goto limits target = .ok next) :
    ∃ entered visits, path.frame.enter target = .ok entered ∧
      next =
        { frame := entered, callers := path.callers, state := { path.state with visits } } := by
  obtain ⟨middle, visited, went⟩ := chain_eq_ok.mp went
  obtain ⟨entered, enters, went⟩ := chain_eq_ok.mp went
  obtain rfl := Except.ok.inj went
  simp only [Path.enter] at visited
  split at visited
  · simp at visited
  · split at visited
    · simp at visited
    · split at visited
      · simp at visited
      · obtain rfl := Except.ok.inj visited
        exact ⟨entered, _, enters, rfl⟩

theorem matches_goto {state : Running} {limits : VerifierLimits} {target : BlockId} {next : Path}
    {block : BasicBlock} {following : Effects}
    (matched : path.Matches course arena numbers mindful state) {kept : PathState}
    (states : kept.Matches course arena numbers mindful following)
    (found : state.frame.function.block? target = some block)
    (went : Path.goto limits { path with state := kept } target = .ok next) :
    next.Matches course arena numbers mindful
      ⟨state.frame.started block, state.callers, following⟩ := by
  obtain ⟨entered, visits, enters, rfl⟩ := goto_eq_ok went
  exact ⟨matched.frame.enter enters found, matched.callers,
    states.of_constraints states.satisfied rfl rfl⟩

/-- The search follows the branch that a condition with a faithful value decides for. -/
theorem covers_branch {limits : VerifierLimits} {condition : SymbolId}
    {targets : List (Bool × BlockId)}
    (branched : branch limits arena path condition targets = .ok continuations)
    (faithful : arena.Faithful numbers condition) {target : BlockId}
    (member : (numbers condition != 0, target) ∈ targets)
    (matched : path.state.Matches course arena numbers mindful effects) :
    ∃ next state, .pending next ∈ continuations ∧
      Path.goto limits { path with state } target = .ok next ∧
      state.Matches course arena numbers mindful effects := by
  induction targets generalizing continuations with
  | nil => simp at member
  | cons first others ih =>
    obtain ⟨truth, there⟩ := first
    simp only [branch] at branched
    rcases List.mem_cons.mp member with same | behind
    · obtain ⟨rfl, rfl⟩ := Prod.mk.inj same
      obtain ⟨facts, implied, hold⟩ := faithful.implied
      rw [implied] at branched
      obtain ⟨⟨state, mayHold⟩, assumed, branched⟩ := chain_eq_ok.mp branched
      obtain ⟨rfl, kept⟩ := matched.assumeAll hold assumed
      obtain ⟨next, went, branched⟩ := chain_eq_ok.mp branched
      obtain ⟨rest, _, branched⟩ := chain_eq_ok.mp branched
      obtain rfl := Except.ok.inj branched
      exact ⟨next, state, List.mem_cons_self, went, kept⟩
    · split at branched
      · exact ih branched behind
      · obtain ⟨⟨state, mayHold⟩, _, branched⟩ := chain_eq_ok.mp branched
        dsimp only at branched
        split at branched
        · obtain ⟨next, _, branched⟩ := chain_eq_ok.mp branched
          obtain ⟨rest, further, branched⟩ := chain_eq_ok.mp branched
          obtain rfl := Except.ok.inj branched
          obtain ⟨next, state, inside, went⟩ := ih further behind
          exact ⟨next, state, List.mem_cons_of_mem _ inside, went⟩
        · exact ih branched behind

/-- Where a run goes on at another block, so does a path. -/
theorem covers_goto {state : Running} (matched : path.Matches course arena numbers mindful state)
    {target : BlockId} {block : BasicBlock} {location : Location} {following : Effects}
    (goes : state.frame.Goes state.effects location state.frame.block.terminator.node
      target following)
    (found : state.frame.function.block? target = some block)
    (stepped : explorer.terminator arena path path.frame.block.terminator.node =
      .ok continuations) :
    ∃ next, .pending next ∈ continuations ∧
      next.Matches course arena numbers mindful
        ⟨state.frame.started block, state.callers, following⟩ := by
  have states := matched.state.of_same goes.same
  rw [matched.frame.block] at stepped
  generalize state.frame.block.terminator.node = node at goes stepped
  have branches {condition : ValueId} {cell : Cell} {targets : List (Bool × BlockId)}
      (held : state.frame.get? condition = .ok cell) (member : (cell.value != 0, target) ∈ targets)
      (stepped : (path.frame.get? condition >>= fun id =>
        branch explorer.limits arena path id targets) =
        .ok continuations) :
      ∃ next, .pending next ∈ continuations ∧
        next.Matches course arena numbers mindful
          ⟨state.frame.started block, state.callers, following⟩ := by
    obtain ⟨id, got, branched⟩ := chain_eq_ok.mp stepped
    obtain ⟨other, _, there, _, describes⟩ := matched.frame.get? got
    obtain rfl := Except.ok.inj (held.symm.trans there)
    rw [← describes.means.value] at member
    obtain ⟨next, kept, inside, went, after⟩ :=
      covers_branch branched describes.means.faithful member states
    exact ⟨next, inside, matches_goto matched after found went⟩
  cases goes with
  | jump =>
    obtain ⟨next, went, stepped⟩ := chain_eq_ok.mp stepped
    obtain rfl := Except.ok.inj stepped
    exact ⟨next, List.mem_singleton.mpr rfl, matches_goto matched states found went⟩
  | branch held =>
    refine branches held ?_ stepped
    split
    · rename_i truth
      rw [truth]
      exact List.mem_cons_self
    · rename_i falsity
      rw [Bool.not_eq_true] at falsity
      rw [falsity]
      exact List.mem_cons_of_mem _ List.mem_cons_self
  | guard held holds =>
    refine branches held ?_ stepped
    rw [holds]
    exact List.mem_singleton.mpr rfl

/-! Returns. -/

theorem describes_returned (standing : frame.Typed True course.contract course.declared types none)
    (matched : path.frame.Matches course arena numbers mindful frame) {value : Option ValueId}
    {cell : Option Cell} {location : Location} {following : Effects}
    (ends : frame.block.terminator.node = .ret value)
    (yields : frame.Yields effects location (.ret value) cell following) {id : Option SymbolId}
    (got : path.frame.getOption? value = .ok id) {ty : Ty}
    (returns : frame.function.returns = some ty) :
    ∃ given held, id = some given ∧ cell = some held ∧
      arena.Describes numbers mindful given ty held := by
  have checked := standing.function.ends _ _ standing.reached standing.block
  rw [ends] at checked
  cases checked with
  | retNothing none =>
    rw [returns] at none
    simp at none
  | @retValue value other same known =>
    cases yields with
    | value there =>
      obtain rfl := Option.some.inj (returns.symm.trans same)
      obtain ⟨given, found, rfl⟩ := SymbolicFrame.getOption?_eq_ok.mp got
      exact ⟨given, _, rfl, rfl, matched.describes found there standing.function known⟩

theorem exists_ret_of_yields {location : Location} {node : Terminator} {cell : Option Cell}
    {following : Effects} (yields : frame.Yields effects location node cell following) :
    ∃ value, node = .ret value := by
  cases yields with
  | nothing => exact ⟨none, rfl⟩
  | value => exact ⟨_, rfl⟩

theorem matches_receive (waiting : SymbolicCaller) {caller : Caller} {returns : Option Ty}
    (matched : waiting.frame.Matches course arena numbers mindful caller.frame)
    (same : waiting.dest = caller.dest)
    (typed : ∀ dest, caller.dest = some dest →
      ∃ ty, returns = some ty ∧ caller.frame.function.HasType course.declared dest ty)
    {id : Option SymbolId} {cell : Option Cell}
    (described : ∀ ty, returns = some ty →
      ∃ given held, id = some given ∧ cell = some held ∧
      arena.Describes numbers mindful given ty held) :
    (waiting.receive id).Matches course arena numbers mindful (caller.receive cell) := by
  unfold Caller.receive SymbolicCaller.receive
  rw [same]
  cases waits : caller.dest with
  | none => exact matched
  | some dest =>
    obtain ⟨ty, same, known⟩ := typed dest waits
    obtain ⟨given, held, rfl, rfl, describes⟩ := described ty same
    exact matched.define known describes

/-- Where a call of a run ends, so does that of a path. -/
theorem covers_giveBack {state : Running} {caller : Caller} {callers : List Caller}
    {following : Effects}
    (standing : state.frame.Typed True course.contract course.declared types none)
    (matched : path.Matches course arena numbers mindful state) {location : Location}
    {cell : Option Cell} (waiting : state.callers = caller :: callers)
    (yields : state.frame.Yields state.effects location state.frame.block.terminator.node cell
      following) (stepped : explorer.terminator arena path path.frame.block.terminator.node =
        .ok continuations) :
    ∃ next, .pending next ∈ continuations ∧
      next.Matches course arena numbers mindful ⟨caller.receive cell, callers, following⟩ := by
  obtain ⟨value, ends⟩ := exists_ret_of_yields yields
  rw [matched.frame.block, ends] at stepped
  rw [ends] at yields
  obtain ⟨id, got, stepped⟩ := chain_eq_ok.mp stepped
  obtain rfl := Except.ok.inj stepped
  have described := fun ty (returns : state.frame.function.returns = some ty) =>
    describes_returned standing matched.frame ends yields got returns
  have stacked := matched.callers
  rw [waiting] at stacked
  unfold giveBack
  cases same : path.callers with
  | nil =>
    rw [same] at stacked
    exact False.elim stacked
  | cons first others =>
    rw [same] at stacked
    obtain ⟨outer, dest, destTyped, further⟩ := stacked
    refine ⟨_, List.mem_singleton.mpr rfl, ?_, ?_, matched.state.of_same yields.same⟩
    · exact matches_receive first outer dest destTyped described
    · dsimp only
      rw [Caller.function_receive]
      exact further

theorem covers_stop {state : Running} {cell : Option Cell} {final : Effects}
    (stops : state.Stops cell final) (matched : path.Matches course arena numbers mindful state)
    (stepped : explorer.terminator arena path path.frame.block.terminator.node =
      .ok continuations) :
    ∃ ended, .finished ended ∈ continuations ∧
      ended.state.Matches course arena numbers mindful final := by
  obtain ⟨value, ends⟩ := exists_ret_of_yields stops.yields
  rw [matched.frame.block, ends] at stepped
  obtain ⟨id, got, stepped⟩ := chain_eq_ok.mp stepped
  obtain rfl := Except.ok.inj stepped
  have stacked := matched.callers
  rw [stops.callers] at stacked
  unfold giveBack
  cases same : path.callers with
  | nil => exact ⟨_, List.mem_singleton.mpr rfl, matched.state.of_same stops.yields.same⟩
  | cons first others =>
    rw [same] at stacked
    exact False.elim stacked

/-! Calls. -/

theorem call_eq_ok {dest : Option ValueId} {name : String} {args : List ValueId} {callee : Function}
    (found : explorer.contract.function? name = some callee)
    (called : explorer.call arena path dest name args = .ok (continuations, later)) :
    ∃ ids, args.mapM path.frame.get? = .ok ids ∧
      ((explorer.contract.isOpaque explorer.summaries name = true ∧
          ∃ value, explorer.callValue arena path.state name ids = .ok (value, later) ∧
          continuations =
            [.pending
              { path with frame := SymbolicCaller.receive ⟨path.frame, dest⟩ (some value) }]) ∨
        (later = arena ∧ ∃ frame visits, callee.symbolicFrame ids = .ok frame ∧ continuations =
          [.pending
            { frame, callers := ⟨path.frame, dest⟩ :: path.callers, state := { path.state with
              visits } }])) := by
  simp only [call, found] at called
  obtain ⟨ids, got, called⟩ := chain_eq_ok.mp called
  refine ⟨ids, got, ?_⟩
  split at called
  · rename_i quiet
    obtain ⟨⟨value, middle⟩, valued, called⟩ := chain_eq_ok.mp called
    obtain ⟨rfl, rfl⟩ := Prod.mk.inj (Except.ok.inj called)
    refine .inl ⟨quiet, value, valued, ?_⟩
    cases dest <;> rfl
  · split at called
    · simp [throw, throwThe, MonadExceptOf.throw] at called
    · obtain ⟨frame, framed, called⟩ := chain_eq_ok.mp called
      obtain ⟨entered, enters, called⟩ := chain_eq_ok.mp called
      obtain ⟨rfl, rfl⟩ := Prod.mk.inj (Except.ok.inj called)
      simp only [Path.enter] at enters
      split at enters
      · simp at enters
      · split at enters
        · simp at enters
        · split at enters
          · simp at enters
          · obtain rfl := Except.ok.inj enters
            exact .inr ⟨rfl, frame, _, framed, rfl⟩

structure Passes (arena : Arena) (numbers : SymbolId → Nat) (mindful : Bool) (expected : List Ty)
    (ids : List SymbolId) (cells : List Cell) : Prop where
  count : cells.length = ids.length
  inside : ∀ id ∈ ids, id < arena.symbols.size
  values : cells.map Cell.value = ids.map numbers
  shown : ∀ (index : Nat) (id : SymbolId), ids[index]? = some id → ∃ cell ty,
    cells[index]? = some cell ∧
    expected[index]? = some ty ∧ arena.Describes numbers mindful id ty cell

theorem passes_of_matches {symbolic : SymbolicFrame}
    (matched : symbolic.Matches course arena numbers mindful frame)
    (typed : frame.function.Typed course.declared types) {args : List ValueId} {expected : List Ty}
    (known : ListTyped types args expected) {cells : List Cell}
    (lists : args.mapM frame.get? = .ok cells) {ids : List SymbolId}
    (got : args.mapM symbolic.get? = .ok ids) :
    Passes arena numbers mindful expected ids cells := by
  induction known generalizing cells ids with
  | nil =>
    rw [List.mapM_nil] at got lists
    obtain rfl := Except.ok.inj got
    obtain rfl := Except.ok.inj lists
    exact ⟨rfl, by simp, rfl, by simp⟩
  | @cons value ty values others first _ ih =>
    rw [List.mapM_cons] at got lists
    obtain ⟨cell, there, lists⟩ := chain_eq_ok.mp lists
    obtain ⟨more, behind, lists⟩ := chain_eq_ok.mp lists
    obtain rfl := Except.ok.inj lists
    obtain ⟨id, found, got⟩ := chain_eq_ok.mp got
    obtain ⟨several, further, got⟩ := chain_eq_ok.mp got
    obtain rfl := Except.ok.inj got
    have describes := matched.describes found there typed first
    have passes := ih behind further
    refine ⟨by simp [passes.count], List.forall_mem_cons.mpr
      ⟨describes.means.faithful.inside, passes.inside⟩, by
      simp [describes.means.value, passes.values], fun index other listed => ?_⟩
    cases index with
    | zero =>
      obtain rfl := Option.some.inj listed
      exact ⟨cell, ty, rfl, rfl, describes⟩
    | succ index => exact passes.shown index other listed

section Calls

variable {callers : List Caller} {dest : Option ValueId} {name : String} {args : List ValueId}
  {callee : Function} {cells : List Cell} {inner : Frame} {after : Effects} {ids : List SymbolId}

structure Calling (course : Course) (types : List Ty) (frame : Frame) (dest : Option ValueId)
    (args : List ValueId) (callee : Function) : Prop where
  member : callee ∈ course.contract.functions
  passed : ListTyped types args (callee.params.map Prod.snd)
  returns : ∀ id : ValueId, dest = some id →
    ∃ ty, callee.returns = some ty ∧ frame.function.HasType course.declared id ty

theorem calling (sound : course.Sound)
    (standing : frame.Typed True course.contract course.declared types none) {location : Location}
    (pending : frame.pending = ⟨.call dest name args, location⟩ :: rest)
    (found : course.contract.function? name = some callee) :
    Calling course types frame dest args callee := by
  have checked := standing.instruction pending
  cases checked with
  | call known passed returns =>
    obtain rfl := sound.code.signatures _ _ _ known found
    refine ⟨(Contract.mem_of_function? found).1, passed, fun id same => ?_⟩
    obtain ⟨ty, there, _⟩ := returns id same
    refine ⟨ty, there, standing.hasType pending same ?_⟩
    simp only [Instruction.type?, known, Option.bind_some]
    exact there

/-- What a call that is spared returns is not tainted. -/
theorem clean_of_spares {expected : List Ty} (contract : explorer.contract = course.contract)
    (states : path.state.Matches course arena numbers mindful after)
    (passes : Passes arena numbers mindful expected ids cells)
    (got : args.mapM path.frame.get? = .ok ids) (mind : mindful)
    (spared : explorer.spares arena path name args = true)
    (found : course.contract.function? name = some callee)
    (entered : callee.frame cells = .ok inner) {setting : Setting}
    (same : setting.contract = course.contract)
    (reads : Running.OnlyReads setting
      (fun field => ∃ version, (field, version) ∈ explorer.readVersions path.state name)
      ⟨inner, [], after⟩)
    {last : Running} {value : Option Cell} {following : Effects}
    (reaches : Running.Reaches setting ⟨inner, [], after⟩ last)
    (stops : last.Stops value following) :
    ∀ cell ∈ value, cell.tainted = false := by
  simp only [spares, Bool.and_eq_true, got, List.all_eq_true, Bool.not_eq_true'] at spared
  obtain ⟨⟨plain, unmarked⟩, passed⟩ := spared
  have clean : ∀ cell ∈ cells, cell.tainted = false := by
    intro cell listed
    obtain ⟨index, there⟩ := List.mem_iff_getElem?.mp listed
    have inside : index < ids.length := passes.count ▸ (List.getElem?_eq_some_iff.mp there).1
    obtain ⟨other, _, also, _, describes⟩ := passes.shown index _ (List.getElem?_eq_getElem inside)
    obtain rfl := Option.some.inj (there.symm.trans also)
    have free := passed _ (List.getElem_mem inside)
    by_contra tainted
    have marked := describes.tainted mind (by simpa using tainted)
    simp [free] at marked
  have starts : Running.Unmarked setting.contract ⟨inner, [], after⟩ := by
    refine ⟨Function.unmarked_of_frame ⟨course.contract.functions.length, ?_⟩ clean entered, nofun⟩
    rw [same]
    simpa [Contract.subtractsNothing, contract, found] using plain
  have ends := starts.of_reaches reads (fun place listed => ?_) reaches
  · exact ends.frame.yields stops.yields
  · obtain ⟨version, listed⟩ := listed
    exact states.load_clean mind (unmarked _ listed)

variable (sound : course.Sound)
  (standing : frame.Typed True course.contract course.declared types none)
  (info : Calling course types frame dest args callee)
  (framed : path.frame.Matches course arena numbers mindful (frame.past rest))
  (stacked : SymbolicCaller.AllMatch course arena numbers mindful frame.function.returns
    path.callers callers)
  (states : path.state.Matches course arena numbers mindful after)
  (lists : args.mapM (frame.past rest).get? = .ok cells) (entered : callee.frame cells = .ok inner)
  (got : args.mapM path.frame.get? = .ok ids)

include sound standing info framed stacked states lists entered got

theorem matches_entered {symbolic : SymbolicFrame} (begun : callee.symbolicFrame ids = .ok symbolic)
    (visits : List Visit) :
    Path.Matches course arena numbers mindful
      { frame := symbolic, callers := ⟨path.frame, dest⟩ :: path.callers, state := { path.state with
        visits } }
      ⟨inner, ⟨frame.past rest, dest⟩ :: callers, after⟩ := by
  have passes := passes_of_matches framed standing.function info.passed lists got
  obtain ⟨others, checked⟩ := sound.code.functions callee info.member
  refine ⟨Function.matches_symbolicFrame checked.params passes.count
    (fun index id listed => ?_) begun entered, ?_, states.of_constraints states.satisfied rfl rfl⟩
  · obtain ⟨cell, ty, held, known, describes⟩ := passes.shown index id listed
    rw [List.getElem?_map] at known
    obtain ⟨param, declared, rfl⟩ := Option.map_eq_some_iff.mp known
    exact ⟨cell, param, held, declared, describes⟩
  · dsimp only
    rw [(Function.frame_eq_ok entered).1]
    exact ⟨framed, rfl, info.returns, stacked⟩

/-- Where a run calls a function that only reads, a path goes on behind the call, and the run comes
to that place. -/
theorem covers_opaque (contract : explorer.contract = course.contract)
    (summaries : explorer.summaries = course.summaries) (ordered : arena.Scoped)
    (respects : later.Respects course.valuation numbers)
    (spares : mindful → explorer.spares arena path name args = true)
    (found : course.contract.function? name = some callee)
    (quiet : explorer.contract.isOpaque explorer.summaries name = true) {value : SymbolId}
    (valued : explorer.callValue arena path.state name ids = .ok (value, later))
    (typed : Running.Typed True course.contract course.declared result
      ⟨inner, ⟨frame.past rest, dest⟩ :: callers, after⟩)
    {last : Running}
    (reaches : Running.Reaches course.setting
      ⟨inner, ⟨frame.past rest, dest⟩ :: callers, after⟩ last)
    (done : last.callers = []) :
    ∃ state, Path.Matches course later numbers mindful
        { path with frame := SymbolicCaller.receive ⟨path.frame, dest⟩ (some value) } state ∧
      state.Typed True course.contract course.declared result ∧
      Running.Reaches course.setting state last := by
  have code : course.setting.contract.Typed course.declared := sound.same ▸ sound.code
  have env : True → course.setting.env.Fits := fun _ => sound.env
  have begun := (Function.frame_eq_ok entered).1
  have alone : Running.Typed True course.contract course.declared callee.returns
      ⟨inner, [], after⟩ :=
    ⟨typed.frame, congrArg Function.returns begun, typed.effects⟩
  rw [← List.nil_append (Caller.mk (frame.past rest) dest :: callers)] at reaches typed
  obtain ⟨middle, cell, following, isolated, stops, back, onward⟩ := reaches.unwinds done
  have passes := passes_of_matches framed standing.function info.passed lists got
  have reads := onlyReads_of_isOpaque sound contract summaries sound.same quiet found begun
    alone path.state
  have answers : course.Answers name (ids.map numbers) (explorer.readVersions path.state name)
      ((cell.map Cell.value).getD 0) :=
    .returns found sound.same rfl passes.values entered alone reads
      (fun place version member => get_eq_atVersion states member) isolated stops
  have same : after.Same following := (reads.same_of_reaches isolated).trans stops.yields.same
  have grown := (stores_callValue ordered passes.inside valued).grown
  obtain ⟨ty, returns, _⟩ := callValue_eq_ok.mp valued
  rw [contract, found, Option.bind_some] at returns
  have means := means_callValue sound contract ordered passes.inside ty found returns
    valued respects
  rw [Course.call_eq answers] at means
  have fits := (isolated.typed code env (sound.same ▸ alone)).result_of_stops stops
  refine ⟨_, ⟨?_, ?_, (states.mono ordered grown).of_same same⟩, ?_, onward⟩
  · refine matches_receive ⟨path.frame, dest⟩ (framed.mono ordered grown) rfl info.returns
      fun other known => ?_
    obtain rfl := Option.some.inj (returns.symm.trans known)
    rw [returns] at fits
    cases fits with
    | some small =>
      refine ⟨value, _, rfl, rfl, means, fun mind tainted => absurd tainted ?_⟩
      have clean := clean_of_spares contract states passes got mind
        (spares mind) found entered sound.same reads isolated stops
      simp [clean _ rfl]
  · dsimp only
    rw [Caller.function_receive]
    exact stacked.mono ordered grown
  · exact sound.same ▸ back.typed code env (sound.same ▸ typed)

end Calls

/-! Steps. -/

section Steps

variable {state last : Running} {cell : Option Cell} {final : Effects} (sound : course.Sound)
  (contract : explorer.contract = course.contract)
  (summaries : explorer.summaries = course.summaries) (ordered : arena.Scoped)
  (within : path.Within arena) (respects : later.Respects course.valuation numbers)
  (typed : state.Typed True course.contract course.declared result) (stops : last.Stops cell final)
  (stores : final.stores <:+ course.stores)

include sound contract summaries ordered within respects typed stops stores

/-- One of the paths behind an instruction is that of the run. -/
theorem covers_instruction {next : Running} (pending : state.frame.pending = instruction :: rest)
    (framed : path.frame.Matches course arena numbers mindful (state.frame.past rest))
    (stacked : SymbolicCaller.AllMatch course arena numbers mindful state.frame.function.returns
      path.callers state.callers)
    (states : path.state.Matches course arena numbers mindful state.effects)
    (stepped : explorer.instruction arena path instruction.node = .ok (continuations, later))
    (attends : explorer.attendsInstruction mindful arena path instruction.node = true)
    (leads : Running.Leads course.setting state next)
    (reaches : Running.Reaches course.setting next last) :
    ∃ onward running, .pending onward ∈ continuations ∧
      onward.Matches course later numbers mindful running ∧
      running.Typed True course.contract course.declared result ∧
      Running.Reaches course.setting running last := by
  have code : course.setting.contract.Typed course.declared := sound.same ▸ sound.code
  obtain ⟨types, standing⟩ := typed.frame
  have nextTyped : next.Typed True course.contract course.declared result :=
    sound.same ▸ (Running.Reaches.step leads (.refl _)).typed code (fun _ => sound.env)
      (sound.same ▸ typed)
  have suffix : next.effects.stores <:+ course.stores :=
    (stops.yields.same.stores ▸ reaches.stores_suffix).trans stores
  have grown := (grows_instruction ordered within stepped).grown
  cases leads.move with
  | @instruct first others after following waits does =>
    obtain ⟨rfl, rfl⟩ := List.cons.inj (waits.symm.trans pending)
    obtain ⟨onward, member, callers, frames, kept⟩ := covers_does sound contract ordered standing
      pending framed within respects states does suffix stepped attends
    refine ⟨onward, _, member, ⟨frames, ?_, kept⟩, nextTyped, reaches⟩
    dsimp only
    rw [callers, does.place_eq.1]
    exact stacked.mono ordered grown
  | @call dest name args location others callee cells inner waits found lists entered =>
    obtain ⟨rfl, rfl⟩ := List.cons.inj (waits.symm.trans pending)
    rw [sound.same] at found
    have info := calling sound standing pending found
    have recorded : path.state.Matches course arena numbers mindful
        (state.effects.record (state.frame.past others) location (.call name)) :=
      states.of_same ⟨rfl, rfl, rfl⟩
    obtain ⟨ids, got, ⟨quiet, value, valued, rfl⟩ | ⟨rfl, symbolic, visits, begun, rfl⟩⟩ :=
      call_eq_ok (contract ▸ found) stepped
    · have spares : mindful → explorer.spares arena path name args = true := by
        intro mind
        simpa [attendsInstruction, mind, quiet] using attends
      obtain ⟨running, onward⟩ := covers_opaque sound standing info framed stacked recorded lists
        entered got contract summaries ordered respects spares found quiet valued nextTyped reaches
        stops.callers
      exact ⟨_, running, List.mem_singleton.mpr rfl, onward⟩
    · exact ⟨_, _, List.mem_singleton.mpr rfl,
        matches_entered sound standing info framed stacked recorded lists entered got begun visits,
        nextTyped, reaches⟩
  | goto waits => exact absurd (waits.symm.trans pending) (List.cons_ne_nil _ _).symm
  | giveBack waits => exact absurd (waits.symm.trans pending) (List.cons_ne_nil _ _).symm

/-- One of the paths behind a step is that of the run: it goes on as the run does, or it ends where
the run ends. -/
theorem covers_step (stepped : explorer.step arena path = .ok (continuations, later))
    (attends : explorer.attends mindful arena path = true)
    (matched : path.Matches course arena numbers mindful state)
    (reaches : Running.Reaches course.setting state last) :
    (∃ next running, .pending next ∈ continuations ∧
      next.Matches course later numbers mindful running ∧
        running.Typed True course.contract course.declared result ∧
        Running.Reaches course.setting running last) ∨
      ∃ ended, .finished ended ∈ continuations ∧
      ended.state.Matches course later numbers mindful final := by
  unfold step at stepped
  unfold Explorer.attends at attends
  split at stepped
  · rename_i instruction others waits
    have pending := matched.frame.pending.symm.trans waits
    have past : Path.Within arena { path with frame := { path.frame with pending := others } } :=
      { within with frame := ⟨within.frame.values, within.frame.locals⟩ }
    simp only [waits] at attends
    cases reaches with
    | refl => exact absurd (stops.pending.symm.trans pending) (List.cons_ne_nil _ _).symm
    | step leads rest =>
      exact .inl (covers_instruction sound contract summaries ordered past respects typed stops
        stores pending (matched.frame.past others) matched.callers matched.state stepped
        attends leads rest)
  · rename_i waits
    have pending := matched.frame.pending.symm.trans waits
    obtain ⟨conts, ended, stepped⟩ := chain_eq_ok.mp stepped
    obtain ⟨rfl, rfl⟩ := Prod.mk.inj (Except.ok.inj stepped)
    cases reaches with
    | refl => exact .inr (covers_stop stops matched ended)
    | step leads rest =>
      have code : course.setting.contract.Typed course.declared := sound.same ▸ sound.code
      have nextTyped := sound.same ▸ (Running.Reaches.step leads (.refl _)).typed code
        (fun _ => sound.env) (sound.same ▸ typed)
      obtain ⟨types, standing⟩ := typed.frame
      cases leads.move with
      | goto _ goes found =>
        obtain ⟨next, member, after⟩ := covers_goto matched goes found ended
        exact .inl ⟨next, _, member, after, nextTyped, rest⟩
      | giveBack _ yields waiting =>
        obtain ⟨next, member, after⟩ := covers_giveBack standing matched waiting yields ended
        exact .inl ⟨next, _, member, after, nextTyped, rest⟩
      | instruct some => exact absurd (some.symm.trans pending) (List.cons_ne_nil _ _)
      | call some => exact absurd (some.symm.trans pending) (List.cons_ne_nil _ _)

end Steps

end Explorer

end

/-!
The search for all paths. If it does not stop early, one of the paths that it finds is that of the
run, by induction on its steps: at each of them one of the paths that are still to be followed
matches the run, or one that has ended does.
-/

namespace Explorer

def attendsAll (explorer : Explorer) (mindful : Bool) : Nat → Arena → List Path → Bool
  | _, _, [] => true
  | 0, _, _ :: _ => true
  | fuel + 1, arena, path :: pending =>
    explorer.attends mindful arena path &&
      match explorer.step arena path with
      | .error _ => true
      | .ok (continuations, arena) =>
        explorer.attendsAll mindful fuel arena ((pendingOf continuations).reverse ++ pending)

variable {explorer : Explorer} {arena : Arena} {path : Path} {pending : List Path}
  {done : List PathEnd} {continuations : List Continuation}

theorem mem_pendingOf : path ∈ pendingOf continuations ↔ .pending path ∈ continuations := by
  unfold pendingOf
  rw [List.mem_filterMap]
  constructor
  · rintro ⟨continuation, member, same⟩
    cases continuation with
    | pending other => exact Option.some.inj same ▸ member
    | finished ended => simp at same
  · exact fun member => ⟨_, member, rfl⟩

theorem mem_finishedOf {ended : PathEnd} :
    ended ∈ finishedOf continuations ↔ .finished ended ∈ continuations := by
  unfold finishedOf
  rw [List.mem_filterMap]
  constructor
  · rintro ⟨continuation, member, same⟩
    cases continuation with
    | pending other => simp at same
    | finished other => exact Option.some.inj same ▸ member
  · exact fun member => ⟨_, member, rfl⟩

structure AllWithin (arena : Arena) (pending : List Path) (done : List PathEnd) : Prop where
  ordered : arena.Scoped
  pending : ∀ path ∈ pending, path.Within arena
  done : ∀ ended ∈ done, ended.state.Within arena

theorem AllWithin.step {later : Arena} (within : AllWithin arena (path :: pending) done)
    (stepped : explorer.step arena path = .ok (continuations, later)) :
    arena.Extends later ∧
      AllWithin later ((pendingOf continuations).reverse ++ pending)
        ((finishedOf continuations).reverse ++ done) := by
  obtain ⟨grown, ordered, inside⟩ :=
    grows_step within.ordered (within.pending path List.mem_cons_self) stepped
  refine ⟨grown, ordered, fun other member => ?_, fun ended member => ?_⟩
  · rcases List.mem_append.mp member with new | old
    · exact inside _ (mem_pendingOf.mp (List.mem_reverse.mp new))
    · exact (within.pending other (List.mem_cons_of_mem _ old)).mono grown
  · rcases List.mem_append.mp member with new | old
    · exact inside _ (mem_finishedOf.mp (List.mem_reverse.mp new))
    · exact (within.done ended old).mono grown

structure Exploration.Completes (found : Exploration) (arena : Arena) (done : List PathEnd) :
    Prop where
  grown : arena.Extends found.arena
  within : AllWithin found.arena [] found.paths
  kept : ∀ ended ∈ done, ended ∈ found.paths

theorem completes_stop (within : AllWithin arena pending done) {later : Arena}
    (grown : arena.Extends later) (ordered : later.Scoped) (halt : Option Halt) :
    Exploration.Completes ⟨done.reverse, halt, later⟩ arena done where
  grown := grown
  within :=
    ⟨ordered, by simp, fun ended member =>
      (within.done ended (List.mem_reverse.mp member)).mono grown⟩
  kept := fun _ member => List.mem_reverse.mpr member

theorem follow_completes (explorer : Explorer) (fuel spawned : Nat)
    (within : AllWithin arena pending done) :
    Exploration.Completes (explorer.follow fuel arena pending spawned done) arena done := by
  induction fuel generalizing arena pending spawned done with
  | zero => cases pending <;> exact completes_stop within (.refl arena) within.ordered _
  | succ fuel ih =>
    cases pending with
    | nil => exact completes_stop within (.refl arena) within.ordered _
    | cons path pending =>
      simp only [follow]
      cases stepped : explorer.step arena path with
      | error halt => exact completes_stop within (.refl arena) within.ordered _
      | ok result =>
        obtain ⟨continuations, later⟩ := result
        obtain ⟨grown, kept⟩ := within.step stepped
        dsimp only
        split
        · exact completes_stop within grown kept.ordered _
        · obtain ⟨further, inside, ended⟩ := ih (spawned + (continuations.length - 1)) kept
          exact ⟨grown.trans further, inside, fun other member =>
            ended other (List.mem_append_right _ member)⟩

/-- If the search does not stop early, it finds the path of a run that matches one of the paths to
be followed. -/
theorem covers_follow {course : Course} {numbers : SymbolId → Nat} {mindful : Bool}
    {result : Option Ty} {cell : Option Cell} {final : Effects} {last : Running}
    (sound : course.Sound) (contract : explorer.contract = course.contract)
    (summaries : explorer.summaries = course.summaries) (stops : last.Stops cell final)
    (stores : final.stores <:+ course.stores) (fuel spawned : Nat)
    (within : AllWithin arena pending done)
    (complete : (explorer.follow fuel arena pending spawned done).halt = none)
    (respects : (explorer.follow fuel arena pending spawned done).arena.Respects
      course.valuation numbers)
    (attends : explorer.attendsAll mindful fuel arena pending = true) {state : Running}
    (member : path ∈ pending) (matched : path.Matches course arena numbers mindful state)
    (typed : state.Typed True course.contract course.declared result)
    (reaches : Running.Reaches course.setting state last) :
    ∃ ended ∈ (explorer.follow fuel arena pending spawned done).paths,
      ended.state.Matches course (explorer.follow fuel arena pending spawned done).arena numbers
        mindful final := by
  induction fuel generalizing arena pending spawned done path state with
  | zero =>
    cases pending with
    | nil => simp at member
    | cons first rest => simp [follow] at complete
  | succ fuel ih =>
    cases pending with
    | nil => simp at member
    | cons first rest =>
      simp only [attendsAll, Bool.and_eq_true] at attends
      simp only [follow] at complete respects ⊢
      cases stepped : explorer.step arena first with
      | error halt => simp [stepped] at complete
      | ok next =>
        obtain ⟨continuations, later⟩ := next
        simp only [stepped] at complete respects attends ⊢
        split at complete
        · simp at complete
        · rename_i few
          rw [if_neg few] at respects ⊢
          obtain ⟨grown, kept⟩ := within.step stepped
          have completes :=
            follow_completes explorer fuel (spawned + (continuations.length - 1)) kept
          rcases List.mem_cons.mp member with rfl | waiting
          · -- the path of the run is the one that is followed
            have laterRespects := respects.of_extends kept.ordered completes.grown
            rcases covers_step sound contract summaries within.ordered
              (within.pending path List.mem_cons_self)
                laterRespects typed stops stores stepped attends.1 matched reaches with
              ⟨next, running, listed, agrees, keeps, rest⟩ | ⟨ended, listed, agrees⟩
            · have inside := List.mem_reverse.mpr (mem_pendingOf.mpr listed)
              exact ih _ kept complete respects attends.2
                (List.mem_append_left _ inside) agrees keeps rest
            · refine ⟨ended, completes.kept ended ?_, agrees.mono kept.ordered completes.grown⟩
              exact List.mem_append_left _ (List.mem_reverse.mpr (mem_finishedOf.mpr listed))
          · have moved : path.Matches course later numbers mindful state :=
              ⟨matched.frame.mono within.ordered grown, matched.callers.mono within.ordered grown,
                matched.state.mono within.ordered grown⟩
            exact ih _ kept complete respects attends.2
              (List.mem_append_right _ waiting) moved typed reaches

/-! The start of a search. -/

/-- The values of parameters are unknowns of their types. -/
theorem foldl_params {next : List SymbolId × Arena → (String × Ty) × Nat → List SymbolId × Arena}
    {params : List (String × Ty)} {first : Nat} {found : List SymbolId}
    {result : List SymbolId × Arena}
    (folded : (params.zipIdx first).foldl next (found, arena) = result)
    (adds : ∀ found arena param index, next (found, arena) (param, index) =
      (found ++ [(arena.intern (.param index) param.2).1], (arena.intern (.param index) param.2).2))
    (ordered : arena.Scoped) :
    ∃ more, result.1 = found ++ more ∧ arena.Extends result.2 ∧ result.2.Scoped ∧
      more.length = params.length ∧
      ∀ (index : Nat) (id : SymbolId), more[index]? = some id → ∃ param, params[index]? =
        some param ∧
        result.2.symbols[id]? = some ⟨.param (first + index), param.2⟩ := by
  induction params generalizing first found arena with
  | nil =>
    subst folded
    exact ⟨[], by simp, .refl arena, ordered, rfl, by simp⟩
  | cons param params ih =>
    have parts : ∀ part ∈ Arena.references (.param first), part < arena.symbols.size := by
      simp [Arena.references]
    have stored := Arena.stores_intern ordered parts param.2
    rw [List.zipIdx_cons, List.foldl_cons, adds] at folded
    obtain ⟨more, listed, grown, kept, length, symbols⟩ := ih folded stored.ordered
    refine ⟨(arena.intern (.param first) param.2).1 :: more, by simp [listed],
      stored.grown.trans grown, kept, by simp [length], fun index id there => ?_⟩
    cases index with
    | zero =>
      obtain rfl := Option.some.inj there
      exact ⟨param, rfl, grown _ _ (Arena.getElem?_intern arena (.param first) param.2)⟩
    | succ index =>
      obtain ⟨other, declared, symbol⟩ := symbols index id there
      refine ⟨other, declared, ?_⟩
      rw [symbol, Nat.add_assoc, Nat.add_comm 1 index]

theorem start_eq_ok {function : Function} (begun : start Arena.empty function = (.ok path, arena)) :
    ∃ ids frame, function.symbolicFrame ids = .ok frame ∧
      path = { frame, callers := [], state := PathState.start (function.kind == .init) } ∧
      arena.Scoped ∧
      ids.length = function.params.length ∧
      ∀ (index : Nat) (id : SymbolId), ids[index]? = some id → ∃ param, function.params[index]? =
        some param ∧
        arena.symbols[id]? = some ⟨.param index, param.2⟩ := by
  unfold start at begun
  generalize folded : List.foldl _ _ _ = result at begun
  obtain ⟨ids, same, _, ordered, length, listed⟩ :=
    foldl_params folded (fun _ _ _ _ => rfl) Arena.scoped_empty
  rw [List.nil_append] at same
  obtain ⟨made, rfl⟩ := Prod.mk.inj begun
  rw [same] at made
  obtain ⟨frame, framed, made⟩ := chain_eq_ok.mp made
  obtain rfl := Except.ok.inj made
  refine ⟨ids, frame, framed, rfl, ordered, length, fun index id there => ?_⟩
  obtain ⟨param, declared, symbol⟩ := listed index id there
  exact ⟨param, declared, by rw [symbol, Nat.zero_add]⟩

theorem within_start {function : Function}
    (begun : start Arena.empty function = (.ok path, arena)) :
    arena.Scoped ∧ path.Within arena := by
  obtain ⟨ids, frame, framed, rfl, ordered, _, listed⟩ := start_eq_ok begun
  refine ⟨ordered, Function.within_symbolicFrame (fun id member => ?_)
    framed, by simp, by simp [PathState.start], by simp [PathState.start]⟩
  obtain ⟨index, there⟩ := List.mem_iff_getElem?.mp member
  obtain ⟨_, _, symbol⟩ := listed index id there
  exact Arena.lt_size symbol

/-- The start of a search matches the start of a run that it is made for. -/
theorem matches_start {course : Course} {numbers : SymbolId → Nat} {mindful : Bool}
    (sound : course.Sound) {function : Function} (member : function ∈ course.contract.functions)
    (begun : start Arena.empty function = (.ok path, arena))
    (respects : arena.Respects course.valuation numbers)
    (args : course.args.length = function.params.length)
    (fits : ∀ (index : Nat) (param : String × Ty), function.params[index]? = some param →
      ∃ value, course.args[index]? = some (.clean value) ∧ value < param.2.bound)
    (empty : function.kind = .init → ∀ place, course.initial.get place = 0) {frame : Frame}
    (framed : function.frame course.args = .ok frame) :
    path.Matches course arena numbers mindful ⟨frame, [], Effects.start course.initial⟩ := by
  obtain ⟨ids, symbolic, begins, rfl, ordered, length, listed⟩ := start_eq_ok begun
  obtain ⟨types, checked⟩ := sound.code.functions function member
  refine ⟨Function.matches_symbolicFrame checked.params (args.trans length.symm)
    (fun index id there => ?_) begins framed,
    trivial, Constraints.satisfies_empty, fun starts => ?_, .nil, Effects.Recorded.start _,
      List.nil_suffix⟩
  · obtain ⟨param, declared, symbol⟩ := listed index id there
    obtain ⟨value, held, small⟩ := fits index param declared
    have same : course.valuation.param index = value := by
      simp [Course.valuation, List.getD_eq_getElem?_getD, held, Cell.clean]
    refine ⟨.clean value, param, held, declared, ?_⟩
    have means := Arena.means_of_given ordered symbol respects rfl
      (by rw [Term.value, same]; exact small)
    rw [Term.value, same] at means
    exact means.describes
  · exact empty (by simpa [PathState.start] using starts)

end Explorer

end Covenant
