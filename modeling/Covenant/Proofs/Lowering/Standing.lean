import Covenant.Proofs.Lowering.Expressions

/-!
Where running code stands while statements are followed: at the end of what has been built so far,
with the rest of the finished function before it.
-/

namespace Covenant

def OpenBlock.ClosesTo (block : OpenBlock) (final : BasicBlock) : Prop :=
  (block.terminator = none ∧ block.instructions <+: final.instructions) ∨
    (block.terminator = some final.terminator ∧ block.instructions = final.instructions)

theorem OpenBlock.Becomes.closesTo {block later : OpenBlock} {final : BasicBlock}
    (becomes : block.Becomes later) (closes : later.ClosesTo final) : block.ClosesTo final := by
  rcases becomes with rfl | ⟨free, start⟩
  · exact closes
  · rcases closes with ⟨_, further⟩ | ⟨_, same⟩
    · exact .inl ⟨free, start.trans further⟩
    · exact .inl ⟨free, same ▸ start⟩

structure Function.Embeds (function : Function) (builder : Builder) : Prop where
  locals : builder.locals <+: function.locals
  blocks : ∀ (id : Nat) (block : OpenBlock), builder.blocks[id]? = some block →
    ∃ final, function.blocks[id]? = some final ∧ block.ClosesTo final

theorem Builder.Grows.embeds {limit : Nat} {builder final : Builder} {function : Function}
    (grows : Builder.Grows limit builder final) (embeds : function.Embeds final) :
    function.Embeds builder where
  locals := grows.locals.trans embeds.locals
  blocks := by
    intro id block found
    obtain ⟨later, there, becomes⟩ := grows.blocks id block found
    obtain ⟨last, present, closes⟩ := embeds.blocks id later there
    exact ⟨last, present, becomes.closesTo closes⟩

theorem Function.Embeds.of_terminate {function : Function} {builder : Builder}
    {terminator : Terminator} {span : Span}
    (embeds : function.Embeds (builder.terminate terminator span)) : function.Embeds builder := by
  have grows : Builder.Grows 0 builder (builder.terminate terminator span) :=
    Builder.grows_terminate _ _ _
  exact grows.embeds embeds

theorem Function.Embeds.of_withBlock {function : Function} {builder : Builder}
    (embeds : function.Embeds builder.withBlock) : function.Embeds builder := by
  have grows : Builder.Grows 0 builder builder.withBlock :=
    Builder.grows_withBlock _ (Nat.zero_le _)
  exact grows.embeds embeds

theorem Function.Embeds.of_moveTo {function : Function} {builder : Builder} {block : BlockId}
    (embeds : function.Embeds (builder.moveTo block)) : function.Embeds builder :=
  ⟨embeds.locals, embeds.blocks⟩

structure Stands (function : Function) (callers : List Caller) (builder : Builder)
    (scopes : Scopes) (world : World) (state : Running) : Prop where
  within : state.frame.function = function
  room : function.locals.length ≤ state.frame.locals.length
  place : ∃ (block : OpenBlock) (final : BasicBlock), builder.blocks[builder.current]? =
    some block ∧
    function.blocks[builder.current]? = some final ∧ state.frame.block = final ∧
    final.instructions = block.instructions ++ state.frame.pending
  kept : scopes.KeptIn builder state.frame.locals
  shown : state.effects.Shows world
  waiting : state.callers = callers

def Running.Returns (setting : Setting) (callers : List Caller) (result : Option Nat)
    (world : World) (state : Running) : Prop :=
  ∃ value effects,
    (∀ depth, state.step (setting.withDepth depth) = .ok (state.giveBack value effects)) ∧
    state.callers = callers ∧ value.map Cell.value = result ∧ effects.Shows world

namespace Stands

variable {function : Function} {callers : List Caller} {builder final : Builder} {scopes : Scopes}
  {world : World} {state : Running}

theorem computes {α : Type} {link : Link} {code : List (Located Instruction)} {needs : Frame → Prop}
    {meaning : Scopes → Meaning α} {holds : Frame → α → Prop}
    (stands : Stands function callers builder scopes world state)
    (computes : link.Computes code builder final needs meaning holds) (needed : needs state.frame)
    (running : builder.IsOpen) (embeds : function.Embeds final) :
    Follows link.setting link.fuel state world (meaning scopes) fun result changed next =>
      Stands function callers final scopes changed next ∧ holds next.frame result := by
  obtain ⟨block, last, here, there, same, split⟩ := stands.place
  obtain ⟨other, found, free⟩ := running
  rw [here] at found
  obtain rfl := Option.some.inj found
  have extended : final.blocks[final.current]? =
      some { block with instructions := block.instructions ++ code } := by
    have current : final.current = builder.current := by rw [computes.emits.same]; rfl
    rw [current, computes.emits.same, Builder.getElem?_extend, if_pos rfl, here]
    rfl
  have current : final.current = builder.current := by rw [computes.emits.same]; rfl
  obtain ⟨ending, present, closes⟩ := embeds.blocks _ _ extended
  rw [current, there] at present
  obtain rfl := Option.some.inj present
  obtain ⟨more, rest⟩ : ∃ more, last.instructions = (block.instructions ++ code) ++ more := by
    rcases closes with ⟨_, more, rest⟩ | ⟨ended, _⟩
    · exact ⟨more, rest.symm⟩
    · simp only [free] at ended
      exact absurd ended (by simp)
  have pending : state.frame.pending = code ++ more := by
    rw [split, List.append_assoc] at rest
    exact List.append_cancel_left rest
  refine (computes.follows scopes state more world stands.kept needed pending stands.shown).mono ?_
  rintro result changed next ⟨past, shown, held⟩
  refine ⟨?_, held⟩
  exact {
    within := past.function.trans stands.within
    room := by rw [past.locals]; exact stands.room
    place :=
      ⟨_, last, extended, by rw [current, there], past.block.trans same, by rw [past.pending, rest]⟩
    kept := by
      rw [past.locals]
      exact stands.kept.outer (by rw [computes.emits.same]; rfl)
        (by rw [computes.emits.same]; exact List.prefix_refl _)
    shown
    waiting := past.callers.trans stands.waiting }

theorem withBlock (stands : Stands function callers builder scopes world state) :
    Stands function callers builder.withBlock scopes world state := by
  obtain ⟨block, last, here, there, same, split⟩ := stands.place
  have inside := (List.getElem?_eq_some_iff.mp here).1
  refine ⟨stands.within, stands.room, ⟨block, last, ?_, there, same, split⟩,
    stands.kept.outer rfl (List.prefix_refl _), stands.shown, stands.waiting⟩
  change (builder.blocks ++ _)[builder.current]? = _
  rw [List.getElem?_append_left inside, here]

theorem ended (stands : Stands function callers builder scopes world state)
    (running : builder.IsOpen) {terminator : Terminator} {span : Span}
    (embeds : function.Embeds (builder.terminate terminator span)) :
    state.frame.pending = [] ∧ state.frame.block.terminator.node = terminator := by
  obtain ⟨block, last, here, there, same, split⟩ := stands.place
  obtain ⟨other, found, free⟩ := running
  rw [here] at found
  obtain rfl := Option.some.inj found
  have closed : (builder.terminate terminator span).blocks[builder.current]? = some
      { block with terminator := some ⟨terminator, builder.scope.lines.location span.start⟩ } := by
    simp [Builder.terminate, here, free]
  obtain ⟨ending, present, closes⟩ := embeds.blocks _ _ closed
  rw [there] at present
  obtain rfl := Option.some.inj present
  rcases closes with ⟨absent, _⟩ | ⟨terminated, matching⟩
  · simp at absent
  · constructor
    · dsimp only at matching
      rw [← matching] at split
      exact List.self_eq_append_right.mp split
    · rw [same, ← Option.some.inj terminated]

def atStart (frame : Frame) (block : BasicBlock) : Frame :=
  { frame with block, pending := block.instructions, values := [] }

theorem enter (stands : Stands function callers builder scopes world state) {target : Builder}
    (embeds : function.Embeds target) (blank : target.IsBlank target.current)
    (kept : scopes.KeptIn target state.frame.locals) {effects : Effects}
    (shown : effects.Shows world) :
    ∃ block, state.frame.enter target.current = .ok (atStart state.frame block) ∧
      Stands function callers target scopes world
        { state with frame := atStart state.frame block, effects } := by
  obtain ⟨block, there, _⟩ := embeds.blocks _ _ blank
  refine ⟨block, ?_, ?_⟩
  · have found : state.frame.function.block? target.current = some block := by
      rw [stands.within]
      exact there
    simp only [Frame.enter, found]
    rfl
  · exact {
      within := stands.within
      room := stands.room
      place := ⟨_, block, blank, there, rfl, rfl⟩
      kept
      shown
      waiting := stands.waiting }

end Stands

theorem Effects.Shows.record {effects : Effects} {world : World} (shown : effects.Shows world)
    (frame : Frame) (location : Location) (action : Action) :
    (effects.record frame location action).Shows world :=
  ⟨shown.storage, shown.events, shown.calls⟩

theorem Running.step_of_ended {setting : Setting} {state : Running} {terminator : Terminator}
    (pending : state.frame.pending = []) (node : state.frame.block.terminator.node = terminator) :
    state.step setting = state.terminator state.frame.block.terminator.location terminator := by
  unfold step
  rw [pending, node]

namespace Stands

variable {function : Function} {callers : List Caller} {builder : Builder} {scopes : Scopes}
  {world : World} {state : Running} {setting : Setting}

theorem jump (stands : Stands function callers builder scopes world state)
    (running : builder.IsOpen) {target : Builder} {span : Span}
    (ends : function.Embeds (builder.terminate (.jump target.current) span))
    (embeds : function.Embeds target) (blank : target.IsBlank target.current)
    (kept : scopes.KeptIn target state.frame.locals) :
    ∃ next, state.Leads setting next ∧ Stands function callers target scopes world next := by
  obtain ⟨pending, node⟩ := stands.ended running ends
  obtain ⟨block, entered, arrived⟩ := stands.enter embeds blank kept stands.shown
  refine ⟨_, Running.leads_of_step fun depth => ?_, arrived⟩
  rw [Running.step_of_ended pending node]
  simp only [Running.terminator, entered, bind, Except.bind]
  rfl

theorem branch (stands : Stands function callers builder scopes world state)
    (running : builder.IsOpen) {id : ValueId} {truth : Nat} (holds : state.frame.Holds id truth)
    {thenBlock elseBlock : BlockId} {span : Span}
    (ends : function.Embeds (builder.terminate (.branch id thenBlock elseBlock) span))
    {target : Builder} (embeds : function.Embeds target) (blank : target.IsBlank target.current)
    (chosen : target.current = if truth != 0 then thenBlock else elseBlock)
    (kept : scopes.KeptIn target state.frame.locals) :
    ∃ next, state.Leads setting next ∧ Stands function callers target scopes world next := by
  obtain ⟨pending, node⟩ := stands.ended running ends
  obtain ⟨cell, got, same⟩ := holds.get
  let effects := state.effects.record state.frame state.frame.block.terminator.location
    (.branch (truth != 0))
  obtain ⟨block, entered, arrived⟩ := stands.enter embeds blank kept
    (stands.shown.record state.frame state.frame.block.terminator.location (.branch (truth != 0)))
  refine ⟨_, Running.leads_of_step fun depth => ?_, arrived⟩
  rw [Running.step_of_ended pending node]
  simp only [Running.terminator, got, same, bind, Except.bind]
  rw [← chosen, entered]
  rfl

theorem guard_passed (stands : Stands function callers builder scopes world state)
    (running : builder.IsOpen) {id : ValueId} {truth : Nat} (holds : state.frame.Holds id truth)
    (nonzero : (truth != 0) = true) {kind : GuardKind} {message : Option String} {span : Span}
    {target : Builder}
    (ends : function.Embeds (builder.terminate (.guard id kind message target.current) span))
    (embeds : function.Embeds target) (blank : target.IsBlank target.current)
    (kept : scopes.KeptIn target state.frame.locals) :
    ∃ next, state.Leads setting next ∧ Stands function callers target scopes world next := by
  obtain ⟨pending, node⟩ := stands.ended running ends
  obtain ⟨cell, got, same⟩ := holds.get
  obtain ⟨block, entered, arrived⟩ := stands.enter embeds blank kept
    (stands.shown.record state.frame state.frame.block.terminator.location (.guard kind true))
  refine ⟨_, Running.leads_of_step fun depth => ?_, arrived⟩
  rw [Running.step_of_ended pending node]
  simp only [Running.terminator, got, same, nonzero, bind, Except.bind, if_true]
  rw [entered]
  rfl

theorem guard_failed (stands : Stands function callers builder scopes world state)
    (running : builder.IsOpen) {id : ValueId} {truth : Nat} (holds : state.frame.Holds id truth)
    (zero : (truth != 0) = false) {kind : GuardKind} {message : Option String} {span : Span}
    {next : BlockId}
    (ends : function.Embeds (builder.terminate (.guard id kind message next) span)) :
    ∃ effects, state.EndsWith setting (.reverted message) effects := by
  obtain ⟨pending, node⟩ := stands.ended running ends
  obtain ⟨cell, got, same⟩ := holds.get
  let effects := state.effects.record state.frame state.frame.block.terminator.location
    (.guard kind false)
  have stepped : state.step (setting.withDepth 0) = .ok (.ended (.reverted message) effects) := by
    rw [Running.step_of_ended pending node]
    simp only [Running.terminator, got, same, zero, bind, Except.bind]
    rfl
  exact ⟨effects, Running.endsWith_of_step stepped⟩

theorem revert (stands : Stands function callers builder scopes world state)
    (running : builder.IsOpen) {message : Option String} {span : Span}
    (ends : function.Embeds (builder.terminate (.revert message) span)) :
    ∃ effects, state.EndsWith setting (.reverted message) effects := by
  obtain ⟨pending, node⟩ := stands.ended running ends
  let effects := state.effects.record state.frame state.frame.block.terminator.location .revert
  have stepped : state.step (setting.withDepth 0) = .ok (.ended (.reverted message) effects) := by
    rw [Running.step_of_ended pending node]
    rfl
  exact ⟨effects, Running.endsWith_of_step stepped⟩

theorem storeLocal (stands : Stands function callers builder scopes world state)
    (running : builder.IsOpen) {id : ValueId} {value : Nat} (holds : state.frame.Holds id value)
    {slot : LocalId} (span : Span) (final : Builder) {changed : Scopes}
    (blocks : final.blocks = (builder.emit (.storeLocal slot id) span).blocks)
    (current : final.current = builder.current) (embeds : function.Embeds final)
    (room : slot < function.locals.length)
    (kept : ∀ cell : Cell, cell.value = value →
      changed.KeptIn final (state.frame.locals.set slot cell)) :
    ∃ next, state.Leads setting next ∧ Stands function callers final changed world next := by
  obtain ⟨block, last, here, there, same, split⟩ := stands.place
  obtain ⟨other, found, free⟩ := running
  rw [here] at found
  obtain rfl := Option.some.inj found
  obtain ⟨cell, got, held⟩ := holds.get
  let located : Located Instruction :=
    ⟨.storeLocal slot id, builder.scope.lines.location span.start⟩
  have extended : final.blocks[final.current]? =
      some { block with instructions := block.instructions ++ [located] } := by
    rw [current, blocks]
    simp [Builder.emit, here, located]
  obtain ⟨ending, present, closes⟩ := embeds.blocks _ _ extended
  rw [current, there] at present
  obtain rfl := Option.some.inj present
  obtain ⟨more, rest⟩ : ∃ more, last.instructions = (block.instructions ++ [located]) ++ more := by
    rcases closes with ⟨_, more, rest⟩ | ⟨ended, _⟩
    · exact ⟨more, rest.symm⟩
    · simp only [free] at ended
      exact absurd ended (by simp)
  have pending : state.frame.pending = located :: more := by
    rw [split, List.append_assoc] at rest
    exact List.append_cancel_left rest
  let frame : Frame := { state.frame with pending := more }
  let effects := state.effects.record frame located.location
    (.setLocal (frame.function.locals[slot]?.elim "?" LocalVar.name) cell.value)
  refine ⟨{ state with frame := { frame with locals := frame.locals.set slot cell }, effects },
    Running.leads_of_step fun depth => ?_, ?_⟩
  · rw [Running.step_of_pending pending]
    have copied : frame.get? id = .ok cell := got
    have inside : slot < frame.locals.length := Nat.lt_of_lt_of_le room stands.room
    simp only [Running.instruction, located]
    change (frame.get? id >>= _) = _
    rw [copied]
    simp only [bind, Except.bind]
    rw [if_pos inside]
    dsimp only [effects, frame]
    cases state.frame.function.locals[slot]? <;> rfl
  · exact {
      within := stands.within
      room := by
        change _ ≤ (state.frame.locals.set slot cell).length
        rw [List.length_set]
        exact stands.room
      place := ⟨_, last, extended, by rw [current, there], same, rest⟩
      kept := kept cell held
      shown := stands.shown.record _ _ _
      waiting := stands.waiting }

theorem ret_none (stands : Stands function callers builder scopes world state)
    (running : builder.IsOpen) {span : Span}
    (ends : function.Embeds (builder.terminate (.ret none) span)) :
    state.Returns setting callers none world := by
  obtain ⟨pending, node⟩ := stands.ended running ends
  refine ⟨none, _, fun depth => ?_, stands.waiting, rfl,
    stands.shown.record state.frame state.frame.block.terminator.location (.ret none)⟩
  rw [Running.step_of_ended pending node]
  rfl

theorem ret_some (stands : Stands function callers builder scopes world state)
    (running : builder.IsOpen) {id : ValueId} {value : Nat} (holds : state.frame.Holds id value)
    {span : Span} (ends : function.Embeds (builder.terminate (.ret (some id)) span)) :
    state.Returns setting callers (some value) world := by
  obtain ⟨pending, node⟩ := stands.ended running ends
  obtain ⟨cell, got, same⟩ := holds.get
  refine ⟨some cell, _, fun depth => ?_, stands.waiting, by rw [← same]; rfl,
    stands.shown.record state.frame state.frame.block.terminator.location (.ret (some value))⟩
  rw [Running.step_of_ended pending node]
  simp only [Running.terminator, got, same, bind, Except.bind]
  rfl

end Stands

end Covenant
