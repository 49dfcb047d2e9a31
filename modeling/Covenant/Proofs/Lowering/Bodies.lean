import Covenant.Proofs.Lowering.Blocks
import Covenant.Proofs.Lowering.Names

/-!
The body of a function does what it means, from the frame that a call starts with to the return.
Arguments are kept in the first local variables.
-/

namespace Covenant

theorem callsFollow_none (setting : Setting) (scope : ContractScope) :
    CallsFollow setting 0 scope fun _ _ => Meaning.noAnswer :=
  fun state _ _ _ _ _ _ _ _ _ _ _ _ _ => Running.outlasts_zero state

/-! Parameters. -/

structure Builder.KeepsCode (builder final : Builder) : Prop where
  scope : final.scope = builder.scope
  returns : final.returns = builder.returns
  events : final.events = builder.events
  blocks : final.blocks = builder.blocks
  current : final.current = builder.current

namespace Build

theorem params_keepsCode {decls : List Param} {builder final : Builder}
    {result : List (String × Ty)} (built : params decls builder = .ok result final) :
    builder.KeepsCode final := by
  induction decls generalizing builder result with
  | nil =>
    simp only [params, pure_eq_ok] at built
    obtain ⟨_, rfl⟩ := built
    exact ⟨rfl, rfl, rfl, rfl, rfl⟩
  | cons param rest ih =>
    simp only [params, ite_eq_ok, fail_eq_ok, and_false, false_or, bind_eq_ok, get_eq_ok,
      declare_eq_ok, pure_eq_ok] at built
    obtain ⟨_, _, _, ⟨rfl, rfl⟩, _, _, _, ⟨_, _, rfl⟩, _, _, later, _, rfl⟩ := built
    have kept := ih later
    exact ⟨kept.scope, kept.returns, kept.events, kept.blocks, kept.current⟩

theorem params_length {decls : List Param} {builder final : Builder} {result : List (String × Ty)}
    (built : params decls builder = .ok result final) :
    final.locals.length = builder.locals.length + decls.length := by
  induction decls generalizing builder result with
  | nil =>
    simp only [params, pure_eq_ok] at built
    obtain ⟨_, rfl⟩ := built
    rfl
  | cons param rest ih =>
    simp only [params, ite_eq_ok, fail_eq_ok, and_false, false_or, bind_eq_ok, get_eq_ok,
      declare_eq_ok, pure_eq_ok] at built
    obtain ⟨_, _, _, ⟨rfl, rfl⟩, _, _, _, ⟨_, _, rfl⟩, _, _, later, _, rfl⟩ := built
    rw [ih later]
    simp only [Builder.addLocal, List.length_append, List.length_cons, List.length_nil]
    omega

/-- Arguments are kept in the local variables that follow those declared before. -/
theorem params_kept {decls : List Param} {builder final : Builder} {result : List (String × Ty)}
    (built : params decls builder = .ok result final) {scopes : Scopes} {cells : List Cell}
    (kept : scopes.KeptIn builder cells) {given : List Nat} (count : given.length = decls.length)
    (holds : ∀ (index : Nat) (value : Nat), given[index]? = some value →
      ∃ cell, cells[builder.locals.length + index]? = some cell ∧ cell.value = value) :
    Scopes.KeptIn ((decls.zip given).foldl (fun scopes (param, arg) =>
      scopes.declare param.name.name ⟨Ty.ofExpr param.ty, arg⟩) scopes) final cells := by
  induction decls generalizing builder result scopes given with
  | nil =>
    simp only [params, pure_eq_ok] at built
    obtain ⟨_, rfl⟩ := built
    simpa using kept
  | cons param rest ih =>
    simp only [params, ite_eq_ok, fail_eq_ok, and_false, false_or, bind_eq_ok, get_eq_ok,
      declare_eq_ok, pure_eq_ok] at built
    obtain ⟨_, _, _, ⟨rfl, rfl⟩, _, _, _, ⟨_, _, rfl⟩, _, _, later, _, rfl⟩ := built
    cases given with
    | nil => simp at count
    | cons arg args =>
      obtain ⟨cell, here, same⟩ := holds 0 arg rfl
      rw [Nat.add_zero] at here
      obtain ⟨room, held⟩ := List.getElem?_eq_some_iff.mp here
      have unchanged : cells.set builder.locals.length cell = cells := by
        rw [← held]
        exact List.set_getElem_self room
      have declared := kept.declare param.name.name (Ty.ofExpr param.ty) cell room
      rw [unchanged, same] at declared
      refine ih later declared (by simpa using count) fun index value found => ?_
      obtain ⟨other, there, equal⟩ := holds (index + 1) value (by simpa using found)
      refine ⟨other, ?_, equal⟩
      have length : (builder.addLocal param.name.name (Ty.ofExpr param.ty)).locals.length =
          builder.locals.length + 1 := by simp [Builder.addLocal]
      rw [length, Nat.add_assoc, Nat.add_comm 1 index]
      exact there

end Build

/-! Finished functions. -/

theorem Build.getElem?_closeBlocks (location : Location) (blocks : List OpenBlock) (id : Nat) :
    (Build.closeBlocks location blocks)[id]? = blocks[id]?.map fun block =>
      { id, instructions := block.instructions, terminator :=
        block.terminator.getD ⟨.ret none, location⟩ } := by
  simp only [Build.closeBlocks, List.getElem?_map, List.getElem?_zipIdx, Option.map_map]
  cases blocks[id]? <;> simp

theorem Function.embeds_of_closeBlocks {function : Function} {builder : Builder}
    {location : Location} (locals : function.locals = builder.locals)
    (blocks : function.blocks = Build.closeBlocks location builder.blocks) :
    function.Embeds builder where
  locals := by simp only [locals, List.prefix_refl]
  blocks := by
    intro id block found
    refine ⟨_, by rw [blocks, Build.getElem?_closeBlocks, found]; rfl, ?_⟩
    cases ended : block.terminator with
    | none => exact .inl ⟨ended, List.prefix_refl _⟩
    | some terminator => exact .inr ⟨by simp [ended], rfl⟩

namespace Link

variable {link : Link} {header : Header} {body : Block} {known : EventScope} {function : Function}
  {final : Builder}

structure Built (link : Link) (header : Header) (body : Block) (known : EventScope)
    (function : Function) (entered ended : Builder) (span : Span) : Prop where
  kept : (Builder.start link.scope header.name (header.returns.map Ty.ofExpr) known).KeepsCode
    entered
  read : Build.params header.params
    (Builder.start link.scope header.name (header.returns.map Ty.ofExpr) known) =
    .ok (header.params.map fun param => (param.name.name, Ty.ofExpr param.ty)) entered
  inside : Build.block body entered = .ok () ended
  embeds : function.Embeds (ended.terminate (.ret none) span)
  entry : function.entry = 0
  params : function.params = header.params.map fun param => (param.name.name, Ty.ofExpr param.ty)

theorem built_of_function (link : Link)
    (made : Build.function header body
      (Builder.start link.scope header.name (header.returns.map Ty.ofExpr) known) =
        .ok function final) :
    ∃ entered ended span, Built link header body known function entered ended span ∧
      final.events = ended.events := by
  obtain ⟨entered, ended, read, inside, rfl, rfl⟩ := Build.function_eq_ok made
  exact ⟨entered, ended, _,
    ⟨Build.params_keepsCode read, read, inside, Function.embeds_of_closeBlocks rfl rfl, rfl, rfl⟩,
    rfl⟩

namespace Built

variable {entered ended : Builder} {span : Span}

theorem blank (built : Built link header body known function entered ended span) :
    entered.IsBlank 0 := by
  unfold Builder.IsBlank
  rw [built.kept.blocks]
  rfl

theorem running (built : Built link header body known function entered ended span) :
    entered.IsOpen := by
  refine ⟨⟨[], none⟩, ?_, rfl⟩
  rw [built.kept.current]
  exact built.blank

theorem grows (built : Built link header body known function entered ended span) :
    Builder.Grows entered.blocks.length entered ended :=
  (compiles_block link function (header.returns.map Ty.ofExpr) body).grows built.kept.scope
    built.running built.inside

theorem start (built : Built link header body known function entered ended span) :
    ∃ block, function.block? function.entry = some block := by
  obtain ⟨block, found, _⟩ := (built.grows.embeds built.embeds.of_terminate).blocks 0 _ built.blank
  refine ⟨block, ?_⟩
  rw [built.entry]
  exact found

/-- The body of a function does what it means. -/
theorem follows (built : Built link header body known function entered ended span)
    (knows : link.KnowsEvents ended) {cells : List Cell}
    (count : cells.length = header.params.length) {frame : Frame}
    (framed : function.frame cells = .ok frame) {effects : Effects} {world : World}
    (shown : effects.Shows world) (callers : List Caller) :
    Follows link.setting link.fuel ⟨frame, callers, effects⟩ world
      (link.around.routine link.call link.fuel ⟨header.params, header.returns, body⟩
        (cells.map Cell.value))
      fun result changed next => next.Returns link.setting callers result changed := by
  obtain ⟨block, found⟩ := built.start
  simp only [Function.frame, found, Except.ok.injEq] at framed
  subst framed
  have placed : function.blocks[entered.current]? = some block := by
    rw [built.kept.current]
    rw [built.entry] at found
    exact found
  have many : cells.length ≤ function.locals.length := by
    have fits := (built.grows.locals.trans built.embeds.locals).length_le
    have start :
        (Builder.start link.scope header.name (header.returns.map Ty.ofExpr) known).locals.length =
          0 := rfl
    rw [Build.params_length built.read, start] at fits
    omega
  have stands : Stands function callers entered
    (Surroundings.parameters header.params (cells.map Cell.value)) world
      ⟨{ function, block, pending := block.instructions, values := [],
         locals := cells.take function.locals.length ++
           List.replicate (function.locals.length - cells.length) (.clean 0) }, callers,
             effects⟩ := {
    within := rfl
    room := by
      simp only [List.length_append, List.length_take, List.length_replicate]
      omega
    place := ⟨⟨[], none⟩, block, by rw [built.kept.current]; exact built.blank, placed, rfl, rfl⟩
    kept := by
      refine Build.params_kept built.read ⟨.cons .nil .nil, List.nodup_nil⟩
        (by simpa using count) ?_
      intro index value given
      rw [List.getElem?_map, Option.map_eq_some_iff] at given
      obtain ⟨cell, there, same⟩ := given
      have inside := (List.getElem?_eq_some_iff.mp there).1
      refine ⟨cell, ?_, same⟩
      have start :
          (Builder.start link.scope header.name
            (header.returns.map Ty.ofExpr) known).locals.length = 0 := rfl
      rw [start, Nat.zero_add, List.getElem?_append_left (by rw [List.length_take]; omega),
        List.getElem?_take_of_lt (by omega), there]
    shown
    waiting := rfl }
  have compiled := (compiles_block link function (header.returns.map Ty.ofExpr) body).follows
    built.kept.scope built.kept.returns built.running built.inside built.embeds.of_terminate
    knows stands
  refine compiled.bind ?_
  rintro ⟨flow, scopes⟩ changed next outcome
  cases flow with
  | returned result => exact .give outcome
  | next =>
    obtain ⟨endedOpen, there⟩ := outcome
    exact .give (there.ret_none endedOpen built.embeds)

end Built

end Link

end Covenant
