import Covenant.Proofs.Lowering.Events
import Covenant.Proofs.Lowering.Preservation
import Covenant.Proofs.Lowering.Typing

/-!
All code of a lowered contract has types: statements keep the types of values and leave no block
without an end but the one that they stop in, so a function has an end for every block, and returns
a value wherever it declares one.
-/

namespace Covenant

namespace Build

open Builder

def KeepsTypes (step : Build Unit) : Prop :=
  ∀ ⦃builder final : Builder⦄ ⦃types : List Ty⦄, builder.Typed types → step builder = .ok () final →
    ∃ more, builder.Builds types final more

theorem typed_typed {source : Expression} {ty : Ty} {builder final : Builder} {types : List Ty}
    {id : ValueId} (known : builder.Typed types) (built : typed source ty builder = .ok id final) :
    ∃ more, builder.Adds types final more ∧ final.Has more id ty :=
  typed_expression source (some ty) known (withType_eq_ok.mp built)

inductive SlotTyped (builder : Builder) (types : List Ty) : Slot → Ty → Prop
  | slot {index entry} : builder.locals[index]? = some entry →
      SlotTyped builder types (.slot index) entry.ty
  | field {name key ty} : builder.scope.field? name = some ty → ty.KeyedBy types key →
      (∀ id ∈ key.toList, builder.Held id) → SlotTyped builder types (.field name key) ty.content

section Slots

variable {builder final : Builder} {types more : List Ty} {slot : Slot} {ty : Ty}

theorem SlotTyped.adds (fits : SlotTyped builder types slot ty)
    (adds : builder.Adds types final more) :
    SlotTyped final more slot ty := by
  cases fits with
  | slot found => exact .slot (getElem?_of_longer adds.locals found)
  | field found key held =>
    exact .field (adds.scope ▸ found) (key.mono adds.types) fun id used =>
      adds.held id (held id used)

theorem SlotTyped.load (fits : SlotTyped builder types slot ty) (known : builder.Typed types)
    (span : Span) :
    builder.Adds types
      ({ builder with nextValue := builder.nextValue + 1 }.emit (slot.load builder.nextValue) span)
        (types ++ [ty]) ∧
      ({ builder with nextValue := builder.nextValue + 1 }.emit
        (slot.load builder.nextValue) span).Has (types ++ [ty])
        builder.nextValue ty := by
  cases fits with
  | slot found =>
    exact known.define span rfl (.loadLocal found (known.newest _))
      (by simp [Slot.load, Instruction.operands])
  | field found key held =>
    exact known.define span rfl
      (.loadField found (key.mono (List.prefix_append _ _)) (known.newest _)) held

theorem SlotTyped.store (fits : SlotTyped builder types slot ty) (known : builder.Typed types)
    {value : ValueId} (has : builder.Has types value ty) (span : Span) :
    builder.Adds types (builder.emit (slot.store value) span) types := by
  cases fits with
  | slot found =>
    exact known.perform span rfl (.storeLocal found has.1)
      (by simpa [Slot.store, Instruction.operands] using has.2)
  | field found key held =>
    refine known.perform span rfl (.storeField found key has.1) ?_
    intro id used
    rcases List.mem_append.mp used with index | last
    · exact held id index
    · rw [List.mem_singleton.mp last]
      exact has.2

theorem typed_slotOf {written : Place} {result : Slot × Ty} (known : builder.Typed types)
    (built : slotOf written builder = .ok result final) :
    ∃ more, builder.Adds types final more ∧ SlotTyped final more result.1 result.2 := by
  cases written with
  | slot name =>
    simp only [slotOf, bind_eq_ok, localNamed_eq_ok, get_eq_ok, pure_eq_ok] at built
    obtain ⟨slot, _, ⟨found, rfl⟩, _, _, ⟨rfl, rfl⟩, rfl, rfl⟩ := built
    obtain ⟨entry, declared, same⟩ := known.localType found
    refine ⟨types, known.adds, ?_⟩
    dsimp only
    rw [same]
    exact .slot declared
  | field field =>
    simp only [slotOf, bind_eq_ok, scalarType_eq_ok, pure_eq_ok] at built
    obtain ⟨ty, _, ⟨found, scalar, rfl⟩, rfl, rfl⟩ := built
    have content : ty.content = ty := by cases ty <;> first | rfl | simp [Ty.isMap] at scalar
    have fits : SlotTyped builder types (.field field.name none) ty.content :=
      .field found (.scalar scalar) (by simp)
    rw [content] at fits
    exact ⟨types, known.adds, fits⟩
  | mapEntry field key =>
    simp only [slotOf, bind_eq_ok, entryTypes_eq_ok, pure_eq_ok] at built
    obtain ⟨⟨keyTy, valueTy⟩, _, ⟨found, rfl⟩, id, middle, lowered, rfl, rfl⟩ := built
    obtain ⟨more, adds, has⟩ := typed_typed known lowered
    rw [← adds.scope] at found
    exact ⟨more, adds, .field found (.entry has.1) (by simpa using has.2)⟩

end Slots

theorem keepsTypes_assignment (target : Place) (op : AssignOp) (value : Expression) (span : Span) :
    KeepsTypes (assignment target op value span) := by
  intro builder final types known built
  simp only [assignment, bind_eq_ok] at built
  obtain ⟨⟨slot, ty⟩, middle, aimed, built⟩ := built
  obtain ⟨more, adds, fits⟩ := typed_slotOf known aimed
  cases operator : op.binaryOp? with
  | none =>
    simp only [operator, bind_eq_ok, emit_eq_ok] at built
    obtain ⟨result, last, lowered, rfl⟩ := built
    obtain ⟨most, further, has⟩ := typed_typed adds.typed lowered
    exact ⟨most,
      ((adds.trans further).trans ((fits.adds further).store further.typed has span)).builds⟩
  | some arithmetic =>
    simp only [operator, ite_eq_ok, fail_eq_ok, and_false, or_false, bind_eq_ok, fresh_eq_ok,
      emit_eq_ok] at built
    obtain ⟨integer, _, _, ⟨rfl, rfl⟩, _, _, rfl, operand, last, lowered, _, _, ⟨rfl, rfl⟩, _, _,
      rfl, rfl⟩ := built
    obtain ⟨width, rfl⟩ : ∃ width, ty = .uint width := by
      cases ty with
      | uint width => exact ⟨width, rfl⟩
      | _ => simp [Ty.isInteger] at integer
    have operates : arithmetic.isArithmetic = true := by
      cases op <;> simp only [AssignOp.binaryOp?, Option.some.injEq,
        reduceCtorEq] at operator <;> subst operator <;>
        rfl
    obtain ⟨loads, before⟩ := fits.load adds.typed span
    obtain ⟨most, further, has⟩ := typed_typed loads.typed lowered
    obtain ⟨whole, computes, result⟩ := typed_operation (before.adds further) has
      (.inl ⟨operates, width, rfl, rfl⟩) span further.typed.adds
    have aims := ((fits.adds loads).adds further).adds computes
    exact ⟨whole, ((((adds.trans loads).trans further).trans computes).trans
      (aims.store computes.typed result span)).builds⟩

theorem keepsTypes_declaration (name : Ident) (ty : Option TypeExpr) (value : Expression)
    (span : Span) :
    KeepsTypes (declaration name ty value span) := by
  intro builder final types known built
  have finish {result : ValueId} {valueTy : Ty} {middle : Builder} {more : List Ty}
      (adds : builder.Adds types middle more) (has : middle.Has more result valueTy)
      (declared : (do
        let slot ← declare name valueTy
        emit (.storeLocal slot result) span) middle = .ok () final) :
        ∃ most, builder.Builds types final most := by
    simp only [bind_eq_ok, declare_eq_ok, emit_eq_ok] at declared
    obtain ⟨slot, _, ⟨_, rfl, rfl⟩, rfl⟩ := declared
    have declares := adds.typed.addLocal name.name valueTy
    have there : (middle.addLocal name.name valueTy).locals[middle.locals.length]? =
        some ⟨name.name, valueTy⟩ := by
      simp [Builder.addLocal]
    have stores := SlotTyped.store (.slot there) declares.typed (has.adds declares) span
    exact ⟨more, ((adds.trans declares).trans stores).builds⟩
  cases ty with
  | none =>
    simp only [declaration] at built
    obtain ⟨⟨result, valueTy⟩, middle, lowered, built⟩ := bind_eq_ok.mp built
    obtain ⟨more, adds, has⟩ := typed_expression value none known lowered
    exact finish adds has built
  | some written =>
    simp only [declaration, ite_eq_ok] at built
    rcases built with ⟨_, built⟩ | ⟨_, built⟩
    · simp [bind_eq_ok, fail_eq_ok] at built
    · obtain ⟨id, middle, lowered, built⟩ := bind_eq_ok.mp built
      obtain ⟨more, adds, has⟩ := typed_typed known lowered
      exact finish adds has built

theorem builds_terminate {builder : Builder} {types : List Ty} (known : builder.Typed types)
    {terminator : Terminator} (span : Span) (fits : terminator.Typed builder.returns types)
    (successors : ∀ target ∈ terminator.successors, target < builder.blocks.length)
    (reads : ∀ value : ValueId, terminator.operand? = some value → builder.Held value) :
    builder.Builds types (builder.terminate terminator span) types := by
  refine ⟨known.terminate span fits successors reads, fun id free => ?_⟩
  obtain ⟨before, apart⟩ := openAt_terminate.mp free
  exact .inr ⟨apart, before⟩

theorem keepsTypes_revert (message : Option String) (span : Span) :
    KeepsTypes (terminate (.revert message) span) := by
  intro builder final types known built
  obtain rfl := terminate_eq_ok.mp built
  exact ⟨types, builds_terminate known span (.revert message) (by simp [Terminator.successors])
    (by simp [Terminator.operand?])⟩

theorem keepsTypes_returnStatement (value : Option Expression) (span : Span) :
    KeepsTypes (returnStatement value span) := by
  intro builder final types known built
  simp only [returnStatement, bind_eq_ok, get_eq_ok] at built
  obtain ⟨_, _, ⟨rfl, rfl⟩, built⟩ := built
  cases value with
  | none =>
    cases returns : builder.returns with
    | none =>
      simp only [returns, terminate_eq_ok] at built
      subst built
      exact ⟨types, builds_terminate known span (.retNothing returns)
        (by simp [Terminator.successors]) (by simp [Terminator.operand?])⟩
    | some ty => simp [returns, fail_eq_ok] at built
  | some value =>
    cases returns : builder.returns with
    | none => simp [returns, fail_eq_ok] at built
    | some ty =>
      simp only [returns, bind_eq_ok, terminate_eq_ok] at built
      obtain ⟨result, middle, lowered, rfl⟩ := built
      obtain ⟨more, adds, has⟩ := typed_typed known lowered
      exact ⟨more, adds.builds.trans
        (builds_terminate adds.typed span (.retValue (adds.returns.trans returns) has.1)
          (by simp [Terminator.successors]) (by simpa [Terminator.operand?] using has.2))⟩

theorem keepsTypes_guardStatement (condition : Expression) (kind : GuardKind)
    (message : Option String) (span : Span) :
    KeepsTypes (guardStatement condition kind message span) := by
  intro builder final types known built
  simp only [guardStatement, bind_eq_ok, newBlock_eq_ok, terminate_eq_ok, switchTo_eq_ok] at built
  obtain ⟨value, middle, lowered, _, _, ⟨rfl, rfl⟩, _, _, rfl, rfl⟩ := built
  obtain ⟨more, adds, has⟩ := typed_typed known lowered
  have grows := adds.typed.withBlock
  have guards : (Terminator.guard value kind message middle.blocks.length).Typed
      middle.withBlock.returns more :=
    .guard has.1
  have ends := grows.typed.terminate span guards (by simp [Terminator.successors])
    (by simpa [Terminator.operand?] using has.withBlock.2)
  have inside : middle.blocks.length <
    (middle.withBlock.terminate (.guard value kind message middle.blocks.length)
      span).blocks.length := by simp
  have moves := ends.typed.moveTo inside
  refine ⟨more, ((adds.toRetypes.trans grows).trans ends).trans moves, fun id free => ?_⟩
  obtain ⟨before, apart⟩ := openAt_terminate.mp free
  rcases openAt_withBlock.mp before with earlier | new
  · exact .inr ⟨adds.current ▸ apart, adds.open? id earlier⟩
  · exact .inl new

theorem typed_implied :
    ∀ (args : List Expression) {builder final : Builder} {types : List Ty}
      {results : List (ValueId × Ty)},
      builder.Typed types → args.mapM (fun arg => expression arg none) builder = .ok results final →
        ∃ more, builder.Adds types final more ∧
          List.Forall₂ (final.Has more) (results.map Prod.fst) (results.map Prod.snd)
  | [], builder, final, types, results, known, built => by
    simp only [List.mapM_nil, pure_eq_ok] at built
    obtain ⟨rfl, rfl⟩ := built
    exact ⟨types, known.adds, .nil⟩
  | arg :: args, builder, final, types, results, known, built => by
    simp only [List.mapM_cons, bind_eq_ok, pure_eq_ok] at built
    obtain ⟨first, middle, lowered, rest, _, others, rfl, rfl⟩ := built
    obtain ⟨more, adds, has⟩ := typed_expression arg none known lowered
    obtain ⟨most, further, later⟩ := typed_implied args adds.typed others
    exact ⟨most, adds.trans further, .cons (has.adds further) later⟩

theorem keepsTypes_emission (event : Ident) (args : List Expression) (span : Span) :
    KeepsTypes (emission event args span) := by
  intro builder final types known built
  simp only [emission, bind_eq_ok, get_eq_ok] at built
  obtain ⟨_, _, ⟨rfl, rfl⟩, built⟩ := built
  cases declared : builder.events.types? event.name with
  | some shape =>
    simp only [declared, ite_eq_ok, fail_eq_ok, and_false, false_or, bind_eq_ok,
      emit_eq_ok] at built
    obtain ⟨arity, values, middle, lowered, rfl⟩ := built
    have count : shape.length = args.length := by simpa using arity
    obtain ⟨more, adds, given⟩ := typed_arguments args shape known count.symm lowered
    have reports : Instruction.Typed middle.declared middle.locals more (.emit event.name values) :=
      .emit (adds.declared.event? _ _ declared) (given.imp fun _ _ has => has.1)
    exact ⟨more, (adds.trans (adds.typed.perform span rfl reports (held_of_forall₂ given))).builds⟩
  | none =>
    simp only [declared, bind_eq_ok, modify_eq_ok, emit_eq_ok] at built
    obtain ⟨results, middle, lowered, _, _, rfl, rfl⟩ := built
    obtain ⟨more, adds, given⟩ := typed_implied args known lowered
    have unknown : middle.events.types? event.name = none := by rw [adds.known, declared]
    have implies := adds.typed.imply unknown (results.map Prod.snd)
    -- What the event reports does not change when the event becomes known.
    let implied : Builder :=
      { middle with events := middle.events.imply event.name (results.map Prod.snd) }
    have shape : implied.declared.event? event.name = some (results.map Prod.snd) := by
      change (middle.events.imply event.name (results.map Prod.snd)).types? event.name = _
      rw [EventScope.types?_imply, beq_self_eq_true, if_pos rfl]
    have reports : Instruction.Typed implied.declared implied.locals more
        (.emit event.name (results.map Prod.fst)) :=
      .emit shape (given.imp fun _ _ has => has.1)
    exact ⟨more, (adds.builds.trans implies).trans
      (implies.typed.perform span rfl reports (held_of_forall₂ given)).builds⟩

theorem keepsTypes_callStatement (source : Expression) : KeepsTypes (callStatement source) := by
  intro builder final types known built
  cases source with
  | selfCall span function args =>
    simp only [callStatement, bind_eq_ok, pure_eq_ok] at built
    obtain ⟨called, middle, lowered, _, rfl⟩ := built
    obtain ⟨more, adds, _⟩ := typed_selfCall
      (fun expected ids middle count lowered => typed_arguments args expected known count lowered)
      lowered
    exact ⟨more, adds.builds⟩
  | externalCall span kind target amount =>
    simp only [callStatement, bind_eq_ok, pure_eq_ok] at built
    obtain ⟨_, _, lowered, _, rfl⟩ := built
    obtain ⟨more, adds, _⟩ := typed_externalCall (fun lowered => typed_typed known lowered)
      (fun later lowered => typed_typed later lowered) lowered
    exact ⟨more, adds.builds⟩
  | _ => simp [callStatement, fail_eq_ok] at built

theorem keepsTypes_inBlock {body : Build Unit} (keeps : KeepsTypes body) :
    KeepsTypes (inBlock body) := by
  intro builder final types known built
  simp only [inBlock, bind_eq_ok, modify_eq_ok] at built
  obtain ⟨_, _, rfl, _, last, inner, rfl⟩ := built
  have opened : Builder.Typed { builder with visible := [] :: builder.visible } types := by
    refine ⟨known.values, known.blocks, known.once, ?_, known.current⟩
    intro names listed named member
    rcases List.mem_cons.mp listed with rfl | outer
    · simp at member
    · exact known.visible names outer named member
  obtain ⟨more, builds⟩ := keeps opened inner
  refine ⟨more,
    ⟨⟨builds.typed.values, builds.typed.blocks, builds.typed.once, ?_, builds.typed.current⟩,
      builds.types, builds.locals, builds.scope, builds.returns, builds.events, builds.room⟩,
      builds.open?⟩
  intro names listed
  exact builds.typed.visible names (List.mem_of_mem_tail listed)

theorem keepsTypes_bind {first rest : Build Unit} (before : KeepsTypes first)
    (behind : KeepsTypes rest) :
    KeepsTypes (do first; rest) := by
  intro builder final types known built
  obtain ⟨_, middle, one, two⟩ := bind_eq_ok.mp built
  obtain ⟨more, builds⟩ := before known one
  obtain ⟨most, further⟩ := behind builds.typed two
  exact ⟨most, builds.trans further⟩

theorem keepsTypes_continueDead : KeepsTypes continueDead := by
  intro builder final types known built
  simp only [continueDead, bind_eq_ok, get_eq_ok, ite_eq_ok, newBlock_eq_ok, switchTo_eq_ok,
    pure_eq_ok] at built
  obtain ⟨_, _, ⟨rfl, rfl⟩, ⟨ended, _, _, ⟨rfl, rfl⟩, rfl⟩ | ⟨_, _, rfl⟩⟩ := built
  · have grows := known.withBlock
    refine ⟨types, grows.trans (grows.typed.moveTo (by simp)), fun id free => ?_⟩
    rcases openAt_withBlock.mp free with before | new
    · refine .inr ⟨?_, before⟩
      rintro rfl
      obtain ⟨block, found, running⟩ := before
      simp [Builder.isEnded, found, running] at ended
    · exact .inl new
  · exact ⟨types, known.adds.builds⟩

theorem typed_region {builder middle : Builder} {types : List Ty} {body : Build Unit}
    {target : BlockId} (join : BlockId) (span : Span) (known : builder.Typed types)
    (keeps : KeepsTypes body) (inside : target < builder.blocks.length)
    (joins : join < builder.blocks.length) (built : body (builder.moveTo target) = .ok () middle) :
    ∃ more, builder.Retypes types (middle.terminate (.jump join) span) more ∧
      ∀ id, (middle.terminate (.jump join) span).OpenAt id → id ≠ target ∧ builder.OpenAt id := by
  have moves := known.moveTo inside
  obtain ⟨more, builds⟩ := keeps moves.typed built
  have room : join < middle.blocks.length := Nat.lt_of_lt_of_le joins builds.room
  have ends := builds.typed.terminate span (.jump join)
    (by simpa [Terminator.successors] using room) (by simp [Terminator.operand?])
  refine ⟨more, (moves.trans builds.toRetypes).trans ends, fun id free => ?_⟩
  obtain ⟨before, apart⟩ := openAt_terminate.mp free
  exact (builds.open? id before).resolve_left apart

theorem successors_branch_lt {value : ValueId} {thenId elseId : BlockId} {count : Nat}
    (first : thenId < count) (second : elseId < count) :
    ∀ target ∈ (Terminator.branch value thenId elseId).successors, target < count := by
  intro target leads
  rcases List.mem_cons.mp leads with rfl | last
  · exact first
  · exact List.mem_singleton.mp last ▸ second

/-- The two blocks that a condition adds apart, only those are open that were open before. -/
theorem old_of_openAt {builder middle : Builder} {types more : List Ty}
    (adds : builder.Adds types middle more) {id : BlockId}
    (free : middle.withBlock.withBlock.OpenAt id) (apart : id ≠ middle.current) :
    id = middle.withBlock.blocks.length ∨ id = middle.blocks.length ∨
      id ≠ builder.current ∧ builder.OpenAt id := by
  rcases openAt_withBlock.mp free with old | join
  · rcases openAt_withBlock.mp old with first | new
    · exact .inr (.inr ⟨adds.current ▸ apart, adds.open? id first⟩)
    · exact .inr (.inl new)
  · exact .inl join

theorem typed_branch {builder : Builder} {types : List Ty} {value : ValueId}
    {thenId elseId : BlockId} (span : Span) (known : builder.Typed types)
    (has : builder.Has types value .bool) (first : thenId < builder.blocks.length)
    (second : elseId < builder.blocks.length) :
    builder.Retypes types (builder.terminate (.branch value thenId elseId) span) types :=
  known.terminate span (.branch has.1) (successors_branch_lt first second)
    (by simpa [Terminator.operand?] using has.2)

theorem keepsTypes_conditional (condition : Expression) (thenSpan : Span)
    {thenBody : Build Unit} (thenKeeps : KeepsTypes thenBody) :
    KeepsTypes (conditional condition thenSpan thenBody none) := by
  intro builder final types known built
  simp only [conditional, bind_eq_ok, newBlock_eq_ok, terminate_eq_ok, switchTo_eq_ok] at built
  obtain ⟨value, middle, lowered, _, _, ⟨rfl, rfl⟩, _, _, ⟨rfl, rfl⟩, _, _, rfl, _, _, rfl, _,
    last, inner, _, _, rfl, rfl⟩ := built
  obtain ⟨more, adds, has⟩ := typed_typed known lowered
  have thenBlock := adds.typed.withBlock
  have joinBlock := thenBlock.typed.withBlock
  have joins : middle.withBlock.blocks.length < middle.withBlock.withBlock.blocks.length := by simp
  have thens : middle.blocks.length < middle.withBlock.withBlock.blocks.length :=
    Nat.lt_of_lt_of_le (by simp) joinBlock.room
  have ends := typed_branch condition.span joinBlock.typed has.withBlock.withBlock thens joins
  obtain ⟨most, region, open?⟩ := typed_region middle.withBlock.blocks.length thenSpan ends.typed
    thenKeeps (Nat.lt_of_lt_of_le thens ends.room) (Nat.lt_of_lt_of_le joins ends.room) inner
  have inside := Nat.lt_of_lt_of_le joins (ends.trans region).room
  have both := (adds.toRetypes.trans thenBlock).trans joinBlock
  refine ⟨most, ((both.trans ends).trans region).trans (region.typed.moveTo inside),
    fun id free => ?_⟩
  obtain ⟨notThen, before⟩ := open? id free
  obtain ⟨earlier, apart⟩ := openAt_terminate.mp before
  rcases old_of_openAt adds earlier apart with join | new | old
  · exact .inl join
  · exact absurd new notThen
  · exact .inr old

theorem keepsTypes_conditional_else (condition : Expression) (thenSpan elseSpan : Span)
    {thenBody elseBody : Build Unit} (thenKeeps : KeepsTypes thenBody)
    (elseKeeps : KeepsTypes elseBody) :
    KeepsTypes (conditional condition thenSpan thenBody (some (elseSpan, elseBody))) := by
  intro builder final types known built
  simp only [conditional, bind_eq_ok, newBlock_eq_ok, terminate_eq_ok, switchTo_eq_ok] at built
  obtain ⟨value, middle, lowered, _, _, ⟨rfl, rfl⟩, _, _, ⟨rfl, rfl⟩, _, _, ⟨rfl, rfl⟩, _, _, rfl,
    _, _, rfl, _, last, first, _, _, rfl, _, _, rfl, _, other, second, _, _, rfl, rfl⟩ := built
  obtain ⟨more, adds, has⟩ := typed_typed known lowered
  have thenBlock := adds.typed.withBlock
  have joinBlock := thenBlock.typed.withBlock
  have elseBlock := joinBlock.typed.withBlock
  have elses : middle.withBlock.withBlock.blocks.length <
      middle.withBlock.withBlock.withBlock.blocks.length := by
    simp
  have joins : middle.withBlock.blocks.length <
      middle.withBlock.withBlock.withBlock.blocks.length :=
    Nat.lt_of_lt_of_le (by simp) elseBlock.room
  have thens : middle.blocks.length < middle.withBlock.withBlock.withBlock.blocks.length :=
    Nat.lt_of_lt_of_le (by simp) (joinBlock.trans elseBlock).room
  have ends := typed_branch condition.span elseBlock.typed has.withBlock.withBlock.withBlock thens
    elses
  obtain ⟨most, region, thenOpen⟩ := typed_region middle.withBlock.blocks.length thenSpan
    ends.typed thenKeeps (Nat.lt_of_lt_of_le thens ends.room) (Nat.lt_of_lt_of_le joins ends.room)
    first
  have before := ends.trans region
  obtain ⟨whole, others, elseOpen⟩ := typed_region middle.withBlock.blocks.length elseSpan
    region.typed elseKeeps (Nat.lt_of_lt_of_le elses before.room)
    (Nat.lt_of_lt_of_le joins before.room) second
  have inside := Nat.lt_of_lt_of_le joins (before.trans others).room
  have both := (adds.toRetypes.trans thenBlock).trans joinBlock
  refine ⟨whole, ((both.trans elseBlock).trans (before.trans others)).trans
    (others.typed.moveTo inside), fun id free => ?_⟩
  obtain ⟨notElse, thenFree⟩ := elseOpen id free
  obtain ⟨notThen, branchFree⟩ := thenOpen id thenFree
  obtain ⟨startFree, apart⟩ := openAt_terminate.mp branchFree
  rcases openAt_withBlock.mp startFree with earlier | new
  · rcases old_of_openAt adds earlier apart with join | new | old
    · exact .inl join
    · exact absurd new notThen
    · exact .inr old
  · exact absurd new notElse

theorem keepsTypes_loop (condition : Expression) (span bodySpan : Span) {body : Build Unit}
    (keeps : KeepsTypes body) :
    KeepsTypes (loop condition span bodySpan body) := by
  intro builder final types known built
  simp only [loop, bind_eq_ok, newBlock_eq_ok, terminate_eq_ok, switchTo_eq_ok] at built
  obtain ⟨_, _, ⟨rfl, rfl⟩, _, _, rfl, _, _, rfl, value, middle, lowered, _, _, ⟨rfl, rfl⟩, _, _,
    ⟨rfl, rfl⟩, _, _, rfl, _, _, rfl, _, last, inner, _, _, rfl, rfl⟩ := built
  have header := known.withBlock
  have headerInside : builder.blocks.length < builder.withBlock.blocks.length := by simp
  have enters := header.typed.terminate span (.jump builder.blocks.length)
    (by simp [Terminator.successors]) (by simp [Terminator.operand?])
  have moves := enters.typed.moveTo (Nat.lt_of_lt_of_le headerInside enters.room)
  have start := (header.trans enters).trans moves
  obtain ⟨more, adds, has⟩ := typed_typed moves.typed lowered
  have bodyBlock := adds.typed.withBlock
  have exitBlock := bodyBlock.typed.withBlock
  have exits : middle.withBlock.blocks.length < middle.withBlock.withBlock.blocks.length := by simp
  have bodies : middle.blocks.length < middle.withBlock.withBlock.blocks.length :=
    Nat.lt_of_lt_of_le (by simp) exitBlock.room
  have ends := typed_branch condition.span exitBlock.typed has.withBlock.withBlock bodies exits
  have before := ((adds.toRetypes.trans bodyBlock).trans exitBlock).trans ends
  have again := Nat.lt_of_lt_of_le headerInside ((enters.trans moves).trans before).room
  obtain ⟨most, region, open?⟩ := typed_region builder.blocks.length bodySpan ends.typed keeps
    (Nat.lt_of_lt_of_le bodies ends.room) again inner
  have inside := Nat.lt_of_lt_of_le exits (ends.trans region).room
  refine ⟨most, ((start.trans before).trans region).trans (region.typed.moveTo inside),
    fun id free => ?_⟩
  obtain ⟨notBody, branchFree⟩ := open? id free
  obtain ⟨startFree, notHeader⟩ := openAt_terminate.mp branchFree
  rcases openAt_withBlock.mp startFree with earlier | exit
  · rcases openAt_withBlock.mp earlier with old | new
    · obtain ⟨outside, apart⟩ := openAt_terminate.mp (adds.open? id old)
      rcases openAt_withBlock.mp outside with first | isHeader
      · exact .inr ⟨apart, first⟩
      · exact absurd (isHeader.trans adds.current.symm) notHeader
    · exact absurd new notBody
  · exact .inl exit

mutual

theorem keepsTypes_statement : ∀ source : Statement, KeepsTypes (statement source)
  | .declare span name written source => keepsTypes_declaration name written source span
  | .assign span written op source => keepsTypes_assignment written op source span
  | .require span condition message => keepsTypes_guardStatement condition .require message span
  | .assert span condition => keepsTypes_guardStatement condition .assert none span
  | .revert span message => keepsTypes_revert message span
  | .branch _ condition thenBlock none =>
    keepsTypes_conditional condition thenBlock.span (keepsTypes_block thenBlock)
  | .branch _ condition thenBlock (some elseBlock) =>
    keepsTypes_conditional_else condition thenBlock.span elseBlock.span
      (keepsTypes_block thenBlock) (keepsTypes_block elseBlock)
  | .loop span condition body => keepsTypes_loop condition span body.span (keepsTypes_block body)
  | .ret span source => keepsTypes_returnStatement source span
  | .emit span event args => keepsTypes_emission event args span
  | .expression _ source => keepsTypes_callStatement source

theorem keepsTypes_statements : ∀ sources : List Statement, KeepsTypes (statements sources)
  | [] => by
    intro builder final types known built
    obtain ⟨_, rfl⟩ := pure_eq_ok.mp built
    exact ⟨types, known.adds.builds⟩
  | first :: rest => keepsTypes_bind keepsTypes_continueDead
      (keepsTypes_bind (keepsTypes_statement first) (keepsTypes_statements rest))

theorem keepsTypes_block : ∀ source : Block, KeepsTypes (block source)
  | .mk body _ => keepsTypes_inBlock (keepsTypes_statements body)

end

/-! Functions. -/

theorem typed_start (scope : ContractScope) (function : String) (returns : Option Ty)
    (events : EventScope) :
    (Builder.start scope function returns events).Typed [] := by
  refine ⟨rfl, fun block member => ?_, List.nodup_nil, fun names listed named member => ?_,
    Nat.zero_lt_one⟩
  · rw [List.mem_singleton.mp member]
    exact ⟨by simp, .nil, by simp, by simp⟩
  · rw [List.mem_singleton.mp listed] at member
    simp at member

theorem typed_params {decls : List Param} {builder final : Builder} {types : List Ty}
    {result : List (String × Ty)} (known : builder.Typed types)
    (built : params decls builder = .ok result final) :
    builder.Adds types final types ∧
      final.locals = builder.locals ++ decls.map fun param =>
        ⟨param.name.name, Ty.ofExpr param.ty⟩ := by
  induction decls generalizing builder result with
  | nil =>
    simp only [params, pure_eq_ok] at built
    obtain ⟨_, rfl⟩ := built
    exact ⟨known.adds, by simp⟩
  | cons param rest ih =>
    simp only [params, ite_eq_ok, fail_eq_ok, and_false, false_or, bind_eq_ok, get_eq_ok,
      declare_eq_ok, pure_eq_ok] at built
    obtain ⟨_, _, _, ⟨rfl, rfl⟩, _, _, _, ⟨_, _, rfl⟩, _, _, later, _, rfl⟩ := built
    have declares := known.addLocal param.name.name (Ty.ofExpr param.ty)
    obtain ⟨further, same⟩ := ih declares.typed later
    refine ⟨declares.trans further, ?_⟩
    rw [same]
    simp [Builder.addLocal]

theorem not_isReachable_of_function {header : Header} {body : Block}
    {builder entered ended final : Builder} {declared : List (String × Ty)} {result : Function}
    (built : function header body builder = .ok result final)
    (read : params header.params builder = .ok declared entered)
    (inside : block body entered = .ok () ended) (returns : result.returns.isSome = true)
    (falls : ended.isEnded = false) :
    (FlowGraph.ofFunction result).isReachable ended.current = false := by
  simp only [function, bind_eq_ok, get_eq_ok, ite_eq_ok, fail_eq_ok, and_false, false_or,
    pure_eq_ok, terminate_eq_ok] at built
  obtain ⟨_, _, ⟨rfl, rfl⟩, _, params, start, others, _, stop, text, _, _, ⟨rfl, rfl⟩, _, _,
    ⟨rfl, rfl⟩, _, _, rfl, _, _, ⟨rfl, rfl⟩, checked, rfl, rfl⟩ := built
  obtain ⟨rfl, rfl⟩ := EStateM.Result.ok.inj (read.symm.trans others)
  obtain ⟨_, rfl⟩ := EStateM.Result.ok.inj (inside.symm.trans text)
  simpa [falls, returns] using checked

theorem closed_block {function : Function} {ended : Builder} {location : Location} {span : Span}
    {id : BlockId} {block : BasicBlock}
    (blocks : function.blocks = closeBlocks location (ended.terminate (.ret none) span).blocks)
    (found : function.blocks[id]? = some block) :
    ∃ before, ended.blocks[id]? = some before ∧ block.id = id ∧ block.instructions =
      before.instructions ∧
      (before.terminator = some block.terminator ∨ before.terminator = none ∧
        block.terminator.node = .ret none) := by
  rw [blocks, getElem?_closeBlocks] at found
  obtain ⟨later, there, rfl⟩ := Option.map_eq_some_iff.mp found
  simp only [Builder.terminate, List.getElem?_modify] at there
  obtain ⟨before, original, same⟩ := Option.map_eq_some_iff.mp there
  refine ⟨before, original, rfl, ?_⟩
  cases running : before.terminator with
  | none =>
    by_cases here : ended.current = id
      <;> simp only [here, if_true, if_false, running, Option.isSome_none,
        Bool.false_eq_true] at same <;> subst same <;> simp [running]
  | some terminator =>
    have kept : before = later := by simpa [running] using same
    subst kept
    simp [running]

theorem map_instructions_closed {function : Function} {ended : Builder} {location : Location}
    {span : Span}
    (blocks : function.blocks = closeBlocks location (ended.terminate (.ret none) span).blocks)
    (count : function.blocks.length = ended.blocks.length) :
    function.blocks.map BasicBlock.instructions = ended.blocks.map OpenBlock.instructions := by
  refine List.ext_getElem? fun id => ?_
  rw [List.getElem?_map, List.getElem?_map]
  cases found : function.blocks[id]? with
  | some block =>
    obtain ⟨before, there, _, instructions, _⟩ := closed_block blocks found
    rw [there, Option.map_some, Option.map_some, instructions]
  | none =>
    rw [List.getElem?_eq_none (count ▸ List.getElem?_eq_none_iff.mp found)]
    rfl

/-- All code of a function that is built has types. -/
theorem typed_function {header : Header} {body : Block} {scope : ContractScope}
    {known : EventScope} {function : Function} {final : Builder}
    (built : Build.function header body
      (Builder.start scope header.name (header.returns.map Ty.ofExpr) known) =
      .ok function final) :
    function.returns = header.returns.map Ty.ofExpr ∧ ∃ types, function.Typed final.declared types ∧
      final.scope = scope := by
  obtain ⟨entered, ended, read, inside, rfl, same⟩ := function_eq_ok built
  have kept := params_keepsCode read
  obtain ⟨enters, first⟩ :=
    typed_params (typed_start scope header.name (header.returns.map Ty.ofExpr) known) read
  obtain ⟨types, builds⟩ := keepsTypes_block body enters.typed inside
  have whole := enters.toRetypes.trans builds.toRetypes
  have returns : function.returns = ended.returns := by rw [same]; rfl
  have locals : function.locals = ended.locals := by rw [same]; rfl
  have blocks : function.blocks = closeBlocks (ended.scope.lines.location body.span.stop)
      (ended.terminate (.ret none) ⟨body.span.stop - 1, body.span.stop⟩).blocks := by rw [same]; rfl
  have count : function.blocks.length = ended.blocks.length := by rw [blocks]; simp [closeBlocks]
  have built_block {block : BasicBlock} (member : block ∈ function.blocks) :
    ∃ before ∈ ended.blocks,
      block.instructions = before.instructions ∧
        (before.terminator = some block.terminator ∨ before.terminator = none ∧
          block.terminator.node = .ret none) := by
    obtain ⟨id, found⟩ := List.mem_iff_getElem?.mp member
    obtain ⟨before, there, _, instructions, terminator⟩ := closed_block blocks found
    exact ⟨before, List.mem_of_getElem? there, instructions, terminator⟩
  -- When the body ends, only the block that it stops in may have no end.
  have stops {id : BlockId} (free : ended.OpenAt id) : id = ended.current := by
    rcases builds.open? id free with here | ⟨apart, block, found, _⟩
    · exact here
    · rw [kept.blocks] at found
      have only := (List.getElem?_eq_some_iff.mp found).1
      exact absurd ((Nat.lt_one_iff.mp only).trans kept.current.symm) apart
  have stands : ∀ block ∈ function.blocks,
      block.terminator.node.Stands function.blocks.length (definedBy block.instructions) := by
    intro block member
    obtain ⟨before, listed, instructions, ended | ⟨_, nothing⟩⟩ := built_block member
    · rw [instructions, count]
      exact (builds.typed.blocks before listed).stands _ ended
    · rw [nothing]
      exact ⟨by simp [Terminator.successors], by simp [Terminator.operand?]⟩
  have entry : function.entry = 0 ∧ 0 < function.blocks.length := by
    refine ⟨by rw [same], ?_⟩
    rw [count]
    exact Nat.lt_of_lt_of_le Nat.zero_lt_one whole.room
  refine ⟨returns.trans whole.returns, types, ⟨entry, ?_, ?_, ?_, stands, ?_, ?_, ?_⟩, whole.scope⟩
  · intro id block found
    obtain ⟨_, _, numbered, _⟩ := closed_block blocks found
    exact numbered
  · intro block member instruction listed
    obtain ⟨before, there, instructions, _⟩ := built_block member
    rw [instructions] at listed
    rw [locals]
    exact (builds.typed.blocks before there).instructions instruction listed
  · intro block member
    obtain ⟨before, there, instructions, _⟩ := built_block member
    rw [instructions]
    exact (builds.typed.blocks before there).reads
  · intro id block reaches found
    obtain ⟨before, there, _, _, finished | ⟨running, nothing⟩⟩ := closed_block blocks found
    · rw [returns]
      exact (builds.typed.blocks before (List.mem_of_getElem? there)).typed _ finished
    · rw [nothing]
      refine .retNothing (Option.eq_none_iff_forall_ne_some.mpr fun ty declares => ?_)
      obtain rfl := stops ⟨before, there, running⟩
      have falls : ended.isEnded = false := by simp [Builder.isEnded, there, running]
      have barred := not_isReachable_of_function built read inside (by rw [declares]; rfl) falls
      have open? := reaches.isReachable (entry.1 ▸ entry.2) fun block member =>
        (stands block member).successors
      exact Bool.false_ne_true (barred.symm.trans open?)
  · have defines := congrArg (List.flatMap definedBy) (map_instructions_closed blocks count)
    rw [List.flatMap_map, List.flatMap_map] at defines
    rw [defines]
    exact builds.typed.once
  · have params : function.params.map (fun param => LocalVar.mk param.1 param.2) =
        entered.locals := by
      rw [same, first, List.map_map]
      rfl
    rw [params, locals]
    exact builds.locals

end Build

namespace Lowering

variable {lines : LineTable} {decl : ContractDecl}

def declarationsOf (lines : LineTable) (decl : ContractDecl) : Declarations :=
  ⟨(scopeOf lines decl).field?, (scopeOf lines decl).signature?,
    (loweredBodies lines decl).2.1.types?⟩

/-- All code of a lowered contract has types. -/
theorem contractOf_typed (readable : decl.Readable) :
    (contractOf lines decl).1.Typed (declarationsOf lines decl) where
  formed := contractOf_wellFormed readable
  fields := fun name => lookup_map (fieldsOf lines decl) Field.name Field.ty name
  events := by
    intro name
    have start : EventScope.Lists ⟨[], []⟩ [] := fun _ => rfl
    obtain ⟨declared, _⟩ := eventsOf_lists (scopeOf lines decl) decl.events start rfl
    exact ((functionsOf_extends (scopeOf lines decl) _ (bodiesOf decl)).1.listed _
      declared name).symm
  signatures := by
    intro name signature callee known found
    obtain ⟨member, named⟩ := Contract.mem_of_function? found
    obtain ⟨header, body, events, final, declared, built⟩ := mem_functionsOf member
    obtain ⟨returns, _⟩ := Build.typed_function built
    obtain ⟨_, _, _, _, _, rfl⟩ := Build.function_eq_ok built
    have listed : (scopeOf lines decl).signature? name =
        ((functionDecls decl).find? fun function => function.name.name == name).map fun function =>
          (signatureOf function).2 :=
      lookup_map (functionDecls decl) (fun function => function.name.name) _ name
    rw [show (scopeOf lines decl).signature? name = some signature from known] at listed
    obtain ⟨source, first, same⟩ := Option.map_eq_some_iff.mp listed.symm
    have sourceNamed : source.name.name = name := by simpa using List.find?_some first
    have sourceMember := List.mem_of_find?_eq_some first
    rcases List.mem_append.mp declared with deployed | ordinary
    · rw [Option.mem_toList, Option.map_eq_some_iff] at deployed
      obtain ⟨handler, _, same⟩ := deployed
      obtain ⟨rfl, rfl⟩ := Prod.mk.inj same
      exact absurd (sourceNamed.trans named.symm)
        (readable.name_ne_init (mem_splitRepeated sourceMember).1)
    · obtain ⟨other, otherMember, pair⟩ := List.mem_map.mp ordinary
      obtain ⟨rfl, rfl⟩ := Prod.mk.inj pair
      have distinct : ((functionDecls decl).map fun function => function.name.name).Nodup :=
        splitRepeated_nodup _ _
      have here := find?_eq_some_of_nodup distinct otherMember
      have otherNamed : other.name.name = name := named
      rw [otherNamed, first] at here
      obtain rfl := Option.some.inj here
      rw [← same]
      simp only [signatureOf, List.map_map, Signature.mk.injEq]
      exact ⟨rfl, returns.symm⟩
  functions := by
    intro function member
    obtain ⟨header, body, known, final, _, built, kept⟩ :=
      (functionsOf_extends (scopeOf lines decl) _ (bodiesOf decl)).2 function member
    obtain ⟨_, types, typed, scope⟩ := Build.typed_function built
    refine ⟨types, typed.mono ⟨?_, ?_, kept.kept⟩⟩
    · simp only [declarationsOf, Builder.declared, scope]
    · simp only [declarationsOf, Builder.declared, scope]

end Lowering

theorem ContractSet.typed_of_ofText {text : String} {contract : Contract}
    (member : contract ∈ (ofText text).contracts) : ∃ declared, contract.Typed declared := by
  obtain ⟨decl, listed, _, rfl⟩ := Lowering.mem_contractsOf member
  exact ⟨_, Lowering.contractOf_typed (SyntaxTree.readable_of_read listed)⟩

end Covenant
