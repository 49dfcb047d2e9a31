import Covenant.Proofs.Code.Typing
import Covenant.Proofs.Lowering.Bodies

/-!
Lowering gives every value one type and one definition. Building a part of a function keeps the
types of all values that were there before, and lowering an expression gives its value the type that
it is said to have.
-/

namespace Covenant

structure OpenBlock.Typed (declared : Declarations) (locals : List LocalVar) (returns : Option Ty)
    (types : List Ty) (count : Nat) (block : OpenBlock) : Prop where
  instructions : ∀ instruction ∈ block.instructions, instruction.node.Typed declared locals types
  reads : ReadsEarlier block.instructions
  typed : ∀ terminator, block.terminator = some terminator → terminator.node.Typed returns types
  stands : ∀ terminator, block.terminator = some terminator →
    terminator.node.Stands count (definedBy block.instructions)

theorem OpenBlock.Typed.mono {declared more : Declarations} {locals moreLocals : List LocalVar}
    {returns : Option Ty} {types moreTypes : List Ty} {count room : Nat} {block : OpenBlock}
    (typed : block.Typed declared locals returns types count) (wider : declared.Extends more)
    (longerLocals : locals <+: moreLocals) (longer : types <+: moreTypes) (larger : count ≤ room) :
    block.Typed more moreLocals returns moreTypes room where
  instructions := fun instruction member =>
    (typed.instructions instruction member).mono wider longerLocals longer
  reads := typed.reads
  typed := fun terminator found => (typed.typed terminator found).mono longer
  stands := fun terminator found => (typed.stands terminator found).mono larger
    fun _ defined => defined

theorem flatMap_modify_perm {α β : Type} {change : α → α} {give : α → List β} {extra : List β}
    (adds : ∀ item, give (change item) = give item ++ extra) {items : List α} {index : Nat}
    (inside : index < items.length) :
    ((items.modify index change).flatMap give).Perm (items.flatMap give ++ extra) := by
  induction items generalizing index with
  | nil => simp at inside
  | cons first rest ih =>
    cases index with
    | zero =>
      simp only [List.modify_zero_cons, List.flatMap_cons, adds, List.append_assoc]
      exact List.perm_append_comm.append_left _
    | succ index =>
      simp only [List.modify_succ_cons, List.flatMap_cons, List.append_assoc]
      exact (ih (by simpa using inside)).append_left _

namespace Builder

def declared (builder : Builder) : Declarations :=
  ⟨builder.scope.field?, builder.scope.signature?, builder.events.types?⟩

structure Typed (builder : Builder) (types : List Ty) : Prop where
  values : types.length = builder.nextValue
  blocks : ∀ block ∈ builder.blocks,
    block.Typed builder.declared builder.locals builder.returns types builder.blocks.length
  once : (builder.blocks.flatMap fun block => definedBy block.instructions).Nodup
  visible : ∀ names ∈ builder.visible, ∀ named ∈ names, named.2 < builder.locals.length
  current : builder.current < builder.blocks.length

def OpenAt (builder : Builder) (id : BlockId) : Prop :=
  ∃ block, builder.blocks[id]? = some block ∧ block.terminator = none

def Held (builder : Builder) (value : ValueId) : Prop :=
  ∃ block, builder.blocks[builder.current]? = some block ∧ value ∈ definedBy block.instructions

def Has (builder : Builder) (types : List Ty) (value : ValueId) (ty : Ty) : Prop :=
  types[value]? = some ty ∧ builder.Held value

structure Retypes (builder : Builder) (types : List Ty) (final : Builder) (more : List Ty) :
    Prop where
  typed : final.Typed more
  types : types <+: more
  locals : builder.locals <+: final.locals
  scope : final.scope = builder.scope
  returns : final.returns = builder.returns
  events : builder.events.Extends final.events
  room : builder.blocks.length ≤ final.blocks.length

structure Adds (builder : Builder) (types : List Ty) (final : Builder) (more : List Ty) : Prop
    extends Retypes builder types final more where
  known : final.events = builder.events
  current : final.current = builder.current
  held : ∀ value, builder.Held value → final.Held value
  open? : ∀ id, final.OpenAt id → builder.OpenAt id

structure Builds (builder : Builder) (types : List Ty) (final : Builder) (more : List Ty) : Prop
    extends Retypes builder types final more where
  open? : ∀ id, final.OpenAt id → id = final.current ∨ id ≠ builder.current ∧ builder.OpenAt id

variable {builder middle final : Builder} {types more most : List Ty}

theorem declared_extends (scope : final.scope = builder.scope)
    (events : builder.events.Extends final.events) :
    builder.declared.Extends final.declared :=
  ⟨by simp only [declared, scope], by simp only [declared, scope], events.kept⟩

theorem Retypes.declared (retypes : builder.Retypes types final more) :
    builder.declared.Extends final.declared :=
  declared_extends retypes.scope retypes.events

theorem Typed.retypes (typed : builder.Typed types) : builder.Retypes types builder types :=
  ⟨typed, List.prefix_refl _, List.prefix_refl _, rfl, rfl, .refl _, Nat.le_refl _⟩

theorem Retypes.trans (first : builder.Retypes types middle more)
    (second : middle.Retypes more final most) :
    builder.Retypes types final most :=
  ⟨second.typed, first.types.trans second.types, first.locals.trans second.locals,
    second.scope.trans first.scope, second.returns.trans first.returns,
    first.events.trans second.events, Nat.le_trans first.room second.room⟩

theorem Typed.adds (typed : builder.Typed types) : builder.Adds types builder types :=
  ⟨typed.retypes, rfl, rfl, fun _ held => held, fun _ free => free⟩

theorem Adds.trans (first : builder.Adds types middle more) (second : middle.Adds more final most) :
    builder.Adds types final most :=
  ⟨first.toRetypes.trans second.toRetypes, second.known.trans first.known,
    second.current.trans first.current, fun value held => second.held value (first.held value held),
    fun id free => first.open? id (second.open? id free)⟩

theorem Adds.builds (adds : builder.Adds types final more) : builder.Builds types final more := by
  refine ⟨adds.toRetypes, fun id free => ?_⟩
  rw [adds.current]
  by_cases here : id = builder.current
  · exact .inl here
  · exact .inr ⟨here, adds.open? id free⟩

theorem Builds.trans (first : builder.Builds types middle more)
    (second : middle.Builds more final most) :
    builder.Builds types final most := by
  refine ⟨first.toRetypes.trans second.toRetypes, fun id free => ?_⟩
  rcases second.open? id free with here | ⟨apart, before⟩
  · exact .inl here
  · rcases first.open? id before with same | earlier
    · exact absurd same apart
    · exact .inr earlier

theorem Has.adds {value : ValueId} {ty : Ty} (has : builder.Has types value ty)
    (adds : builder.Adds types final more) : final.Has more value ty :=
  ⟨getElem?_of_longer adds.types has.1, adds.held value has.2⟩

theorem Has.behind {value : ValueId} {ty : Ty} (has : builder.Has types value ty) (other : Ty) :
    (types ++ [other])[value]? = some ty := getElem?_of_longer (List.prefix_append _ _) has.1

theorem Typed.localType (typed : builder.Typed types) {name : String} {slot : LocalId}
    (found : builder.find? name = some slot) :
    ∃ entry, builder.locals[slot]? = some entry ∧ builder.localType slot = entry.ty := by
  obtain ⟨names, listed, held⟩ := List.exists_of_findSome?_eq_some found
  have inside := typed.visible names listed _ (mem_of_lookup held)
  refine ⟨builder.locals[slot], List.getElem?_eq_getElem inside, ?_⟩
  simp only [Builder.localType, List.getElem?_eq_getElem inside]

theorem Typed.newest (typed : builder.Typed types) (ty : Ty) :
    (types ++ [ty])[builder.nextValue]? = some ty := by
  rw [← typed.values, List.getElem?_append_right (Nat.le_refl _), Nat.sub_self]
  rfl

theorem Typed.defined_lt (typed : builder.Typed types) {value : ValueId}
    (member : value ∈ builder.blocks.flatMap fun block => definedBy block.instructions) :
    value < types.length := by
  obtain ⟨block, listed, defined⟩ := List.mem_flatMap.mp member
  obtain ⟨instruction, there, defines⟩ := List.mem_filterMap.mp defined
  exact ((typed.blocks block listed).instructions instruction there).dest_lt defines

/-! Steps of building. -/

theorem getElem?_emit (builder : Builder) (instruction : Instruction) (span : Span) (id : BlockId) :
    (builder.emit instruction span).blocks[id]? = (builder.blocks[id]?.map fun block =>
      if builder.current = id then
        { block with
          instructions :=
            block.instructions ++ [⟨instruction, builder.scope.lines.location span.start⟩] }
      else block) := by
  simp only [emit, List.getElem?_modify]
  split <;> simp

theorem openAt_emit {instruction : Instruction} {span : Span} {id : BlockId} :
    (builder.emit instruction span).OpenAt id ↔ builder.OpenAt id := by
  unfold OpenAt
  rw [getElem?_emit]
  cases builder.blocks[id]? with
  | none => simp
  | some block =>
    simp only [Option.map_some, Option.some.injEq, exists_eq_left']
    split <;> rfl

theorem held_emit {instruction : Instruction} {span : Span} {value : ValueId}
    (inside : builder.current < builder.blocks.length) :
    (builder.emit instruction span).Held value ↔ builder.Held value ∨ instruction.dest? =
      some value := by
  have here : (builder.emit instruction span).current = builder.current := rfl
  unfold Held
  rw [here, getElem?_emit, List.getElem?_eq_getElem inside]
  simp [definedBy]

/-- Adding an instruction, which may define the next value. -/
theorem Typed.emitted (typed : builder.Typed types) {instruction : Instruction} {next : ValueId}
    (span : Span) (longer : types <+: more) (count : more.length = next)
    (dest : ∀ value, instruction.dest? = some value → value = builder.nextValue)
    (fits : instruction.Typed builder.declared builder.locals more)
    (reads : ∀ value ∈ instruction.operands, builder.Held value) :
    builder.Adds types ({ builder with nextValue := next }.emit instruction span) more := by
  let located : Located Instruction := ⟨instruction, builder.scope.lines.location span.start⟩
  have adds (block : OpenBlock) : definedBy (block.instructions ++ [located]) =
      definedBy block.instructions ++ instruction.dest?.toList := by
    rw [definedBy_append]
    cases defines : instruction.dest? <;> simp [definedBy, located, defines]
  have size : ({ builder with nextValue := next }.emit instruction span).blocks.length =
      builder.blocks.length := by
    simp [emit]
  refine ⟨⟨⟨count, ?_, ?_, typed.visible, ?_⟩, longer, List.prefix_refl _, rfl, rfl, .refl _,
    Nat.le_of_eq size.symm⟩, rfl, rfl, ?_, ?_⟩
  · rw [size]
    intro block member
    obtain ⟨id, inside⟩ := List.mem_iff_getElem?.mp member
    rw [getElem?_emit] at inside
    obtain ⟨before, found, same⟩ := Option.map_eq_some_iff.mp inside
    have listed := List.mem_of_getElem? found
    have kept := (typed.blocks before listed).mono (.refl _) (List.prefix_refl _) longer
      (Nat.le_refl _)
    split at same
    · rename_i here
      have operands : ∀ value ∈ instruction.operands, value ∈ definedBy before.instructions := by
        intro value used
        obtain ⟨current, there, defined⟩ := reads value used
        rw [here, found] at there
        exact Option.some.inj there ▸ defined
      subst same
      refine ⟨?_, kept.reads.snoc operands, kept.typed, fun terminator ends => ?_⟩
      · intro other listed
        rcases List.mem_append.mp listed with old | last
        · exact kept.instructions other old
        · rw [List.mem_singleton.mp last]
          exact fits
      · refine (kept.stands terminator ends).mono (Nat.le_refl _) fun value defined => ?_
        rw [definedBy_append]
        exact List.mem_append_left _ defined
    · exact same ▸ kept
  · refine (flatMap_modify_perm adds typed.current).nodup_iff.mpr
      (List.nodup_append.mpr ⟨typed.once, ?_, ?_⟩)
    · cases instruction.dest? <;> simp
    · rintro value old other new rfl
      have before := typed.defined_lt old
      rw [dest value (by simpa using new), typed.values] at before
      exact Nat.lt_irrefl _ before
  · rw [size]
    exact typed.current
  · exact fun value held => (held_emit typed.current).mpr (.inl held)
  · exact fun id free => openAt_emit.mp free

theorem Typed.define (typed : builder.Typed types) {instruction : Instruction} {ty : Ty}
    (span : Span) (dest : instruction.dest? = some builder.nextValue)
    (fits : instruction.Typed builder.declared builder.locals (types ++ [ty]))
    (reads : ∀ value ∈ instruction.operands, builder.Held value) :
    builder.Adds types ({ builder with nextValue := builder.nextValue + 1 }.emit instruction span)
      (types ++ [ty]) ∧
      ({ builder with nextValue := builder.nextValue + 1 }.emit instruction span).Has
        (types ++ [ty])
        builder.nextValue ty := by
  refine ⟨typed.emitted span (List.prefix_append _ _) (by simp [typed.values]) ?_ fits reads, ?_,
    ?_⟩
  · intro value defines
    rw [dest] at defines
    exact (Option.some.inj defines).symm
  · exact typed.newest ty
  · exact (held_emit typed.current).mpr (.inr dest)

theorem Typed.perform (typed : builder.Typed types) {instruction : Instruction} (span : Span)
    (dest : instruction.dest? = none)
    (fits : instruction.Typed builder.declared builder.locals types)
    (reads : ∀ value ∈ instruction.operands, builder.Held value) :
    builder.Adds types (builder.emit instruction span) types :=
  typed.emitted span (List.prefix_refl _) typed.values (by simp [dest]) fits reads

theorem openAt_terminate {terminator : Terminator} {span : Span} {id : BlockId} :
    (builder.terminate terminator span).OpenAt id ↔ builder.OpenAt id ∧ id ≠ builder.current := by
  unfold OpenAt
  simp only [terminate, List.getElem?_modify]
  cases builder.blocks[id]? with
  | none => simp
  | some block =>
    by_cases here : builder.current = id
    · cases ended : block.terminator <;> simp [here, ended]
    · simp [here, Ne.symm here]

theorem Typed.terminate (typed : builder.Typed types) {terminator : Terminator} (span : Span)
    (fits : terminator.Typed builder.returns types)
    (successors : ∀ target ∈ terminator.successors, target < builder.blocks.length)
    (reads : ∀ value : ValueId, terminator.operand? = some value → builder.Held value) :
    builder.Retypes types (builder.terminate terminator span) types := by
  have size : (builder.terminate terminator span).blocks.length = builder.blocks.length := by simp
  have kept : ((builder.terminate terminator span).blocks.flatMap fun block =>
    definedBy block.instructions).Perm
      ((builder.blocks.flatMap fun block => definedBy block.instructions) ++ []) :=
    flatMap_modify_perm (fun block => by split <;> simp) typed.current
  refine ⟨⟨typed.values, ?_, ?_, typed.visible, ?_⟩, List.prefix_refl _, List.prefix_refl _, rfl,
    rfl, .refl _, Nat.le_of_eq size.symm⟩
  · rw [size]
    intro block member
    obtain ⟨id, inside⟩ := List.mem_iff_getElem?.mp member
    simp only [Builder.terminate, List.getElem?_modify] at inside
    obtain ⟨before, found, same⟩ := Option.map_eq_some_iff.mp inside
    have earlier := typed.blocks before (List.mem_of_getElem? found)
    split at same
    · rename_i here
      split at same
      · exact same ▸ earlier
      · subst same
        refine ⟨earlier.instructions, earlier.reads, fun other ends => ?_, fun other ends => ?_⟩
        · rw [← Option.some.inj ends]
          exact fits
        · rw [← Option.some.inj ends]
          refine ⟨successors, fun value used => ?_⟩
          obtain ⟨current, there, defined⟩ := reads value used
          rw [here, found] at there
          exact Option.some.inj there ▸ defined
    · exact same ▸ earlier
  · rw [List.append_nil] at kept
    exact kept.nodup_iff.mpr typed.once
  · rw [size]
    exact typed.current

theorem openAt_withBlock {id : Nat} :
    builder.withBlock.OpenAt id ↔ builder.OpenAt id ∨ id = builder.blocks.length := by
  unfold OpenAt
  simp only [Builder.withBlock]
  by_cases inside : id < builder.blocks.length
  · rw [List.getElem?_append_left inside]
    simp [Nat.ne_of_lt inside]
  · rw [List.getElem?_append_right (Nat.le_of_not_lt inside),
      List.getElem?_eq_none (Nat.le_of_not_lt inside)]
    by_cases next : id = builder.blocks.length
    · simp [next]
    · rw [List.getElem?_eq_none (by simp only [List.length_singleton]; omega)]
      simp [next]

theorem held_withBlock {value : ValueId} (held : builder.Held value) :
    builder.withBlock.Held value := by
  obtain ⟨block, found, defined⟩ := held
  refine ⟨block, ?_, defined⟩
  change (builder.blocks ++ [OpenBlock.mk [] none])[builder.current]? = some block
  rw [List.getElem?_append_left (List.getElem?_eq_some_iff.mp found).1]
  exact found

theorem Has.withBlock {value : ValueId} {ty : Ty} (has : builder.Has types value ty) :
    builder.withBlock.Has types value ty := ⟨has.1, held_withBlock has.2⟩

theorem Typed.withBlock (typed : builder.Typed types) :
    builder.Retypes types builder.withBlock types := by
  have size : builder.withBlock.blocks.length = builder.blocks.length + 1 := by simp
  refine ⟨⟨typed.values, ?_, ?_, typed.visible, ?_⟩, List.prefix_refl _, List.prefix_refl _, rfl,
    rfl, .refl _, ?_⟩
  · intro block member
    rcases List.mem_append.mp member with old | last
    · exact (typed.blocks block old).mono (.refl _) (List.prefix_refl _) (List.prefix_refl _)
        (Nat.le_of_lt (size ▸ Nat.lt_succ_self _))
    · rw [List.mem_singleton.mp last]
      exact ⟨by simp, .nil, by simp, by simp⟩
  · simpa [Builder.withBlock, definedBy] using typed.once
  · have before := typed.current
    rw [size]
    exact Nat.lt_succ_of_lt before
  · omega

theorem Typed.moveTo (typed : builder.Typed types) {block : BlockId}
    (inside : block < builder.blocks.length) :
    builder.Retypes types (builder.moveTo block) types :=
  ⟨⟨typed.values, typed.blocks, typed.once, typed.visible, inside⟩, List.prefix_refl _,
    List.prefix_refl _, rfl, rfl, .refl _, Nat.le_refl _⟩

theorem Typed.addLocal (typed : builder.Typed types) (name : String) (ty : Ty) :
    builder.Adds types (builder.addLocal name ty) types := by
  have longer : builder.locals <+: builder.locals ++ [⟨name, ty⟩] := List.prefix_append _ _
  refine ⟨⟨⟨typed.values, fun block member => ?_, typed.once, ?_, typed.current⟩,
    List.prefix_refl _, longer, rfl, rfl, .refl _, Nat.le_refl _⟩, rfl, rfl, fun _ held => held,
    fun _ free => free⟩
  · exact (typed.blocks block member).mono (.refl _) longer (List.prefix_refl _) (Nat.le_refl _)
  · have room : (builder.addLocal name ty).locals.length = builder.locals.length + 1 := by
      simp [Builder.addLocal]
    have older (names : List (String × LocalId)) (listed : names ∈ builder.visible)
        (named : String × LocalId)
        (member : named ∈ names) : named.2 < builder.locals.length + 1 :=
      Nat.lt_succ_of_lt (typed.visible names listed named member)
    rw [room]
    intro names listed named member
    obtain ⟨depth, inside⟩ := List.mem_iff_getElem?.mp listed
    simp only [Builder.addLocal, List.getElem?_modify] at inside
    obtain ⟨before, found, same⟩ := Option.map_eq_some_iff.mp inside
    have there := List.mem_of_getElem? found
    split at same
    · subst same
      rcases List.mem_cons.mp member with rfl | old
      · exact Nat.lt_succ_self _
      · exact older before there named old
    · exact older names (same ▸ there) named member

theorem Typed.imply (typed : builder.Typed types) {name : String}
    (fresh : builder.events.types? name = none) (shape : List Ty) :
    builder.Builds types { builder with events := builder.events.imply name shape } types := by
  have wider := EventScope.extends_imply fresh shape
  refine ⟨⟨⟨typed.values, fun block member => ?_, typed.once, typed.visible, typed.current⟩,
    List.prefix_refl _, List.prefix_refl _, rfl, rfl, wider, Nat.le_refl _⟩, fun id free => ?_⟩
  · exact (typed.blocks block member).mono (declared_extends rfl wider) (List.prefix_refl _)
      (List.prefix_refl _) (Nat.le_refl _)
  · exact typed.adds.builds.open? id free

end Builder

namespace Build

open Builder

theorem held_of_forall₂ {builder : Builder} {types : List Ty} {ids : List ValueId}
    {expected : List Ty} (has : List.Forall₂ (builder.Has types) ids expected) :
    ∀ id ∈ ids, builder.Held id := by
  induction has with
  | nil => simp
  | cons first _ ih => exact List.forall_mem_cons.mpr ⟨first.2, ih⟩

theorem typed_selfCall {builder final : Builder} {types : List Ty} {function : Ident}
    {args : List Expression} {span : Span} {result : Option (ValueId × Ty)}
    (lower : ∀ (expected : List Ty) (ids : List ValueId) (middle : Builder),
      args.length = expected.length →
      arguments args expected builder = .ok ids middle →
      ∃ more, builder.Adds types middle more ∧ List.Forall₂ (middle.Has more) ids expected)
    (built : selfCall function args.length span (arguments args) builder = .ok result final) :
    ∃ more, builder.Adds types final more ∧ ∀ found, result = some found →
      final.Has more found.1 found.2 := by
  simp only [selfCall, bind_eq_ok, get_eq_ok] at built
  obtain ⟨_, _, ⟨rfl, rfl⟩, built⟩ := built
  cases known : builder.scope.signature? function.name with
  | none => simp [known, fail_eq_ok] at built
  | some signature =>
    simp only [known, ite_eq_ok, fail_eq_ok, and_false, false_or, bind_eq_ok] at built
    obtain ⟨arity, ids, middle, lowered, built⟩ := built
    have count : signature.params.length = args.length := by simpa using arity
    obtain ⟨more, adds, given⟩ := lower _ _ _ count.symm lowered
    rw [← adds.scope] at known
    cases returns : signature.returns with
    | none =>
      simp only [returns, bind_eq_ok, emit_eq_ok, pure_eq_ok] at built
      obtain ⟨_, _, rfl, rfl, rfl⟩ := built
      have called : Instruction.Typed middle.declared middle.locals more
          (.call none function.name ids) :=
        .call known (given.imp fun _ _ has => has.1) (by simp)
      exact ⟨more, adds.trans (adds.typed.perform span rfl called (held_of_forall₂ given)), by simp⟩
    | some ty =>
      simp only [returns, bind_eq_ok, fresh_eq_ok, emit_eq_ok, pure_eq_ok] at built
      obtain ⟨_, _, ⟨rfl, rfl⟩, _, _, rfl, rfl, rfl⟩ := built
      have called : Instruction.Typed middle.declared middle.locals (more ++ [ty])
          (.call (some middle.nextValue) function.name ids) := by
        refine .call known (given.imp fun _ _ has => has.behind ty) fun id same => ?_
        obtain rfl := Option.some.inj same
        exact ⟨ty, returns, adds.typed.newest ty⟩
      obtain ⟨calls, has⟩ := adds.typed.define span rfl called (held_of_forall₂ given)
      refine ⟨more ++ [ty], adds.trans calls, ?_⟩
      intro found same
      obtain rfl := Option.some.inj same
      exact has

theorem typed_externalCall {builder final : Builder} {types : List Ty} {kind : ExternalKind}
    {span : Span} {target amount : Build ValueId} {result : ValueId}
    (lowerTarget : ∀ {id : ValueId} {middle : Builder}, target builder = .ok id middle →
      ∃ more, builder.Adds types middle more ∧ middle.Has more id .address)
    (lowerAmount : ∀ {id : ValueId} {middle last : Builder} {more : List Ty}, middle.Typed more →
      amount middle = .ok id last → ∃ most, middle.Adds more last most ∧
      last.Has most id .defaultInteger)
    (built : externalCall kind span target amount builder = .ok result final) :
    ∃ more, builder.Adds types final more ∧ final.Has more result .bool := by
  simp only [externalCall, bind_eq_ok, fresh_eq_ok, emit_eq_ok, pure_eq_ok] at built
  obtain ⟨receiver, middle, first, sent, last, second, _, _, ⟨rfl, rfl⟩, _, _, rfl, rfl, rfl⟩ :=
    built
  obtain ⟨more, adds, targetHas⟩ := lowerTarget first
  obtain ⟨most, further, amountHas⟩ := lowerAmount adds.typed second
  have targetLater := targetHas.adds further
  obtain ⟨calls, has⟩ := further.typed.define span rfl
    (.externalCall (targetLater.behind .bool) (amountHas.behind .bool) (further.typed.newest .bool))
    (by simpa [Instruction.operands] using ⟨targetLater.2, amountHas.2⟩)
  exact ⟨_, (adds.trans further).trans calls, has⟩

theorem typed_operation {builder middle : Builder} {types more : List Ty} {op : BinaryOp}
    {ty result : Ty} {left right : ValueId} (leftHas : middle.Has more left ty)
    (rightHas : middle.Has more right ty)
    (gives : (op.isArithmetic = true ∧ ∃ width, ty = .uint width ∧ result = .uint width) ∨
      (op.isArithmetic = false ∧ result = .bool))
    (span : Span) (adds : builder.Adds types middle more) :
    ∃ most, builder.Adds types ({ middle with nextValue := middle.nextValue + 1 }.emit
        (.binary middle.nextValue op ty left right) span) most ∧
      ({ middle with nextValue := middle.nextValue + 1 }.emit
        (.binary middle.nextValue op ty left right) span).Has most
        middle.nextValue result := by
  have reads : ∀ value ∈ (Instruction.binary middle.nextValue op ty left right).operands,
      middle.Held value := by
    simpa [Instruction.operands] using ⟨leftHas.2, rightHas.2⟩
  have fits : Instruction.Typed middle.declared middle.locals (more ++ [result])
      (.binary middle.nextValue op ty left right) := by
    rcases gives with ⟨arithmetic, width, rfl, rfl⟩ | ⟨relation, rfl⟩
    · exact .arithmetic arithmetic (leftHas.behind _) (rightHas.behind _) (adds.typed.newest _)
    · exact .relation relation (leftHas.behind _) (rightHas.behind _) (adds.typed.newest _)
  obtain ⟨computes, has⟩ := adds.typed.define span rfl fits reads
  exact ⟨_, adds.trans computes, has⟩

mutual

/-- Lowering an expression gives its value the type that it is said to have. -/
theorem typed_expression :
    ∀ (source : Expression) (expected : Option Ty) {builder final : Builder} {types : List Ty}
      {result : ValueId × Ty},
      builder.Typed types → expression source expected builder = .ok result final →
        ∃ more, builder.Adds types final more ∧ final.Has more result.1 result.2
  | .int span digits radix, expected, builder, final, types, result, typed, built => by
    simp only [expression, literal, ite_eq_ok, bind_eq_ok, fresh_eq_ok, emit_eq_ok, fail_eq_ok,
      pure_eq_ok, and_false, or_false] at built
    obtain ⟨small, _, _, ⟨rfl, rfl⟩, _, _, rfl, rfl, rfl⟩ := built
    exact ⟨_, typed.define span rfl (.const (typed.newest _) small)
      (by simp [Instruction.operands])⟩
  | .bool span truth, expected, builder, final, types, result, typed, built => by
    simp only [expression, bind_eq_ok, fresh_eq_ok, emit_eq_ok, pure_eq_ok] at built
    obtain ⟨_, _, ⟨rfl, rfl⟩, _, _, rfl, rfl, rfl⟩ := built
    have small : (if truth = true then 1 else 0) < Ty.bool.bound := by cases truth <;> decide
    exact ⟨_, typed.define span rfl (.const (typed.newest _) small)
      (by simp [Instruction.operands])⟩
  | .str span text, expected, builder, final, types, result, typed, built => by
      simp [expression, fail_eq_ok] at built
  | .var span name, expected, builder, final, types, result, typed, built => by
    simp only [expression, bind_eq_ok, localNamed_eq_ok, fresh_eq_ok, emit_eq_ok, get_eq_ok,
      pure_eq_ok] at built
    obtain ⟨slot, _, ⟨found, rfl⟩, _, _, ⟨rfl, rfl⟩, _, _, rfl, _, _, ⟨rfl, rfl⟩, rfl, rfl⟩ := built
    obtain ⟨entry, declared, same⟩ := typed.localType found
    obtain ⟨adds, has⟩ := typed.define span rfl (.loadLocal declared (typed.newest entry.ty))
      (by simp [Instruction.operands])
    refine ⟨_, adds, ?_⟩
    dsimp only
    change Builder.Has _ (types ++ [entry.ty]) builder.nextValue (builder.localType slot)
    rw [same]
    exact has
  | .field span field, expected, builder, final, types, result, typed, built => by
    simp only [expression, bind_eq_ok, scalarType_eq_ok, fresh_eq_ok, emit_eq_ok,
      pure_eq_ok] at built
    obtain ⟨ty, _, ⟨found, scalar, rfl⟩, _, _, ⟨rfl, rfl⟩, _, _, rfl, rfl, rfl⟩ := built
    have content : ty.content = ty := by cases ty <;> first | rfl | simp [Ty.isMap] at scalar
    refine ⟨_, typed.define span rfl (.loadField found (.scalar scalar) ?_)
      (by simp [Instruction.operands])⟩
    rw [content]
    exact typed.newest ty
  | .mapIndex span field key, expected, builder, final, types, result, typed, built => by
    simp only [expression, bind_eq_ok, entryTypes_eq_ok, withType_eq_ok, fresh_eq_ok, emit_eq_ok,
      pure_eq_ok] at built
    obtain ⟨⟨keyTy, valueTy⟩, _, ⟨found, rfl⟩, id, middle, lowered, _, _, ⟨rfl, rfl⟩, _, _, rfl,
      rfl, rfl⟩ := built
    obtain ⟨more, adds, has⟩ := typed_expression key (some keyTy) typed lowered
    rw [← adds.scope] at found
    obtain ⟨loads, held⟩ := adds.typed.define span rfl
      (.loadField found (.entry (has.behind valueTy)) (adds.typed.newest valueTy))
      (by simpa [Instruction.operands] using has.2)
    exact ⟨_, adds.trans loads, held⟩
  | .selfCall span function args, expected, builder, final, types, result, typed, built => by
    simp only [expression, bind_eq_ok] at built
    obtain ⟨called, middle, lowered, built⟩ := built
    cases called with
    | none => simp [fail_eq_ok] at built
    | some found =>
      simp only [pure_eq_ok] at built
      obtain ⟨rfl, rfl⟩ := built
      obtain ⟨more, adds, held⟩ := typed_selfCall
        (fun expected ids middle count lowered => typed_arguments args expected typed count lowered)
        lowered
      exact ⟨more, adds, held found rfl⟩
  | .env span var, expected, builder, final, types, result, typed, built => by
    simp only [expression, bind_eq_ok, fresh_eq_ok, emit_eq_ok, pure_eq_ok] at built
    obtain ⟨_, _, ⟨rfl, rfl⟩, _, _, rfl, rfl, rfl⟩ := built
    exact ⟨_, typed.define span rfl (.env (typed.newest _)) (by simp [Instruction.operands])⟩
  | .externalCall span .call target amount, expected, builder, final, types, result,
      typed, built => by
    simp only [expression, bind_eq_ok, pure_eq_ok] at built
    obtain ⟨id, middle, called, rfl, rfl⟩ := built
    exact typed_externalCall (fun lowered => typed_expression target (some .address) typed
      (withType_eq_ok.mp lowered))
      (fun known lowered => typed_expression amount (some .defaultInteger) known
        (withType_eq_ok.mp lowered)) called
  | .externalCall span .transfer target amount, expected, builder, final, types, result,
      typed, built => by
    simp [expression, fail_eq_ok] at built
  | .binary span op lhs rhs, expected, builder, final, types, result, typed, built => by
    simp only [expression, ite_eq_ok] at built
    rcases built with ⟨logical, built⟩ | ⟨plain, built⟩
    · simp only [bind_eq_ok, booleanOperand_eq_ok, fresh_eq_ok, emit_eq_ok, pure_eq_ok] at built
      obtain ⟨left, middle, first, right, last, second, _, _, ⟨rfl, rfl⟩, _, _, rfl, rfl, rfl⟩ :=
        built
      obtain ⟨more, adds, leftHas⟩ := typed_expression lhs (some .bool) typed first
      obtain ⟨most, further, rightHas⟩ := typed_expression rhs (some .bool) adds.typed second
      have other : op.isArithmetic = false := by
        cases op <;> simp_all [BinaryOp.isLogical, BinaryOp.isArithmetic]
      exact typed_operation (leftHas.adds further) rightHas (.inr ⟨other, rfl⟩) span
        (adds.trans further)
    · simp only [bind_eq_ok, get_eq_ok, operation, ite_eq_ok, fail_eq_ok, and_false, false_or,
        fresh_eq_ok, emit_eq_ok, pure_eq_ok] at built
      obtain ⟨_, _, ⟨rfl, rfl⟩, ⟨left, ty⟩, middle, first, ⟨right, rightTy⟩, last, second, same,
        integer, _, _, ⟨rfl, rfl⟩, _, _, rfl, rfl, rfl⟩ := built
      obtain rfl : ty = rightTy := by simpa using same
      obtain ⟨more, adds, leftHas⟩ := typed_expression lhs _ typed first
      obtain ⟨most, further, rightHas⟩ := typed_expression rhs (some ty) adds.typed second
      cases arithmetic : op.isArithmetic with
      | true =>
        obtain ⟨width, rfl⟩ : ∃ width, ty = .uint width := by
          cases ty with
          | uint width => exact ⟨width, rfl⟩
          | _ => cases op <;> simp_all [Ty.isInteger, BinaryOp.isArithmetic]
        exact typed_operation (leftHas.adds further) rightHas
          (.inl ⟨arithmetic, width, rfl, rfl⟩) span (adds.trans further)
      | false =>
        exact typed_operation (leftHas.adds further) rightHas (.inr ⟨arithmetic, rfl⟩) span
          (adds.trans further)
  | .not span operand, expected, builder, final, types, result, typed, built => by
    simp only [expression, bind_eq_ok, booleanOperand_eq_ok, fresh_eq_ok, emit_eq_ok,
      pure_eq_ok] at built
    obtain ⟨id, middle, lowered, _, _, ⟨rfl, rfl⟩, _, _, rfl, rfl, rfl⟩ := built
    obtain ⟨more, adds, has⟩ := typed_expression operand (some .bool) typed lowered
    obtain ⟨negates, held⟩ := adds.typed.define span rfl
      (.not (has.behind .bool) (adds.typed.newest .bool))
      (by simpa [Instruction.operands] using has.2)
    exact ⟨_, adds.trans negates, held⟩

theorem typed_arguments :
    ∀ (sources : List Expression) (expected : List Ty) {builder final : Builder} {types : List Ty}
      {ids : List ValueId},
      builder.Typed types → sources.length = expected.length → arguments sources expected builder =
        .ok ids final →
        ∃ more, builder.Adds types final more ∧ List.Forall₂ (final.Has more) ids expected
  | [], [], builder, final, types, ids, typed, count, built => by
    simp only [arguments, pure_eq_ok] at built
    obtain ⟨rfl, rfl⟩ := built
    exact ⟨types, typed.adds, .nil⟩
  | [], _ :: _, builder, final, types, ids, typed, count, built => by simp at count
  | _ :: _, [], builder, final, types, ids, typed, count, built => by simp at count
  | source :: sources, ty :: expected, builder, final, types, ids, typed, count, built => by
    simp only [arguments, bind_eq_ok, withType_eq_ok, pure_eq_ok] at built
    obtain ⟨id, middle, first, others, last, rest, rfl, rfl⟩ := built
    obtain ⟨more, adds, has⟩ := typed_expression source (some ty) typed first
    obtain ⟨most, further, later⟩ :=
      typed_arguments sources expected adds.typed (by simpa using count) rest
    exact ⟨most, adds.trans further, .cons (has.adds further) later⟩

end

end Build

end Covenant
