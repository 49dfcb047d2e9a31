import Covenant.Proofs.Lowering.Standing

/-!
The blocks that statements are lowered to do what the statements mean.
-/

namespace Covenant

namespace Follows

theorem further {α : Type} {setting : Setting} {fuel : Nat} {state : Running} {world : World}
    {meaning : Meaning α} {after final : α → World → Running → Prop}
    (follows : Follows setting fuel state world meaning after)
    (reaches : ∀ result changed next, after result changed next →
      ∃ last, next.Reaches setting last ∧ final result changed last) :
    Follows setting fuel state world meaning final := by
  unfold Follows at follows ⊢
  cases answer : meaning world with
  | none =>
    rw [answer] at follows
    exact follows
  | some answered =>
    rw [answer] at follows
    cases answered with
    | reverts message => exact follows
    | gives result changed =>
      obtain ⟨next, first, holds⟩ := follows
      obtain ⟨last, second, done⟩ := reaches result changed next holds
      exact ⟨last, first.trans second, done⟩

end Follows

def Outcome (setting : Setting) (function : Function) (callers : List Caller) (final : Builder)
    (result : Flow × Scopes) (world : World) (state : Running) : Prop :=
  match result.1 with
  | .next => final.IsOpen ∧ Stands function callers final result.2 world state
  | .returned value => state.Returns setting callers value world

namespace Link

def KnowsEvents (link : Link) (builder : Builder) : Prop :=
  ∀ name types, builder.events.types? name = some types → link.around.eventTypes? name = some types

structure Compiles (link : Link) (function : Function) (returns : Option Ty) (body : Build Unit)
    (meaning : Effectful) : Prop where
  grows : ∀ {builder final : Builder}, builder.scope = link.scope → builder.IsOpen →
    body builder = .ok () final → Builder.Grows builder.blocks.length builder final
  follows :
    ∀ {builder final : Builder} {scopes : Scopes} {world : World} {callers : List Caller}
      {state : Running},
    builder.scope = link.scope → builder.returns = returns → builder.IsOpen →
      body builder = .ok () final →
    function.Embeds final → link.KnowsEvents final →
    Stands function callers builder scopes world state →
    Follows link.setting link.fuel state world (meaning scopes)
      (Outcome link.setting function callers final)

structure CompilesBlock (link : Link) (function : Function) (returns : Option Ty)
    (body : Build Unit) (meaning : Effectful) :
    Prop extends link.Compiles function returns body meaning where
  restores : ∀ {builder final : Builder}, builder.scope = link.scope → builder.IsOpen →
    body builder = .ok () final → final.visible = builder.visible

variable {link : Link} {function : Function} {returns : Option Ty}

theorem KnowsEvents.of_grows {limit : Nat} {builder final : Builder}
    (knows : link.KnowsEvents final) (grows : Builder.Grows limit builder final) :
    link.KnowsEvents builder :=
  fun name types found => knows name types (grows.events.kept name types found)

/-! Straight code. -/

theorem Computes.scope {α : Type} {code : List (Located Instruction)} {builder final : Builder}
    {needs : Frame → Prop} {meaning : Scopes → Meaning α} {holds : Frame → α → Prop}
    (computes : link.Computes code builder final needs meaning holds) :
    final.scope = builder.scope := by
  rw [computes.emits.same]
  rfl

open Build in
theorem computes_typed {builder final : Builder} {source : Expression} {ty : Ty} {id : ValueId}
    (scope : builder.scope = link.scope) (built : typed source ty builder = .ok id final) :
    link.ComputesValue builder final id fun scopes => link.around.value link.call scopes source
      (some ty) := by
  simp only [typed, withType_eq_ok] at built
  exact computes_expression link source (some ty) scope built

/-- Code without branches that does all that a statement means. The statement may make events known.
-/
theorem compiles_of_computes {body : Build Unit} {meaning : Scopes → Meaning Unit}
    (computes : ∀ {builder final : Builder}, builder.scope = link.scope →
      body builder = .ok () final →
      builder.events.Extends final.events ∧ ∃ code,
        builder.Emits code { final with events := builder.events } ∧
        (link.KnowsEvents final → link.Computes code builder { final with events := builder.events }
          (fun _ => True)
          meaning fun _ _ => True)) :
    link.Compiles function returns body fun scopes => do
      meaning scopes
      return (.next, scopes) where
  grows := by
    intro builder final scope running built
    obtain ⟨events, code, emits, _⟩ := computes scope built
    have grows := emits.grows running builder.blocks.length
    exact ⟨grows.scope, grows.returns, grows.outer, grows.locals, grows.values, events,
      grows.blocks, grows.others, grows.current, grows.inside⟩
  follows := by
    intro builder final scopes world callers state scope _ running built embeds knows stands
    obtain ⟨_, code, emits, computing⟩ := computes scope built
    have straight := computing knows
    have stillOpen : final.IsOpen := emits.isOpen running
    have inner : function.Embeds { final with events := builder.events } :=
      ⟨embeds.locals, embeds.blocks⟩
    refine (stands.computes straight trivial running inner).bind ?_
    rintro _ changed next ⟨arrived, _⟩
    exact .give ⟨stillOpen, arrived.within, arrived.room, arrived.place,
      ⟨arrived.kept.names, arrived.kept.distinct⟩, arrived.shown, arrived.waiting⟩

theorem compiles_of_straight {body : Build Unit} {meaning : Scopes → Meaning Unit}
    (computes : ∀ {builder final : Builder}, builder.scope = link.scope →
      body builder = .ok () final →
      ∃ code, link.Computes code builder final (fun _ => True) meaning fun _ _ => True) :
    link.Compiles function returns body fun scopes => do
      meaning scopes
      return (.next, scopes) := by
  refine compiles_of_computes ?_
  intro builder final scope built
  obtain ⟨code, straight⟩ := computes scope built
  have events : final.events = builder.events := by
    rw [straight.emits.same]
    rfl
  have same : { final with events := builder.events } = final := by rw [← events]
  rw [same, events]
  exact ⟨.refl _, code, straight.emits, fun _ => straight⟩

theorem Compiles.congr {body : Build Unit} {meaning other : Effectful}
    (compiles : link.Compiles function returns body meaning) (same : other = meaning) :
    link.Compiles function returns body other := same ▸ compiles

theorem compiles_of_fails {body : Build Unit} {meaning : Effectful}
    (fails : ∀ builder final, body builder ≠ .ok () final) :
    link.Compiles function returns body meaning where
  grows := fun _ _ built => absurd built (fails _ _)
  follows := fun _ _ _ built => absurd built (fails _ _)

/-! Events. -/

/-- An expression means the same whether or not the type that it has by itself is expected of it. -/
theorem value_ownType (around : Surroundings) (call : Surroundings.Calls) (scopes : Scopes) :
    ∀ source : Expression,
      around.typeOf scopes source (some (around.typeOf scopes source none)) =
        around.typeOf scopes source none ∧
      around.value call scopes source (some (around.typeOf scopes source none)) =
        around.value call scopes source none
  | .int span digits radix => ⟨rfl, rfl⟩
  | .bool span truth => ⟨rfl, rfl⟩
  | .str span text => ⟨rfl, rfl⟩
  | .var span name => ⟨rfl, rfl⟩
  | .field span field => ⟨rfl, rfl⟩
  | .mapIndex span field key => ⟨rfl, by simp only [Surroundings.value]⟩
  | .selfCall span function args => ⟨rfl, by simp only [Surroundings.value]⟩
  | .env span var => ⟨rfl, rfl⟩
  | .externalCall span kind target amount => ⟨rfl, by simp only [Surroundings.value]⟩
  | .not span operand => ⟨rfl, by simp only [Surroundings.value]⟩
  | .binary span op lhs rhs => by
    have inner := value_ownType around call scopes lhs
    cases hint : (around.hint? scopes lhs).or (around.hint? scopes rhs) with
    | some ty =>
      have same (expected : Option Ty) : around.operandHint? scopes op lhs rhs expected =
          around.operandHint? scopes op lhs rhs none := by
        simp [Surroundings.operandHint?, hint]
      constructor
      · simp only [Surroundings.typeOf, same (some _)]
      · simp only [Surroundings.value, Surroundings.operandType, same (some _)]
    | none =>
      cases arithmetic : op.isArithmetic with
      | false =>
        have same (expected : Option Ty) : around.operandHint? scopes op lhs rhs expected =
            around.operandHint? scopes op lhs rhs none := by
          simp [Surroundings.operandHint?, hint, arithmetic]
        constructor
        · simp only [Surroundings.typeOf, same (some _)]
        · simp only [Surroundings.value, Surroundings.operandType, same (some _)]
      | true =>
        have plain : op.isLogical = false := by
          cases op <;> simp_all [BinaryOp.isLogical, BinaryOp.isArithmetic]
        have same (expected : Option Ty) : around.operandHint? scopes op lhs rhs expected =
            expected := by
          simp [Surroundings.operandHint?, hint, arithmetic, plain]
        have own : around.typeOf scopes (.binary span op lhs rhs) none =
            around.typeOf scopes lhs none := by
          simp only [Surroundings.typeOf, arithmetic, if_true, same]
        rw [own]
        constructor
        · simp only [Surroundings.typeOf, arithmetic, if_true, same]
          exact inner.1
        · simp only [Surroundings.value, Surroundings.operandType, plain, Bool.false_eq_true,
            if_false, same, inner.1, inner.2]

open Build in
/-- The arguments of an event that was not known, lowered at the types that they have by themselves.
-/
theorem computes_implied :
    ∀ (sources : List Expression) {builder final : Builder} {results : List (ValueId × Ty)},
    builder.scope = link.scope → (sources.mapM fun source => expression source none) builder =
      .ok results final →
      link.ComputesValues builder final (results.map Prod.fst)
        fun scopes => link.around.values link.call scopes sources (results.map Prod.snd)
  | [], builder, final, results, scope, built => by
    simp only [List.mapM_nil, pure_eq_ok] at built
    obtain ⟨rfl, rfl⟩ := built
    exact ⟨by simp, [], .give builder _ fun _ _ => .nil⟩
  | source :: sources, builder, final, results, scope, built => by
    simp only [List.mapM_cons, bind_eq_ok, pure_eq_ok] at built
    obtain ⟨⟨id, ty⟩, middle, first, others, last, rest, rfl, rfl⟩ := built
    obtain ⟨small, code, computes⟩ := computes_expression link source none scope first
    obtain ⟨smaller, more, further⟩ := computes_implied sources (computes.scope.trans scope) rest
    have own : link.Computes code builder middle (fun _ => True)
        (fun scopes => link.around.value link.call scopes source (some ty)) fun frame value =>
        frame.Holds id value := by
      refine computes.congr fun scopes cells kept => ?_
      have typed := expression_type (scope ▸ link.knows) kept source none first
      dsimp only at typed
      rw [typed]
      exact (value_ownType link.around link.call scopes source).2
    refine ⟨?_, code ++ (more ++ []), ?_⟩
    · intro other member
      rcases List.mem_cons.mp member with rfl | later
      · exact Nat.lt_of_lt_of_le small further.emits.fresh
      · exact smaller other later
    · exact own.bind fun head => (further.keepValue small).bind fun tail =>
        Computes.give last _ fun frame held => .cons held.1 held.2

open Build in
theorem compiles_emission (event : Ident) (args : List Expression) (span : Span) :
    link.Compiles function returns (emission event args span) fun scopes => do
      let types ← Meaning.known (link.around.eventTypes? event.name)
      let given ← link.around.values link.call scopes args types
      Meaning.emit event.name given
      return (.next, scopes) := by
  have straight : link.Compiles function returns (emission event args span) fun scopes => do
      (do
        let types ← Meaning.known (link.around.eventTypes? event.name)
        let given ← link.around.values link.call scopes args types
        Meaning.emit event.name given)
      return (.next, scopes) := by
    refine compiles_of_computes ?_
    intro builder final scope built
    simp only [emission, bind_eq_ok, get_eq_ok] at built
    obtain ⟨_, _, ⟨rfl, rfl⟩, built⟩ := built
    cases found : builder.events.types? event.name with
    | some types =>
      simp only [found, ite_eq_ok, fail_eq_ok, and_false, false_or, bind_eq_ok, emit_eq_ok] at built
      obtain ⟨_, ids, middle, lowered, rfl⟩ := built
      obtain ⟨_, small, code, computes⟩ := computes_arguments link args types scope lowered
      have whole := computes.bind fun given => computes_emit middle span event.name ids given
        fun _ held => held
      have events : (middle.emit (.emit event.name ids) span).events = builder.events := by
        change middle.events = _
        rw [computes.emits.same]
        rfl
      have same : { middle.emit (.emit event.name ids) span with events := builder.events } =
          middle.emit (.emit event.name ids) span := by rw [← events]
      rw [same]
      refine ⟨by rw [events]; exact .refl _, _, whole.emits, fun knows => ?_⟩
      have declared := knows event.name types (by rw [events]; exact found)
      refine whole.congr fun scopes cells _ => ?_
      rw [declared]
      rfl
    | none =>
      simp only [found, bind_eq_ok, modify_eq_ok, emit_eq_ok] at built
      obtain ⟨results, middle, lowered, _, _, rfl, rfl⟩ := built
      obtain ⟨small, code, computes⟩ := computes_implied args scope lowered
      have whole := computes.bind fun given =>
        computes_emit middle span event.name (results.map Prod.fst) given fun _ held => held
      have before : middle.events = builder.events := by
        rw [computes.emits.same]
        rfl
      have same :
          { (({ middle with
            events := middle.events.imply event.name (results.map Prod.snd) } : Builder).emit
            (.emit event.name (results.map Prod.fst)) span) with events := builder.events } =
          middle.emit (.emit event.name (results.map Prod.fst)) span := by
        rw [← before]
        rfl
      rw [same]
      refine ⟨?_, _, whole.emits, fun knows => ?_⟩
      · change builder.events.Extends (middle.events.imply event.name (results.map Prod.snd))
        rw [before]
        exact EventScope.extends_imply found _
      · have declared := knows event.name (results.map Prod.snd) (by
          change ((middle.events.imply event.name (results.map Prod.snd)).types? event.name) = _
          simp [EventScope.imply, EventScope.types?])
        refine whole.congr fun scopes cells _ => ?_
        rw [declared]
        rfl
  exact straight.congr (by simp only [bind_assoc])

/-! Calls as statements. -/

open Build in
theorem compiles_callStatement (source : Expression) (span : Span) :
    link.Compiles function returns (callStatement source)
      (link.around.statement link.call link.fuel returns (.expression span source)) := by
  cases source with
  | selfCall inner name args =>
    have straight : link.Compiles function returns (callStatement (.selfCall inner name args))
      fun scopes => do
        (do
          let given ← link.around.values link.call scopes args (link.around.paramTypes name.name)
          let _ ← link.call name.name given
          return ())
        return (.next, scopes) := by
      refine compiles_of_straight ?_
      intro builder final scope built
      simp only [callStatement, bind_eq_ok, pure_eq_ok] at built
      obtain ⟨result, last, lowered, _, rfl⟩ := built
      obtain ⟨_, code, computes⟩ := computes_selfCall scope
        (fun types ids middle => computes_arguments link args types scope) lowered
      refine ⟨code, computes.ignore.congr fun scopes cells _ => ?_⟩
      simp only [bind_assoc]
    exact straight.congr (by simp only [Surroundings.statement, bind_assoc, pure_bind])
  | externalCall inner kind target amount =>
    have straight :
      link.Compiles function returns (callStatement (.externalCall inner kind target amount))
        fun scopes => do
          (do
            let receiver ← link.around.value link.call scopes target (some .address)
            let sent ← link.around.value link.call scopes amount (some .defaultInteger)
            let _ ← Meaning.callOut link.around.callsSucceed kind receiver sent
            return ())
          return (.next, scopes) := by
      refine compiles_of_straight ?_
      intro builder final scope built
      simp only [callStatement, externalCall, bind_eq_ok, fresh_eq_ok, emit_eq_ok,
        pure_eq_ok] at built
      obtain ⟨_, _, ⟨receiver, middle, first, sent, last, second, _, _, ⟨rfl, rfl⟩, _, _, rfl, rfl,
        rfl⟩, _, rfl⟩ := built
      obtain ⟨small, code, computes⟩ := computes_typed scope first
      obtain ⟨_, more, further⟩ := computes_typed (computes.scope.trans scope) second
      have whole := computes.bind fun left => (further.keepValue small).bind fun right =>
        computes_externalCall last inner kind receiver sent left right fun _ held => held
      refine ⟨_, whole.ignore.congr fun scopes cells _ => ?_⟩
      simp only [bind_assoc]
    exact straight.congr
      (by simp only [Surroundings.statement, Surroundings.value, bind_assoc, pure_bind])
  | _ =>
    exact compiles_of_fails fun builder final built => by simp [callStatement, fail_eq_ok] at built

/-! Ends of blocks. -/

theorem compiles_revert (message : Option String) (span : Span) :
    link.Compiles function returns (Build.terminate (.revert message) span) fun _ =>
      Meaning.revert message where
  grows := by
    intro builder final _ _ built
    rw [Build.terminate_eq_ok] at built
    subst built
    exact Builder.grows_terminate _ _ _
  follows := by
    intro builder final scopes world callers state _ _ running built embeds _ stands
    rw [Build.terminate_eq_ok] at built
    subst built
    exact stands.revert running embeds

open Build in
theorem compiles_returnStatement (value : Option Expression) (span : Span) :
    link.Compiles function returns (returnStatement value span)
      (link.around.statement link.call link.fuel returns (.ret span value)) where
  grows := by
    intro builder final scope running built
    simp only [returnStatement, bind_eq_ok, get_eq_ok] at built
    obtain ⟨_, _, ⟨rfl, rfl⟩, built⟩ := built
    cases value with
    | none =>
      cases returned : builder.returns with
      | none =>
        simp only [returned, terminate_eq_ok] at built
        subst built
        exact Builder.grows_terminate _ _ _
      | some ty => simp [returned, fail_eq_ok] at built
    | some source =>
      cases returned : builder.returns with
      | none => simp [returned, fail_eq_ok] at built
      | some ty =>
        simp only [returned, bind_eq_ok, terminate_eq_ok] at built
        obtain ⟨id, middle, lowered, rfl⟩ := built
        obtain ⟨_, code, computes⟩ := computes_typed scope lowered
        exact (computes.emits.grows running _).trans (Builder.grows_terminate _ _ _)
  follows := by
    intro builder final scopes world callers state scope same running built embeds _ stands
    simp only [returnStatement, bind_eq_ok, get_eq_ok] at built
    obtain ⟨_, _, ⟨rfl, rfl⟩, built⟩ := built
    cases value with
    | none =>
      cases returns with
      | none =>
        simp only [same, terminate_eq_ok] at built
        subst built
        exact .give (stands.ret_none running embeds)
      | some ty => simp [same, fail_eq_ok] at built
    | some source =>
      cases returns with
      | none => simp [same, fail_eq_ok] at built
      | some ty =>
        simp only [same, bind_eq_ok, terminate_eq_ok] at built
        obtain ⟨id, middle, lowered, rfl⟩ := built
        obtain ⟨_, code, computes⟩ := computes_typed scope lowered
        have inner := embeds.of_terminate
        refine (stands.computes computes trivial running inner).bind ?_
        rintro result changed next ⟨arrived, held⟩
        exact .give (arrived.ret_some (computes.emits.isOpen running) held embeds)

/-! Conditions that must hold. -/

open Build in
theorem compiles_guardStatement (condition : Expression) (kind : GuardKind)
    (message : Option String) (span : Span) :
    link.Compiles function returns (guardStatement condition kind message span)
      fun scopes => link.around.guarded link.call scopes condition message where
  grows := by
    intro builder final scope running built
    simp only [guardStatement, bind_eq_ok, newBlock_eq_ok, terminate_eq_ok, switchTo_eq_ok] at built
    obtain ⟨id, middle, lowered, _, _, ⟨rfl, rfl⟩, _, _, rfl, rfl⟩ := built
    obtain ⟨_, code, computes⟩ := computes_typed scope lowered
    have length := computes.emits.length
    refine (computes.emits.grows running _).trans
      ((Builder.grows_withBlock middle (Nat.le_of_eq length.symm)).trans
        ((Builder.grows_terminate _ _ _).trans
          (Builder.grows_moveTo _ (Nat.le_of_eq length.symm) ?_)))
    simp
  follows := by
    intro builder final scopes world callers state scope _ running built embeds _ stands
    simp only [guardStatement, bind_eq_ok, newBlock_eq_ok, terminate_eq_ok, switchTo_eq_ok] at built
    obtain ⟨id, middle, lowered, _, _, ⟨rfl, rfl⟩, _, _, rfl, rfl⟩ := built
    obtain ⟨_, code, computes⟩ := computes_typed scope lowered
    have ends := embeds.of_moveTo
    have middleOpen := computes.emits.isOpen running
    refine (stands.computes computes trivial running ends.of_terminate.of_withBlock).bind ?_
    rintro truth changed next ⟨arrived, held⟩
    cases passes : truth != 0 with
    | true =>
      have blank := (Builder.isBlank_withBlock middle).terminate (Nat.ne_of_gt middleOpen.inside)
        (.guard id kind message middle.blocks.length) span
      obtain ⟨last, leads, there⟩ := arrived.withBlock.guard_passed middleOpen.withBlock held passes
        ends embeds blank (arrived.kept.outer rfl (List.prefix_refl _))
      simp only [if_true]
      exact .of_reaches leads.reaches (.give ⟨blank.isOpen, there⟩)
    | false =>
      simp only [Bool.false_eq_true, if_false]
      exact arrived.withBlock.guard_failed middleOpen.withBlock held passes ends

/-! Variables. -/

open Build in
theorem compiles_declaration (name : Ident) (written : Option TypeExpr) (source : Expression)
    (span : Span) :
    link.Compiles function returns (declaration name written source span)
      fun scopes => link.around.declaration link.call scopes name written source := by
  have lowered {builder final : Builder} (scope : builder.scope = link.scope)
      (built : declaration name written source span builder = .ok () final) :
      ∃ id ty middle code, id < middle.nextValue ∧
        link.Computes code builder middle (fun _ => True)
          (fun scopes => link.around.value link.call scopes source (written.map Ty.ofExpr))
          (fun frame value => frame.Holds id value) ∧
        (∀ scopes cells, scopes.KeptIn builder cells →
          (written.map Ty.ofExpr).getD (link.around.typeOf scopes source none) = ty) ∧
        final = (middle.addLocal name.name ty).emit (.storeLocal middle.locals.length id) span := by
    cases written with
    | none =>
      simp only [declaration, bind_eq_ok, declare_eq_ok, emit_eq_ok] at built
      obtain ⟨⟨id, ty⟩, middle, first, _, _, ⟨_, rfl, rfl⟩, rfl⟩ := built
      obtain ⟨small, code, computes⟩ := computes_expression link source none scope first
      refine ⟨id, ty, middle, code, small, computes, fun scopes cells kept => ?_, rfl⟩
      exact (expression_type (scope ▸ link.knows) kept source none first).symm
    | some expr =>
      simp only [declaration, ite_eq_ok, bind_eq_ok, fail_eq_ok, false_and, exists_false, and_false,
        false_or, pure_eq_ok, declare_eq_ok, emit_eq_ok] at built
      obtain ⟨_, id, middle, first, _, _, ⟨rfl, rfl⟩, _, _, ⟨_, rfl, rfl⟩, rfl⟩ := built
      obtain ⟨small, code, computes⟩ := computes_typed scope first
      exact ⟨id, Ty.ofExpr expr, middle, code, small, computes, fun _ _ _ => rfl, rfl⟩
  constructor
  · intro builder final scope running built
    obtain ⟨id, ty, middle, code, _, computes, _, rfl⟩ := lowered scope built
    have declared : (middle.addLocal name.name ty).IsOpen := computes.emits.isOpen running
    exact (computes.emits.grows running _).trans ((Builder.grows_addLocal middle name.name ty).trans
      ((Builder.Emits.emit _ _ span).grows declared _))
  · intro builder final scopes world callers state scope _ running built embeds _ stands
    obtain ⟨id, ty, middle, code, _, computes, typed, rfl⟩ := lowered scope built
    have middleOpen : middle.IsOpen := computes.emits.isOpen running
    have declared : (middle.addLocal name.name ty).IsOpen := middleOpen
    have grows := (Builder.grows_addLocal middle name.name ty).trans
      ((Builder.Emits.emit (middle.addLocal name.name ty)
        (.storeLocal middle.locals.length id) span).grows declared 0)
    have inner : function.Embeds middle := grows.embeds embeds
    refine (stands.computes computes trivial running inner).bind ?_
    rintro value changed next ⟨arrived, held⟩
    have room : middle.locals.length < function.locals.length := by
      have fits := embeds.locals.length_le
      simp only [Builder.emit, Builder.addLocal, List.length_append, List.length_singleton] at fits
      exact fits
    have kept (cell : Cell) (same : cell.value = value) :
        (scopes.declare name.name ⟨ty, value⟩).KeptIn
        ((middle.addLocal name.name ty).emit (.storeLocal middle.locals.length id) span)
        (next.frame.locals.set middle.locals.length cell) := by
      subst same
      exact (arrived.kept.declare name.name ty cell (Nat.lt_of_lt_of_le room arrived.room)).outer
        rfl (List.prefix_refl _)
    obtain ⟨last, leads, there⟩ := arrived.storeLocal middleOpen held span
      ((middle.addLocal name.name ty).emit (.storeLocal middle.locals.length id) span) rfl rfl
      embeds room kept
    rw [typed scopes _ stands.kept]
    exact .of_reaches leads.reaches (.give ⟨(Builder.Emits.emit _ _ span).isOpen declared, there⟩)

end Link

end Covenant
