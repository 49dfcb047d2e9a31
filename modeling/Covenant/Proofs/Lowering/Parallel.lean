import Covenant.Proofs.Lowering.Events

/-!
Building a function twice, with different events known beforehand. Only statements that emit an
event look at what is known, so both attempts go alike as long as they agree on the events that the
function emits.
-/

namespace Covenant

def Builder.withEvents (builder : Builder) (events : EventScope) : Builder :=
  { builder with events }

namespace Build

section Rules

variable {α β : Type} {alike : EventScope → EventScope → Prop}

/-- Whether two attempts both give the same value, or both fail with the same problem, which names
the function. What they leave behind is the same apart from the events, which are alike. -/
inductive Together (alike : EventScope → EventScope → Prop) (name : String) :
    EStateM.Result SemanticError Builder α → EStateM.Result SemanticError Builder α → Prop
  | ok {value final events} : alike final.events events → final.function = name →
      Together alike name (.ok value final) (.ok value (final.withEvents events))
  | error {problem final events} : alike final.events events → problem.function = some name →
      Together alike name (.error problem final) (.error problem (final.withEvents events))

def Parallel (alike : EventScope → EventScope → Prop) (step : Build α) : Prop :=
  ∀ (builder : Builder) (events : EventScope), alike builder.events events →
    Together alike builder.function (step builder) (step (builder.withEvents events))

theorem parallel_pure (value : α) : Parallel alike (pure value) :=
  fun _ _ related => .ok related rfl

theorem parallel_fail (cause : SemanticCause) (span : Span) :
    Parallel alike (fail cause span : Build α) :=
  fun _ _ related => .error related rfl

theorem Parallel.bind {step : Build α} {next : α → Build β} (first : Parallel alike step)
    (second : ∀ value, Parallel alike (next value)) : Parallel alike (step >>= next) := by
  intro builder events related
  have stepped := first builder events related
  simp only [Bind.bind, EStateM.bind]
  generalize step builder = left, step (builder.withEvents events) = right at stepped
  cases stepped with
  | @ok value final others further same =>
    rw [← same]
    exact second value final others further
  | error further named => exact .error further named

theorem parallel_get {next : Builder → Build α}
    (same : ∀ (builder : Builder) (events : EventScope), next (builder.withEvents events) =
      next builder)
    (second : ∀ builder, Parallel alike (next builder)) : Parallel alike (get >>= next) := by
  intro builder events related
  have looks : (get >>= next) (builder.withEvents events) = next builder
      (builder.withEvents events) :=
    congrFun (same builder events) _
  rw [looks]
  exact second builder builder events related

theorem parallel_ite {condition : Prop} [Decidable condition] {first second : Build α}
    (yes : Parallel alike first) (no : Parallel alike second) :
    Parallel alike (if condition then first else second) := by
  split
  · exact yes
  · exact no

theorem parallel_modify {change : Builder → Builder}
    (same : ∀ (builder : Builder) (events : EventScope),
      change (builder.withEvents events) = (change builder).withEvents events)
    (kept : ∀ builder, (change builder).events = builder.events ∧ (change builder).function =
      builder.function) :
    Parallel alike (modify change : Build PUnit) := by
  intro builder events related
  have changed :
      (modify change : Build PUnit) (builder.withEvents events) =
        .ok () ((change builder).withEvents events) :=
    congrArg (EStateM.Result.ok ()) (same builder events)
  rw [changed]
  exact .ok ((kept builder).1 ▸ related) (kept builder).2

end Rules

section Expressions

variable {α : Type} {alike : EventScope → EventScope → Prop}

theorem parallel_emit (instruction : Instruction) (span : Span) :
    Parallel alike (emit instruction span) :=
  parallel_modify (fun _ _ => rfl) fun _ => ⟨rfl, rfl⟩

theorem parallel_fresh : Parallel alike fresh := fun _ _ related => .ok related rfl

theorem parallel_localNamed (name : Ident) : Parallel alike (localNamed name) :=
  parallel_get (fun _ _ => rfl) fun builder => by
    cases builder.find? name.name with
    | none => exact parallel_fail _ _
    | some slot => exact parallel_pure _

theorem parallel_fieldType (field : Ident) : Parallel alike (fieldType field) :=
  parallel_get (fun _ _ => rfl) fun builder => by
    cases builder.scope.field? field.name with
    | none => exact parallel_fail _ _
    | some ty => exact parallel_pure _

theorem parallel_scalarType (field : Ident) : Parallel alike (scalarType field) :=
  (parallel_fieldType field).bind fun _ => parallel_ite (parallel_fail _ _) (parallel_pure _)

theorem parallel_entryTypes (field : Ident) : Parallel alike (entryTypes field) :=
  (parallel_fieldType field).bind fun ty => by
    cases ty with
    | map key value => exact parallel_pure _
    | _ => exact parallel_fail _ _

theorem parallel_withType {value : Build (ValueId × Ty)} (inner : Parallel alike value)
    (expected : Ty) (span : Span) :
    Parallel alike (withType expected span value) :=
  inner.bind fun _ => parallel_ite (parallel_pure _) (parallel_fail _ _)

theorem parallel_booleanOperand {value : Build (ValueId × Ty)} (inner : Parallel alike value)
    (operator : String) (span : Span) : Parallel alike (booleanOperand operator span value) :=
  inner.bind fun _ => parallel_ite (parallel_pure _) (parallel_fail _ _)

theorem parallel_declare (name : Ident) (ty : Ty) : Parallel alike (declare name ty) := by
  intro builder events related
  change Together alike builder.function
    ((if (builder.find? name.name).isSome then fail (.duplicateVariable name.name) name.span
      else set (builder.addLocal name.name ty) >>= fun _ => pure builder.locals.length) builder)
    ((if (builder.find? name.name).isSome then fail (.duplicateVariable name.name) name.span
      else set ((builder.withEvents events).addLocal name.name ty) >>=
        fun _ => pure builder.locals.length) (builder.withEvents events))
  split
  · exact parallel_fail _ _ builder events related
  · have declared :
      Together alike builder.function (.ok builder.locals.length (builder.addLocal name.name ty))
        (.ok builder.locals.length ((builder.addLocal name.name ty).withEvents events)) :=
      .ok related rfl
    exact declared

theorem parallel_define (instruction : ValueId → Instruction) (span : Span) (result : ValueId → α) :
    Parallel alike (do
      let dest ← fresh
      emit (instruction dest) span
      return result dest) :=
  parallel_fresh.bind fun _ => (parallel_emit _ _).bind fun _ => parallel_pure _

theorem parallel_literal (span : Span) (digits : String) (radix : Nat) (expected : Option Ty) :
    Parallel alike (literal span digits radix expected) :=
  parallel_ite (parallel_define _ _ _) (parallel_fail _ _)

theorem parallel_operation {lhs : Build (ValueId × Ty)} {rhs : Ty → Build (ValueId × Ty)}
    (left : Parallel alike lhs) (right : ∀ ty, Parallel alike (rhs ty)) (op : BinaryOp)
    (span rhsSpan : Span) :
    Parallel alike (operation op span rhsSpan lhs rhs) :=
  left.bind fun first => (right first.2).bind fun _ =>
    parallel_ite (parallel_fail _ _) (parallel_ite (parallel_fail _ _) (parallel_define _ _ _))

theorem parallel_selfCall {lower : List Ty → Build (List ValueId)}
    (inner : ∀ expected, Parallel alike (lower expected)) (function : Ident) (count : Nat)
    (span : Span) : Parallel alike (selfCall function count span lower) :=
  parallel_get (fun _ _ => rfl) fun builder => by
    cases builder.scope.signature? function.name with
    | none => exact parallel_fail _ _
    | some signature =>
      refine parallel_ite (parallel_fail _ _) ((inner signature.params).bind fun args => ?_)
      cases signature.returns with
      | none => exact (parallel_emit _ _).bind fun _ => parallel_pure _
      | some ty => exact parallel_define _ _ _

theorem parallel_externalCall {target amount : Build ValueId} (receives : Parallel alike target)
    (pays : Parallel alike amount) (kind : ExternalKind) (span : Span) :
    Parallel alike (externalCall kind span target amount) :=
  receives.bind fun _ => pays.bind fun _ => parallel_define _ _ _

theorem typeHint_withEvents (builder : Builder) (events : EventScope) : ∀ source : Expression,
    typeHint (builder.withEvents events) source = typeHint builder source
  | .binary _ op lhs rhs => by
    simp only [typeHint, typeHint_withEvents builder events lhs,
      typeHint_withEvents builder events rhs]
  | .int .. | .str .. | .bool .. | .not .. | .var .. | .field .. | .selfCall .. | .env ..
      | .mapIndex ..
  | .externalCall _ .call _ _ | .externalCall _ .transfer _ _ => rfl

end Expressions

mutual

theorem parallel_expression {alike : EventScope → EventScope → Prop} :
    ∀ (source : Expression) (expected : Option Ty), Parallel alike (expression source expected)
  | .int span digits radix, expected => parallel_literal span digits radix expected
  | .bool _ _, _ => parallel_define _ _ _
  | .str _ _, _ => parallel_fail _ _
  | .var _ name, _ => (parallel_localNamed name).bind fun _ => parallel_fresh.bind fun _ =>
      (parallel_emit _ _).bind fun _ => parallel_get (fun _ _ => rfl) fun _ => parallel_pure _
  | .field _ field, _ => (parallel_scalarType field).bind fun _ => parallel_define _ _ _
  | .mapIndex _ field key, _ => (parallel_entryTypes field).bind fun types =>
      (parallel_withType (parallel_expression key (some types.1)) types.1 key.span).bind fun _ =>
        parallel_define _ _ _
  | .selfCall span function args, _ => by
    have inner : ∀ expected, Parallel alike (arguments args expected) := parallel_arguments args
    unfold expression
    refine (parallel_selfCall inner function args.length span).bind fun called => ?_
    cases called with
    | none => exact parallel_fail _ _
    | some result => exact parallel_pure _
  | .env _ _, _ => parallel_define _ _ _
  | .externalCall span .call target amount, _ => by
    have receives :
        Parallel alike (withType .address target.span (expression target (some .address))) :=
      parallel_withType (parallel_expression target _) _ _
    have pays : Parallel alike
        (withType .defaultInteger amount.span (expression amount (some .defaultInteger))) :=
      parallel_withType (parallel_expression amount _) _ _
    unfold expression
    exact (parallel_externalCall receives pays .call span).bind fun _ => parallel_pure _
  | .externalCall _ .transfer _ _, _ => parallel_fail _ _
  | .binary span op lhs rhs, expected => by
    have left : ∀ expected, Parallel alike (expression lhs expected) := parallel_expression lhs
    have right : ∀ expected, Parallel alike (expression rhs expected) := parallel_expression rhs
    unfold expression
    split
    · exact (parallel_booleanOperand (left _) _ _).bind fun _ =>
        (parallel_booleanOperand (right _) _ _).bind fun _ =>
        parallel_define _ _ _
    · refine parallel_get (fun builder events => ?_) fun _ =>
        parallel_operation (left _) (fun ty => right (some ty)) op span rhs.span
      simp only [typeHint_withEvents]
  | .not span operand, _ =>
    (parallel_booleanOperand (parallel_expression operand (some .bool)) "!" span).bind fun _ =>
      parallel_define _ _ _

theorem parallel_arguments {alike : EventScope → EventScope → Prop} :
    ∀ (sources : List Expression) (expected : List Ty), Parallel alike (arguments sources expected)
  | [], _ => parallel_pure _
  | _ :: _, [] => parallel_pure _
  | source :: sources, ty :: expected =>
    (parallel_withType (parallel_expression source (some ty)) ty source.span).bind fun _ =>
      (parallel_arguments sources expected).bind fun _ => parallel_pure _

end

section Statements

variable {alike : EventScope → EventScope → Prop}

theorem parallel_typed (source : Expression) (ty : Ty) : Parallel alike (typed source ty) :=
  parallel_withType (parallel_expression source (some ty)) ty source.span

theorem parallel_slotOf (written : Place) : Parallel alike (slotOf written) := by
  cases written with
  | slot name =>
    exact (parallel_localNamed name).bind fun _ => parallel_get (fun _ _ => rfl) fun _ =>
      parallel_pure _
  | field field => exact (parallel_scalarType field).bind fun _ => parallel_pure _
  | mapEntry field key =>
    exact (parallel_entryTypes field).bind fun types => (parallel_typed key types.1).bind fun _ =>
      parallel_pure _

theorem parallel_assignment (target : Place) (op : AssignOp) (value : Expression) (span : Span) :
    Parallel alike (assignment target op value span) :=
  (parallel_slotOf target).bind fun aimed => by
    cases op.binaryOp? with
    | none => exact (parallel_typed value aimed.2).bind fun _ => parallel_emit _ _
    | some operator =>
      refine parallel_ite ?_ (parallel_fail _ _)
      exact parallel_fresh.bind fun _ => (parallel_emit _ _).bind fun _ =>
        (parallel_typed value aimed.2).bind fun _ =>
        parallel_fresh.bind fun _ => (parallel_emit _ _).bind fun _ => parallel_emit _ _

theorem parallel_declaration (name : Ident) (ty : Option TypeExpr) (value : Expression)
    (span : Span) :
    Parallel alike (declaration name ty value span) := by
  have finish (result : ValueId × Ty) : Parallel alike (do
      let slot ← declare name result.2
      emit (.storeLocal slot result.1) span) := (parallel_declare _ _).bind fun _ =>
      parallel_emit _ _
  cases ty with
  | none => exact (parallel_expression value none).bind finish
  | some written =>
    refine parallel_ite ?_ ?_
    · exact (parallel_fail _ _).bind finish
    · exact (parallel_typed value _).bind fun _ => (parallel_pure _).bind finish

theorem parallel_terminate (terminator : Terminator) (span : Span) :
    Parallel alike (terminate terminator span) :=
  parallel_modify (fun _ _ => rfl) fun _ => ⟨rfl, rfl⟩

theorem parallel_newBlock : Parallel alike newBlock := fun _ _ related => .ok related rfl

theorem parallel_switchTo (block : BlockId) : Parallel alike (switchTo block) :=
  parallel_modify (fun _ _ => rfl) fun _ => ⟨rfl, rfl⟩

theorem parallel_guardStatement (condition : Expression) (kind : GuardKind)
    (message : Option String) (span : Span) :
    Parallel alike (guardStatement condition kind message span) :=
  (parallel_typed condition .bool).bind fun _ => parallel_newBlock.bind fun _ =>
    (parallel_terminate _ _).bind fun _ =>
    parallel_switchTo _

theorem parallel_returnStatement (value : Option Expression) (span : Span) :
    Parallel alike (returnStatement value span) := by
  refine parallel_get (fun _ _ => rfl) fun builder => ?_
  cases value with
  | none =>
    cases builder.returns with
    | none => exact parallel_terminate _ _
    | some ty => exact parallel_fail _ _
  | some value =>
    cases builder.returns with
    | none => exact parallel_fail _ _
    | some ty => exact (parallel_typed value ty).bind fun _ => parallel_terminate _ _

theorem parallel_callStatement (source : Expression) : Parallel alike (callStatement source) := by
  cases source with
  | selfCall span function args =>
    exact (parallel_selfCall (parallel_arguments args) function args.length span).bind fun _ =>
      parallel_pure _
  | externalCall span kind target amount =>
    exact (parallel_externalCall (parallel_typed target .address)
      (parallel_typed amount .defaultInteger) kind span).bind fun _ => parallel_pure _
  | _ => exact parallel_fail _ _

theorem parallel_mapM_expression (args : List Expression) :
    Parallel alike (args.mapM fun arg => expression arg none) := by
  induction args with
  | nil => exact parallel_pure _
  | cons arg args ih =>
    rw [List.mapM_cons]
    exact (parallel_expression arg none).bind fun _ => ih.bind fun _ => parallel_pure _

theorem parallel_params (decls : List Param) : Parallel alike (params decls) := by
  induction decls with
  | nil => exact parallel_pure _
  | cons param rest ih =>
    refine parallel_ite (parallel_fail _ _) (parallel_get (fun _ _ => rfl) fun builder => ?_)
    exact parallel_ite (parallel_fail _ _)
      ((parallel_declare _ _).bind fun _ => ih.bind fun _ => parallel_pure _)

theorem parallel_inBlock {body : Build Unit} (inner : Parallel alike body) :
    Parallel alike (inBlock body) := by
  have opens : Parallel alike
      (modify fun builder : Builder => { builder with visible := [] :: builder.visible }) :=
    parallel_modify (fun _ _ => rfl) fun _ => ⟨rfl, rfl⟩
  have closes : Parallel alike
      (modify fun builder : Builder => { builder with visible := builder.visible.tail }) :=
    parallel_modify (fun _ _ => rfl) fun _ => ⟨rfl, rfl⟩
  exact opens.bind fun _ => inner.bind fun _ => closes

theorem parallel_continueDead : Parallel alike continueDead :=
  parallel_get (fun _ _ => rfl) fun _ =>
    parallel_ite (parallel_newBlock.bind fun _ => parallel_switchTo _) (parallel_pure _)

theorem parallel_conditional (condition : Expression) (thenSpan : Span) {thenBody : Build Unit}
    (elsePart : Option (Span × Build Unit)) (thenInner : Parallel alike thenBody)
    (elseInner : ∀ part, elsePart = some part → Parallel alike part.2) :
    Parallel alike (conditional condition thenSpan thenBody elsePart) := by
  refine (parallel_typed condition .bool).bind fun _ => parallel_newBlock.bind fun _ =>
    parallel_newBlock.bind fun _ => ?_
  cases elsePart with
  | none =>
    exact (parallel_terminate _ _).bind fun _ => (parallel_switchTo _).bind fun _ =>
      thenInner.bind fun _ =>
      (parallel_terminate _ _).bind fun _ => parallel_switchTo _
  | some part =>
    exact parallel_newBlock.bind fun _ => (parallel_terminate _ _).bind fun _ =>
      (parallel_switchTo _).bind fun _ =>
      thenInner.bind fun _ => (parallel_terminate _ _).bind fun _ =>
        (parallel_switchTo _).bind fun _ =>
        (elseInner part rfl).bind fun _ => (parallel_terminate _ _).bind fun _ =>
          parallel_switchTo _

theorem parallel_loop (condition : Expression) (span bodySpan : Span) {body : Build Unit}
    (inner : Parallel alike body) : Parallel alike (loop condition span bodySpan body) :=
  parallel_newBlock.bind fun _ => (parallel_terminate _ _).bind fun _ =>
    (parallel_switchTo _).bind fun _ =>
    (parallel_typed condition .bool).bind fun _ => parallel_newBlock.bind fun _ =>
      parallel_newBlock.bind fun _ =>
      (parallel_terminate _ _).bind fun _ => (parallel_switchTo _).bind fun _ => inner.bind fun _ =>
        (parallel_terminate _ _).bind fun _ => parallel_switchTo _

end Statements

end Build

mutual

def Statement.eventNames : Statement → List String
  | .branch _ _ thenBlock none => thenBlock.eventNames
  | .branch _ _ thenBlock (some elseBlock) => thenBlock.eventNames ++ elseBlock.eventNames
  | .loop _ _ body => body.eventNames
  | .emit _ event _ => [event.name]
  | _ => []

def Statement.allEventNames : List Statement → List String
  | [] => []
  | first :: rest => first.eventNames ++ Statement.allEventNames rest

def Block.eventNames : Block → List String
  | .mk body _ => Statement.allEventNames body

end

structure EventScope.AgreesOn (alike : EventScope → EventScope → Prop) (name : String) : Prop where
  types? : ∀ events other, alike events other → events.types? name = other.types? name
  imply : ∀ events other types, alike events other → alike (events.imply name types)
    (other.imply name types)

namespace Build

open EventScope

variable {alike : EventScope → EventScope → Prop}

theorem get_bind {α : Type} (next : Builder → Build α) (builder : Builder) :
    (get >>= next) builder = next builder builder := rfl

theorem parallel_emission {event : Ident} (agrees : AgreesOn alike event.name)
    (args : List Expression) (span : Span) :
    Parallel alike (emission event args span) := by
  intro builder events related
  have same : (builder.withEvents events).events.types? event.name =
      builder.events.types? event.name :=
    (agrees.types? _ _ related).symm
  have implies (types : List Ty) : Parallel alike (modify fun builder : Builder =>
      { builder with events := builder.events.imply event.name types }) :=
    fun builder events related => .ok (agrees.imply _ _ types related) rfl
  cases known : builder.events.types? event.name with
  | some types =>
    simp only [emission, get_bind, same, known]
    refine parallel_ite (parallel_fail _ _) ?_ builder events related
    exact (parallel_arguments args types).bind fun _ => parallel_emit _ _
  | none =>
    simp only [emission, get_bind, same, known]
    have goes := (parallel_mapM_expression args).bind fun results =>
      (implies (results.map Prod.snd)).bind fun _ =>
        parallel_emit (.emit event.name (results.map Prod.fst)) span
    exact goes builder events related

mutual

theorem parallel_statement :
    ∀ source : Statement, (∀ name ∈ source.eventNames, AgreesOn alike name) →
    Parallel alike (statement source)
  | .declare span name ty value, _ => parallel_declaration name ty value span
  | .assign span target op value, _ => parallel_assignment target op value span
  | .require span condition message, _ => parallel_guardStatement condition .require message span
  | .assert span condition, _ => parallel_guardStatement condition .assert none span
  | .revert span message, _ => parallel_terminate (.revert message) span
  | .branch _ condition thenBlock none, agrees =>
    parallel_conditional condition thenBlock.span none (parallel_block thenBlock agrees)
      fun _ same => nomatch same
  | .branch _ condition thenBlock (some elseBlock), agrees => by
    have thenInner := parallel_block thenBlock fun name listed =>
      agrees name (List.mem_append_left _ listed)
    have elseInner := parallel_block elseBlock fun name listed =>
      agrees name (List.mem_append_right _ listed)
    refine parallel_conditional condition thenBlock.span (some (elseBlock.span, block elseBlock))
      thenInner fun part same => ?_
    obtain rfl := Option.some.inj same
    exact elseInner
  | .loop span condition body, agrees =>
    parallel_loop condition span body.span (parallel_block body agrees)
  | .ret span value, _ => parallel_returnStatement value span
  | .emit span event args, agrees =>
    parallel_emission (agrees event.name (List.mem_singleton.mpr rfl)) args span
  | .expression _ value, _ => parallel_callStatement value

theorem parallel_statements : ∀ sources : List Statement,
    (∀ name ∈ Statement.allEventNames sources, AgreesOn alike name) →
      Parallel alike (statements sources)
  | [], _ => parallel_pure _
  | first :: rest, agrees => parallel_continueDead.bind fun _ =>
      (parallel_statement first fun name listed => agrees name (List.mem_append_left _ listed)).bind
        fun _ =>
        parallel_statements rest fun name listed => agrees name (List.mem_append_right _ listed)

theorem parallel_block : ∀ source : Block, (∀ name ∈ source.eventNames, AgreesOn alike name) →
    Parallel alike (block source)
  | .mk body _, agrees => parallel_inBlock (parallel_statements body agrees)

end

theorem parallel_function (header : Header) {body : Block}
    (agrees : ∀ name ∈ body.eventNames, AgreesOn alike name) :
    Parallel alike (function header body) := by
  refine parallel_get (fun _ _ => rfl) fun builder => parallel_ite (parallel_fail _ _) ?_
  refine (parallel_params header.params).bind fun declared =>
    (parallel_block body agrees).bind fun _ => ?_
  refine parallel_get (fun _ _ => rfl) fun _ => parallel_get (fun _ _ => rfl) fun _ =>
    (parallel_terminate _ _).bind fun _ => parallel_get (fun _ _ => rfl) fun _ => ?_
  exact parallel_ite (parallel_fail _ _) (parallel_pure _)

end Build

end Covenant
