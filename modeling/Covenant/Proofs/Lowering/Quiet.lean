import Covenant.Proofs.Lowering.Names

/-!
What parts of a function that is being built are left alone by steps of building, whether or not
these succeed. Expressions, and the statements that neither end a block nor start one, only add
instructions, values and variables.
-/

namespace Covenant

class Builder.Unaffected {γ : Type} (part : Builder → γ) : Prop where
  emit (builder : Builder) (instruction : Instruction) (span : Span) :
    part (builder.emit instruction span) = part builder
  fresh (builder : Builder) : part { builder with nextValue := builder.nextValue + 1 } =
    part builder
  addLocal (builder : Builder) (name : String) (ty : Ty) : part (builder.addLocal name ty) =
    part builder

namespace Build

open Builder

variable {α β γ : Type} {part : Builder → γ}

def left : EStateM.Result SemanticError Builder α → Builder
  | .ok _ final => final
  | .error _ final => final

def Quiet (part : Builder → γ) (step : Build α) : Prop :=
  ∀ builder, part (left (step builder)) = part builder

theorem left_bind (step : Build α) (next : α → Build β) (builder : Builder) :
    (∃ value middle, step builder = .ok value middle ∧ left ((step >>= next) builder) =
      left (next value middle)) ∨
      left ((step >>= next) builder) = left (step builder) := by
  simp only [bind, EStateM.bind]
  cases step builder with
  | ok value middle => exact .inl ⟨value, middle, rfl, rfl⟩
  | error problem middle => exact .inr rfl

theorem Quiet.of_ok {step : Build α} (quiet : Quiet part step) {builder final : Builder} {value : α}
    (built : step builder = .ok value final) : part final = part builder := by
  have same := quiet builder
  rw [built] at same
  exact same

theorem Quiet.bind {step : Build α} {next : α → Build β} (first : Quiet part step)
    (second : ∀ value, Quiet part (next value)) : Quiet part (step >>= next) := by
  intro builder
  rcases left_bind step next builder with ⟨value, middle, stepped, same⟩ | same
  · rw [same, second value middle, first.of_ok stepped]
  · rw [same, first builder]

theorem quiet_pure (value : α) : Quiet part (pure value) := fun _ => rfl

theorem quiet_get : Quiet part get := fun _ => rfl

theorem quiet_fail (cause : SemanticCause) (span : Span) : Quiet part (fail cause span : Build α) :=
  fun _ => rfl

theorem quiet_localNamed (name : Ident) : Quiet part (localNamed name) :=
  quiet_get.bind fun builder => by
    cases builder.find? name.name with
    | none => exact quiet_fail _ _
    | some slot => exact quiet_pure _

theorem quiet_fieldType (field : Ident) : Quiet part (fieldType field) :=
  quiet_get.bind fun builder => by
    cases builder.scope.field? field.name with
    | none => exact quiet_fail _ _
    | some ty => exact quiet_pure _

theorem quiet_scalarType (field : Ident) : Quiet part (scalarType field) :=
  (quiet_fieldType field).bind fun ty => by
    split
    · exact quiet_fail _ _
    · exact quiet_pure _

theorem quiet_entryTypes (field : Ident) : Quiet part (entryTypes field) :=
  (quiet_fieldType field).bind fun ty => by
    cases ty with
    | map key value => exact quiet_pure _
    | _ => exact quiet_fail _ _

theorem quiet_withType {value : Build (ValueId × Ty)} (quiet : Quiet part value) (expected : Ty)
    (span : Span) :
    Quiet part (withType expected span value) :=
  quiet.bind fun result => by
    dsimp only
    split
    · exact quiet_pure _
    · exact quiet_fail _ _

theorem quiet_booleanOperand {value : Build (ValueId × Ty)} (quiet : Quiet part value)
    (operator : String) (span : Span) : Quiet part (booleanOperand operator span value) :=
  quiet.bind fun result => by
    dsimp only
    split
    · exact quiet_pure _
    · exact quiet_fail _ _

section Additions

variable [Unaffected part]

theorem quiet_emit (instruction : Instruction) (span : Span) : Quiet part (emit instruction span) :=
  fun builder => Unaffected.emit builder instruction span

theorem quiet_fresh : Quiet part fresh := Unaffected.fresh

theorem quiet_declare (name : Ident) (ty : Ty) : Quiet part (declare name ty) := by
  intro builder
  change part
    (left ((if (builder.find? name.name).isSome then fail (.duplicateVariable name.name) name.span
    else set (builder.addLocal name.name ty) >>= fun _ => pure builder.locals.length) builder)) =
      part builder
  split
  · rfl
  · exact Unaffected.addLocal builder name.name ty

theorem quiet_define (instruction : ValueId → Instruction) (span : Span) (result : ValueId → α) :
    Quiet part (do
    let dest ← fresh
    emit (instruction dest) span
    return result dest) :=
  quiet_fresh.bind fun _ => (quiet_emit _ _).bind fun _ => quiet_pure _

theorem quiet_literal (span : Span) (digits : String) (radix : Nat) (expected : Option Ty) :
    Quiet part (literal span digits radix expected) := by
  unfold literal
  dsimp only
  split
  · exact quiet_define _ _ _
  · exact quiet_fail _ _

theorem quiet_operation {lhs : Build (ValueId × Ty)} {rhs : Ty → Build (ValueId × Ty)}
    (left : Quiet part lhs) (right : ∀ ty, Quiet part (rhs ty)) (op : BinaryOp)
    (span rhsSpan : Span) :
    Quiet part (operation op span rhsSpan lhs rhs) :=
  left.bind fun first => (right first.2).bind fun second => by
    dsimp only
    split
    · exact quiet_fail _ _
    · split
      · exact quiet_fail _ _
      · exact quiet_define _ _ _

theorem quiet_selfCall {lower : List Ty → Build (List ValueId)}
    (quiet : ∀ expected, Quiet part (lower expected)) (function : Ident) (count : Nat)
    (span : Span) : Quiet part (selfCall function count span lower) :=
  quiet_get.bind fun builder => by
    cases builder.scope.signature? function.name with
    | none => exact quiet_fail _ _
    | some signature =>
      dsimp only
      split
      · exact quiet_fail _ _
      · refine (quiet signature.params).bind fun args => ?_
        cases signature.returns with
        | none => exact (quiet_emit _ _).bind fun _ => quiet_pure _
        | some ty => exact quiet_define _ _ _

theorem quiet_externalCall {target amount : Build ValueId} (receives : Quiet part target)
    (pays : Quiet part amount) (kind : ExternalKind) (span : Span) :
    Quiet part (externalCall kind span target amount) :=
  receives.bind fun _ => pays.bind fun _ => quiet_define _ _ _

end Additions

mutual

/-- Lowering an expression only adds instructions and values. -/
theorem quiet_expression [Unaffected part] : ∀ (source : Expression) (expected : Option Ty),
    Quiet part (expression source expected)
  | .int span digits radix, expected => quiet_literal span digits radix expected
  | .bool _ _, _ => quiet_define _ _ _
  | .str _ _, _ => quiet_fail _ _
  | .var _ name, _ =>
    (quiet_localNamed name).bind fun _ => quiet_fresh.bind fun _ => (quiet_emit _ _).bind fun _ =>
      quiet_get.bind fun _ => quiet_pure _
  | .field _ field, _ => (quiet_scalarType field).bind fun _ => quiet_define _ _ _
  | .mapIndex _ field key, _ => (quiet_entryTypes field).bind fun types =>
      (quiet_withType (quiet_expression key (some types.1)) types.1 key.span).bind fun _ =>
        quiet_define _ _ _
  | .selfCall span function args, _ => by
    have quiet := quiet_arguments args
    unfold expression
    refine (quiet_selfCall quiet function args.length span).bind fun called => ?_
    cases called with
    | none => exact quiet_fail _ _
    | some result => exact quiet_pure _
  | .env _ _, _ => quiet_define _ _ _
  | .externalCall span .call target amount, _ => by
    have receives := quiet_withType (quiet_expression target (some .address)) .address target.span
    have pays := quiet_withType (quiet_expression amount (some .defaultInteger))
      .defaultInteger amount.span
    unfold expression
    exact (quiet_externalCall receives pays .call span).bind fun _ => quiet_pure _
  | .externalCall _ .transfer _ _, _ => quiet_fail _ _
  | .binary span op lhs rhs, expected => by
    have left := quiet_expression lhs
    have right := quiet_expression rhs
    unfold expression
    split
    · exact (quiet_booleanOperand (left _) _ _).bind fun _ =>
        (quiet_booleanOperand (right _) _ _).bind fun _ =>
        quiet_define _ _ _
    · exact quiet_get.bind fun _ =>
        quiet_operation (left _) (fun ty => right (some ty)) op span rhs.span
  | .not span operand, _ =>
    (quiet_booleanOperand (quiet_expression operand (some .bool)) "!" span).bind fun _ =>
      quiet_define _ _ _

theorem quiet_arguments [Unaffected part] : ∀ (sources : List Expression) (expected : List Ty),
    Quiet part (arguments sources expected)
  | [], _ => quiet_pure _
  | _ :: _, [] => quiet_pure _
  | source :: sources, ty :: expected =>
    (quiet_withType (quiet_expression source (some ty)) ty source.span).bind fun _ =>
      (quiet_arguments sources expected).bind fun _ => quiet_pure _

end

variable [Unaffected part]

theorem quiet_typed (source : Expression) (ty : Ty) : Quiet part (typed source ty) :=
  quiet_withType (quiet_expression source (some ty)) ty source.span

/-! Statements. -/

theorem quiet_slotOf (written : Place) : Quiet part (slotOf written) := by
  cases written with
  | slot name => exact (quiet_localNamed name).bind fun _ => quiet_get.bind fun _ => quiet_pure _
  | field field => exact (quiet_scalarType field).bind fun _ => quiet_pure _
  | mapEntry field key =>
    exact (quiet_entryTypes field).bind fun types => (quiet_typed key types.1).bind fun _ =>
      quiet_pure _

theorem quiet_assignment (target : Place) (op : AssignOp) (value : Expression) (span : Span) :
    Quiet part (assignment target op value span) :=
  (quiet_slotOf target).bind fun aimed => by
    cases op.binaryOp? with
    | none => exact (quiet_typed value aimed.2).bind fun _ => quiet_emit _ _
    | some operator =>
      dsimp only
      split
      · exact quiet_fresh.bind fun _ => (quiet_emit _ _).bind fun _ =>
          (quiet_typed value aimed.2).bind fun _ =>
          quiet_fresh.bind fun _ => (quiet_emit _ _).bind fun _ => quiet_emit _ _
      · exact quiet_fail _ _

theorem quiet_declaration (name : Ident) (ty : Option TypeExpr) (value : Expression) (span : Span) :
    Quiet part (declaration name ty value span) := by
  have finish (result : ValueId × Ty) : Quiet part (do
      let slot ← declare name result.2
      emit (.storeLocal slot result.1) span) := (quiet_declare _ _).bind fun _ => quiet_emit _ _
  cases ty with
  | none => exact (quiet_expression value none).bind finish
  | some written =>
    unfold declaration
    dsimp only
    split
    · exact (quiet_fail _ _).bind finish
    · exact (quiet_typed value _).bind fun _ => finish _

theorem quiet_callStatement (source : Expression) : Quiet part (callStatement source) := by
  cases source with
  | selfCall span function args =>
    exact (quiet_selfCall (quiet_arguments args) function args.length span).bind fun _ =>
      quiet_pure _
  | externalCall span kind target amount =>
    exact (quiet_externalCall (quiet_typed target .address) (quiet_typed amount .defaultInteger)
      kind span).bind fun _ => quiet_pure _
  | _ => exact quiet_fail _ _

theorem quiet_mapM_expression (args : List Expression) :
    Quiet part (args.mapM fun arg => expression arg none) := by
  induction args with
  | nil => exact quiet_pure _
  | cons arg args ih =>
    rw [List.mapM_cons]
    exact (quiet_expression arg none).bind fun _ => ih.bind fun _ => quiet_pure _

theorem quiet_params (decls : List Param) : Quiet part (params decls) := by
  induction decls with
  | nil => exact quiet_pure _
  | cons param rest ih =>
    unfold params
    dsimp only
    split
    · exact quiet_fail _ _
    · refine quiet_get.bind fun builder => ?_
      split
      · exact quiet_fail _ _
      · exact (quiet_declare _ _).bind fun _ => ih.bind fun _ => quiet_pure _

end Build

end Covenant
