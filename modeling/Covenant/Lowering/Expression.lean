import Covenant.Lowering.Builder

/-!
Lowering expressions to instructions. Operands are evaluated from left to right, and both operands
of `&&` and `||` are evaluated. Integers take their type from the other operand or from where they
are used.
-/

namespace Covenant

def digitsValue (digits : String) (radix : Nat) : Nat :=
  digits.toList.foldl (fun total char =>
    total * radix +
      (if char.isDigit then char.toNat - 48
        else if char.toNat < 97 then char.toNat - 55
        else char.toNat - 87)) 0

namespace Build

def typeHint (builder : Builder) : Expression → Option Ty
  | .int _ _ _ => none
  | .str _ _ => none
  | .bool _ _ => some .bool
  | .not _ _ => some .bool
  | .var _ name => (builder.find? name.name).map builder.localType
  | .field _ field => builder.scope.field? field.name
  | .mapIndex _ field _ =>
    match builder.scope.field? field.name with
    | some (.map _ value) => some value
    | _ => none
  | .selfCall _ function _ => (builder.scope.signature? function.name).bind Signature.returns
  | .env _ var => some (Ty.ofEnv var)
  | .externalCall _ .call _ _ => some .bool
  | .externalCall _ .transfer _ _ => none
  | .binary _ op lhs rhs =>
    if op.isArithmetic then (typeHint builder lhs).or (typeHint builder rhs) else some .bool

def literalType (expected : Option Ty) (radix : Nat) : Ty :=
  match expected with
  | some (.uint width) => .uint width
  | some .address => if radix == 16 then .address else .defaultInteger
  | _ => .defaultInteger

def literal (span : Span) (digits : String) (radix : Nat) (expected : Option Ty) :
    Build (ValueId × Ty) := do
  let ty := literalType expected radix
  let value := digitsValue digits radix
  if value < ty.bound then
    let dest ← fresh
    emit (.const dest value ty) span
    return (dest, ty)
  else
    let written := if radix == 16 then "0x" ++ digits else digits
    fail (.literalOutOfRange written ty.text) span

def withType (expected : Ty) (span : Span) (value : Build (ValueId × Ty)) : Build ValueId := do
  let (result, ty) ← value
  if ty == expected then return result else fail (.typeMismatch expected.text ty.text) span

def booleanOperand (operator : String) (span : Span) (value : Build (ValueId × Ty)) :
    Build ValueId := do
  let (result, ty) ← value
  if ty == .bool then return result else fail (.invalidOperand operator ty.text) span

def operation (op : BinaryOp) (span rhsSpan : Span) (lhs : Build (ValueId × Ty))
    (rhs : Ty → Build (ValueId × Ty)) : Build (ValueId × Ty) := do
  let (left, leftTy) ← lhs
  let (right, rightTy) ← rhs leftTy
  if leftTy != rightTy then fail (.typeMismatch leftTy.text rightTy.text) rhsSpan
  else if !leftTy.isInteger && op != .eq && op != .ne then
    fail (.invalidOperand op.spelling leftTy.text) span
  else
    let dest ← fresh
    emit (.binary dest op leftTy left right) span
    return (dest, if op.isArithmetic then leftTy else .bool)

def selfCall (function : Ident) (count : Nat) (span : Span)
    (lower : List Ty → Build (List ValueId)) :
    Build (Option (ValueId × Ty)) := do
  match (← get).scope.signature? function.name with
  | none => fail (.unknownFunction function.name) function.span
  | some signature =>
    if signature.params.length != count then
      fail (.arityMismatch function.name signature.params.length count) span
    else
      let args ← lower signature.params
      match signature.returns with
      | none =>
        emit (.call none function.name args) span
        return none
      | some ty =>
        let dest ← fresh
        emit (.call (some dest) function.name args) span
        return some (dest, ty)

def externalCall (kind : ExternalKind) (span : Span) (target amount : Build ValueId) :
    Build ValueId := do
  let receiver ← target
  let value ← amount
  let dest ← fresh
  emit (.externalCall dest kind receiver value) span
  return dest

mutual

def expression : Expression → Option Ty → Build (ValueId × Ty)
  | .int span digits radix, expected => literal span digits radix expected
  | .bool span value, _ => do
    let dest ← fresh
    emit (.const dest (if value then 1 else 0) .bool) span
    return (dest, .bool)
  | .str span _, expected =>
    fail (.typeMismatch (match expected with
      | some ty => ty.text
      | none => "a value") "string") span
  | .var span name, _ => do
    let slot ← localNamed name
    let dest ← fresh
    emit (.loadLocal dest slot) span
    return (dest, (← get).localType slot)
  | .field span field, _ => do
    let ty ← scalarType field
    let dest ← fresh
    emit (.loadField dest field.name none) span
    return (dest, ty)
  | .mapIndex span field key, _ => do
    let (keyTy, valueTy) ← entryTypes field
    let key ← withType keyTy key.span (expression key (some keyTy))
    let dest ← fresh
    emit (.loadField dest field.name (some key)) span
    return (dest, valueTy)
  | .selfCall span function args, _ => do
    match ← selfCall function args.length span (arguments args) with
    | some result => return result
    | none => fail (.noReturnValue function.name) span
  | .env span var, _ => do
    let dest ← fresh
    emit (.env dest var) span
    return (dest, Ty.ofEnv var)
  | .externalCall span .call target amount, _ => do
    let dest ← externalCall .call span
      (withType .address target.span (expression target (some .address)))
      (withType .defaultInteger amount.span (expression amount (some .defaultInteger)))
    return (dest, .bool)
  | .externalCall span .transfer _ _, _ => fail (.noReturnValue "transfer") span
  | .binary span op lhs rhs, expected => do
    if op.isLogical then
      let left ← booleanOperand op.spelling span (expression lhs (some .bool))
      let right ← booleanOperand op.spelling span (expression rhs (some .bool))
      let dest ← fresh
      emit (.binary dest op .bool left right) span
      return (dest, .bool)
    else
      let builder ← get
      let context := if op.isArithmetic then expected else none
      let hint := ((typeHint builder lhs).or (typeHint builder rhs)).or context
      operation op span rhs.span (expression lhs hint) (fun ty => expression rhs (some ty))
  | .not span operand, _ => do
    let value ← booleanOperand "!" span (expression operand (some .bool))
    let dest ← fresh
    emit (.not dest value) span
    return (dest, .bool)

def arguments : List Expression → List Ty → Build (List ValueId)
  | [], _ => return []
  | _ :: _, [] => return []
  | arg :: args, ty :: types => do
    let value ← withType ty arg.span (expression arg (some ty))
    return value :: (← arguments args types)

end

def typed (value : Expression) (expected : Ty) : Build ValueId :=
  withType expected value.span (expression value (some expected))

end Build

end Covenant
