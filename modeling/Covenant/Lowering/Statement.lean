import Covenant.Lowering.Expression

/-!
Lowering statements to blocks. Statements after the end of a block are kept in blocks of their own
that nothing leads to, so that what is wrong with them is still found.
-/

namespace Covenant

inductive Slot where
  | slot (index : LocalId)
  | field (name : String) (key : Option ValueId)

namespace Slot

def load (target : Slot) (dest : ValueId) : Instruction :=
  match target with
  | slot index => .loadLocal dest index
  | field name key => .loadField dest name key

def store (target : Slot) (value : ValueId) : Instruction :=
  match target with
  | slot index => .storeLocal index value
  | field name key => .storeField name key value

end Slot

namespace Build

def slotOf : Place → Build (Slot × Ty)
  | .slot name => do
    let index ← localNamed name
    return (.slot index, (← get).localType index)
  | .field field => do
    let ty ← scalarType field
    return (.field field.name none, ty)
  | .mapEntry field key => do
    let (keyTy, valueTy) ← entryTypes field
    let key ← typed key keyTy
    return (.field field.name (some key), valueTy)

def assignment (target : Place) (op : AssignOp) (value : Expression) (span : Span) : Build Unit :=
  do
  let (slot, ty) ← slotOf target
  match op.binaryOp? with
  | none =>
    let result ← typed value ty
    emit (slot.store result) span
  | some operator =>
    if ty.isInteger then
      let before ← fresh
      emit (slot.load before) span
      let operand ← typed value ty
      let result ← fresh
      emit (.binary result operator ty before operand) span
      emit (slot.store result) span
    else fail (.invalidOperand (operator.spelling ++ "=") ty.text) target.span

def declaration (name : Ident) (ty : Option TypeExpr) (value : Expression) (span : Span) :
    Build Unit := do
  let (result, valueTy) ← match ty with
    | none => expression value none
    | some written =>
      let ty := Ty.ofExpr written
      if ty.isMap then fail .mapOutsideStorage written.span
      else pure (← typed value ty, ty)
  let slot ← declare name valueTy
  emit (.storeLocal slot result) span

def guardStatement (condition : Expression) (kind : GuardKind) (message : Option String)
    (span : Span) :
    Build Unit := do
  let value ← typed condition .bool
  let next ← newBlock
  terminate (.guard value kind message next) span
  switchTo next

def returnStatement (value : Option Expression) (span : Span) : Build Unit := do
  let builder ← get
  match value, builder.returns with
  | some value, some ty => do
    let result ← typed value ty
    terminate (.ret (some result)) span
  | some value, none => fail (.noReturnValue builder.function) value.span
  | none, some _ => fail (.missingReturn builder.function) span
  | none, none => terminate (.ret none) span

def emission (event : Ident) (args : List Expression) (span : Span) : Build Unit := do
  match (← get).events.types? event.name with
  | some types =>
    if types.length != args.length then
      fail (.arityMismatch event.name types.length args.length) span
    else
      let values ← arguments args types
      emit (.emit event.name values) span
  | none =>
    let results ← args.mapM fun arg => expression arg none
    modify fun builder =>
      { builder with events := builder.events.imply event.name (results.map Prod.snd) }
    emit (.emit event.name (results.map Prod.fst)) span

def callStatement : Expression → Build Unit
  | .selfCall span function args => do
    let _ ← selfCall function args.length span (arguments args)
  | .externalCall span kind target amount => do
    let _ ← externalCall kind span (typed target .address) (typed amount .defaultInteger)
  | value => fail .unusedExpression value.span

def inBlock (body : Build Unit) : Build Unit := do
  modify fun builder => { builder with visible := [] :: builder.visible }
  body
  modify fun builder => { builder with visible := builder.visible.tail }

def continueDead : Build Unit := do
  if (← get).isEnded then switchTo (← newBlock)

def conditional (condition : Expression) (thenSpan : Span) (thenBody : Build Unit)
    (elsePart : Option (Span × Build Unit)) : Build Unit := do
  let value ← typed condition .bool
  let thenId ← newBlock
  let join ← newBlock
  match elsePart with
  | none =>
    terminate (.branch value thenId join) condition.span
    switchTo thenId
    thenBody
    terminate (.jump join) thenSpan
  | some (elseSpan, elseBody) =>
    let elseId ← newBlock
    terminate (.branch value thenId elseId) condition.span
    switchTo thenId
    thenBody
    terminate (.jump join) thenSpan
    switchTo elseId
    elseBody
    terminate (.jump join) elseSpan
  switchTo join

def loop (condition : Expression) (span bodySpan : Span) (body : Build Unit) : Build Unit := do
  let header ← newBlock
  terminate (.jump header) span
  switchTo header
  let value ← typed condition .bool
  let bodyId ← newBlock
  let exit ← newBlock
  terminate (.branch value bodyId exit) condition.span
  switchTo bodyId
  body
  terminate (.jump header) bodySpan
  switchTo exit

mutual

def statement : Statement → Build Unit
  | .declare span name ty value => declaration name ty value span
  | .assign span target op value => assignment target op value span
  | .require span condition message => guardStatement condition .require message span
  | .assert span condition => guardStatement condition .assert none span
  | .revert span message => terminate (.revert message) span
  | .branch _ condition thenBlock none =>
    conditional condition thenBlock.span (block thenBlock) none
  | .branch _ condition thenBlock (some elseBlock) =>
    conditional condition thenBlock.span (block thenBlock) (some (elseBlock.span, block elseBlock))
  | .loop span condition body => loop condition span body.span (block body)
  | .ret span value => returnStatement value span
  | .emit span event args => emission event args span
  | .expression _ value => callStatement value

def statements : List Statement → Build Unit
  | [] => return ()
  | first :: rest => do
    continueDead
    statement first
    statements rest

def block : Block → Build Unit
  | .mk body _ => inBlock (statements body)

end

end Build

end Covenant
