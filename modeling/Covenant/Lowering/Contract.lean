import Covenant.Lowering.Statement

/-!
Lowering functions and contracts. A problem costs only the declaration or the function it lies in:
all other parts are lowered, and every problem is reported.
-/

namespace Covenant

structure Header where
  name : String
  span : Span
  kind : FunctionKind
  params : List Param
  returns : Option TypeExpr
  annotations : List Ident

namespace Build

def params : List Param → Build (List (String × Ty))
  | [] => return []
  | param :: rest => do
    let ty := Ty.ofExpr param.ty
    if ty.isMap then fail .mapOutsideStorage param.ty.span
    else if ((← get).find? param.name.name).isSome then
      fail (.duplicateParameter param.name.name) param.name.span
    else
      let _ ← declare param.name ty
      return (param.name.name, ty) :: (← params rest)

def closeBlocks (location : Location) (blocks : List OpenBlock) : List BasicBlock :=
  blocks.zipIdx.map fun (block, id) =>
    { id, instructions := block.instructions, terminator :=
      block.terminator.getD ⟨.ret none, location⟩ }

def function (header : Header) (body : Block) : Build Function := do
  if (← get).returns.any Ty.isMap then
    fail .mapOutsideStorage (match header.returns with
      | some written => written.span
      | none => header.span)
  else
    let params ← params header.params
    block body
    let ending := (← get).current
    let fallsThrough := !(← get).isEnded
    terminate (.ret none) ⟨body.span.stop - 1, body.span.stop⟩
    let builder ← get
    let result : Function :=
      { name := header.name
        kind := header.kind
        params
        returns := builder.returns
        decorators := header.annotations.map Ident.name
        locals := builder.locals
        entry := 0
        blocks := closeBlocks (builder.scope.lines.location body.span.stop) builder.blocks
        location := builder.scope.lines.location header.span.start }
    if result.returns.isSome && fallsThrough &&
      (FlowGraph.ofFunction result).isReachable ending then
      fail (.missingReturn header.name) header.span
    else return result

end Build

namespace ContractDecl

def initHeader (handler : InitHandler) : Header :=
  { name := "init", span := handler.span, kind := .init, params := handler.params, returns := none,
    annotations := handler.annotations }

def functionHeader (decl : FunctionDecl) : Header :=
  { name := decl.name.name
    span := decl.name.span
    kind := match decl.visibility with
      | .everyone => .everyone
      | .contractOnly => .contractOnly
    params := decl.params
    returns := decl.returns
    annotations := decl.annotations }

end ContractDecl

namespace Lowering

def splitRepeated {α : Type} (name : α → String) (known : List String) : List α → List α × List α
  | [] => ([], [])
  | item :: rest =>
    if known.contains (name item) then
      let (first, repeated) := splitRepeated name known rest
      (first, item :: repeated)
    else
      let (first, repeated) := splitRepeated name (name item :: known) rest
      (item :: first, repeated)

def fieldOf (lines : LineTable) (decl : FieldDecl) (slot : Nat) : Field :=
  { name := decl.name.name, ty := Ty.ofExpr decl.ty, slot, location :=
    lines.location decl.span.start }

def eventOf (scope : ContractScope) (known : EventScope) (decl : EventDecl) :
    Except SemanticError Event :=
  if (known.types? decl.name.name).isSome then
    .error (scope.error (.duplicateEvent decl.name.name) none decl.name.span)
  else match decl.params.find? fun param => (Ty.ofExpr param.ty).isMap with
    | some param => .error (scope.error .mapOutsideStorage none param.ty.span)
    | none =>
      .ok ⟨decl.name.name, decl.params.map fun param => (param.name.name, Ty.ofExpr param.ty)⟩

def eventsOf (scope : ContractScope) :
    EventScope → List EventDecl → List Event × EventScope × List SemanticError
  | known, [] => ([], known, [])
  | known, decl :: rest =>
    match eventOf scope known decl with
    | .error problem =>
      let (events, final, problems) := eventsOf scope known rest
      (events, final, problem :: problems)
    | .ok event =>
      let (events, final, problems) :=
        eventsOf scope (known.declare event.name (event.params.map Prod.snd)) rest
      (event :: events, final, problems)

def signatureOf (decl : FunctionDecl) : String × Signature :=
  (decl.name.name, ⟨decl.params.map fun param => Ty.ofExpr param.ty, decl.returns.map Ty.ofExpr⟩)

def functionOf (scope : ContractScope) (events : EventScope) (header : Header) (body : Block) :
    Except SemanticError Function × EventScope :=
  match Build.function header body
    (Builder.start scope header.name (header.returns.map Ty.ofExpr) events) with
  | .ok result builder => (.ok result, builder.events)
  | .error problem builder => (.error problem, builder.events)

def functionsOf (scope : ContractScope) :
    EventScope → List (Header × Block) → List Function × EventScope × List SemanticError
  | events, [] => ([], events, [])
  | events, (header, body) :: rest =>
    match functionOf scope events header body with
    | (.ok function, known) =>
      let (functions, final, problems) := functionsOf scope known rest
      (function :: functions, final, problems)
    | (.error problem, known) =>
      let (functions, final, problems) := functionsOf scope known rest
      (functions, final, problem :: problems)

def contractOf (lines : LineTable) (decl : ContractDecl) : Contract × List SemanticError :=
  let (fieldDecls, repeatedFields) := splitRepeated (fun field => field.name.name) [] decl.fields
  let (functionDecls, repeatedFunctions) := splitRepeated (fun function => function.name.name)
    [] decl.functions
  let fields := fieldDecls.zipIdx.map fun (field, slot) => fieldOf lines field slot
  let scope : ContractScope :=
    { name := decl.name.name
      lines
      fields := fields.map fun field => (field.name, field.ty)
      signatures := functionDecls.map signatureOf }
  let fieldProblems := repeatedFields.map fun field =>
    scope.error (.duplicateField field.name.name) none field.name.span
  let (events, known, eventProblems) := eventsOf scope ⟨[], []⟩ decl.events
  let functionProblems := repeatedFunctions.map fun function =>
    scope.error (.duplicateFunction function.name.name) none function.name.span
  let initProblems := decl.inits.tail.map fun handler =>
    scope.error .duplicateInit none handler.span
  let bodies :=
    (decl.inits.head?.map fun handler => (ContractDecl.initHeader handler, handler.body)).toList ++
      functionDecls.map fun function => (ContractDecl.functionHeader function, function.body)
  let (functions, final, bodyProblems) := functionsOf scope known bodies
  ({ name := decl.name.name
     fields
     events := events ++ final.implied
     functions
     location := lines.location decl.name.span.start },
    fieldProblems ++ eventProblems ++ functionProblems ++ initProblems ++ bodyProblems)

def repeatedContract (lines : LineTable) (decl : ContractDecl) : SemanticError :=
  { cause := .duplicateContract decl.name.name, contract := decl.name.name, function := none,
    location := lines.location decl.name.span.start, span := decl.name.span }

def contractsOf (lines : LineTable) :
    List String → List ContractDecl → List Contract × List SemanticError
  | _, [] => ([], [])
  | taken, decl :: rest =>
    if taken.contains decl.name.name then
      let (contracts, problems) := contractsOf lines taken rest
      (contracts, repeatedContract lines decl :: problems)
    else
      let (contract, inside) := contractOf lines decl
      let (contracts, problems) := contractsOf lines (decl.name.name :: taken) rest
      (contract :: contracts, inside ++ problems)

structure Outcome where
  set : ContractSet
  problems : List SemanticError

end Lowering

namespace SyntaxTree

def lower (tree : SyntaxTree) (lines : LineTable) : Lowering.Outcome :=
  let (contracts, problems) := Lowering.contractsOf lines [] tree.contracts
  ⟨⟨contracts⟩, problems⟩

end SyntaxTree

end Covenant
