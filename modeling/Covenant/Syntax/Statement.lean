import Covenant.Syntax.Expression

/-!
Reading statements and blocks. A block uses one level of nesting; conditions that are chained by
`else if` use none.
-/

namespace Covenant

namespace Parse

def place? : Expression → Option Place
  | .var _ name => some (.slot name)
  | .field _ name => some (.field name)
  | .mapIndex _ map key => some (.mapEntry map key)
  | _ => none

def assignOp? : Token → Option AssignOp
  | .punct .assign => some .set
  | .punct .plusAssign => some .add
  | .punct .minusAssign => some .sub
  | .punct .starAssign => some .mul
  | .punct .slashAssign => some .div
  | _ => none

def conditional (condition : Parse Expression) (block : Parse Block) : Nat → Parse Statement
  | 0 => failTooDeep
  | fuel + 1 => do
    let start := (← span).start
    expectKeyword .ifWord
    let test ← condition
    let thenBlock ← block
    if ← isAt (.keyword .elseWord) then
      bump
      if ← isAt (.keyword .ifWord) then
        let nested ← conditional condition block fuel
        return .branch ⟨start, ← previousStop⟩ test thenBlock (some (.mk [nested] nested.span))
      else
        let elseBlock ← block
        return .branch ⟨start, ← previousStop⟩ test thenBlock (some elseBlock)
    else return .branch ⟨start, ← previousStop⟩ test thenBlock none

def declaration (room start : Nat) : Parse Statement := do
  let name ← expectIdent "a variable name" none
  let ty ← if ← eat .colon then some <$> typeExpr room else pure none
  let _ ← expect .assign
  let value ← expression room
  return .declare ⟨start, ← previousStop⟩ name ty value

def requirement (room start : Nat) : Parse Statement := do
  let _ ← expect .leftParen
  let condition ← expression room
  let message ← if ← eat .comma then some <$> expectString else pure none
  let _ ← expect .rightParen
  return .require ⟨start, ← previousStop⟩ condition message

def assertion (room start : Nat) : Parse Statement := do
  let _ ← expect .leftParen
  let condition ← expression room
  let _ ← expect .rightParen
  return .assert ⟨start, ← previousStop⟩ condition

def reversion (start : Nat) : Parse Statement := do
  let _ ← expect .leftParen
  let message ← match ← peek? with
    | some (.str _) => some <$> expectString
    | _ => pure none
  let _ ← expect .rightParen
  return .revert ⟨start, ← previousStop⟩ message

def returned (room start : Nat) : Parse Statement := do
  let state ← get
  let sameLine : Bool := match state.rest with
    | [] => false
    | lexeme :: _ =>
      lexeme.token != .punct .rightBrace && state.lines.line lexeme.span.start ==
        state.lines.line start
  let value ← if sameLine then some <$> expression room else pure none
  return .ret ⟨start, ← previousStop⟩ value

def emission (room start : Nat) : Parse Statement := do
  let event ← expectIdent "an event name" none
  let args ← parenthesised (expression room)
  return .emit ⟨start, ← previousStop⟩ event args

def assignment (room start : Nat) : Parse Statement := do
  let target ← expression room
  match (← peek?).bind assignOp? with
  | none => return .expression ⟨start, ← previousStop⟩ target
  | some op =>
    bump
    match place? target with
    | none =>
      fail "Invalid assignment target" target.span
        (some "only locals, `self.field` and `self.map[key]` can be assigned")
    | some place =>
      let value ← expression room
      return .assign ⟨start, ← previousStop⟩ place op value

def statement (room : Nat) (block : Parse Block) : Parse Statement := do
  let start := (← span).start
  match ← peek? with
  | some (.keyword .letWord) =>
    bump
    declaration room start
  | some (.keyword .requireWord) =>
    bump
    requirement room start
  | some (.keyword .assertWord) =>
    bump
    assertion room start
  | some (.keyword .revertWord) =>
    bump
    reversion start
  | some (.keyword .ifWord) => conditional (expression room) block ((← get).rest.length + 1)
  | some (.keyword .whileWord) =>
    bump
    let condition ← expression room
    let body ← block
    return .loop ⟨start, ← previousStop⟩ condition body
  | some (.keyword .returnWord) =>
    bump
    returned room start
  | some (.keyword .emitWord) =>
    bump
    emission room start
  | _ => assignment room start

def statementOrClose (opening : Span) (statement : Parse Statement) : Parse (Option Statement) := do
  match ← peek? with
  | none => fail "Block is never closed" opening (some "add a matching `\x7d`")
  | some (.punct .rightBrace) =>
    bump
    return none
  | some _ => some <$> statement

def block : Nat → Parse Block
  | 0 => failTooDeep
  | room + 1 => do
    let opening ← expect .leftBrace
    let statements ← repeated (statementOrClose opening (statement room (block room)))
    return .mk statements ⟨opening.start, ← previousStop⟩

end Parse

end Covenant
