import Covenant.Syntax.Parse

/-!
Reading types and expressions. Each reader takes the number of nesting levels that are left:
parentheses, arguments, keys, negations and the parts of a map type each use one level.
-/

namespace Covenant

namespace Parse

def typeHint : String := "expected one of u8, u16, u32, u64, u128, bool, address or map<K, V>"

def simpleType? (span : Span) : String → Option TypeExpr
  | "u8" => some (.uint span 8)
  | "u16" => some (.uint span 16)
  | "u32" => some (.uint span 32)
  | "u64" => some (.uint span 64)
  | "u128" => some (.uint span 128)
  | "bool" => some (.bool span)
  | "address" => some (.address span)
  | _ => none

def typeWith (part : Parse TypeExpr) (enter : Parse Unit) : Parse TypeExpr := do
  let name ← expectIdent "a type" (some typeHint)
  match simpleType? name.span name.name with
  | some ty => return ty
  | none =>
    if name.name == "map" then
      enter
      let _ ← expect .less
      let key ← part
      let _ ← expect .comma
      let value ← part
      let _ ← expect .greater
      return .map ⟨name.span.start, ← previousStop⟩ key value
    else fail s!"Unknown type `{name.name}`" name.span (some typeHint)

def typeExpr : Nat → Parse TypeExpr
  | 0 => typeWith failTooDeep failTooDeep
  | room + 1 => typeWith (typeExpr room) (return ())

def precedence : List (List (Punct × BinaryOp)) :=
  [[(.orOr, .or)],
    [(.andAnd, .and)],
    [(.equalEqual, .eq), (.notEqual, .ne)],
    [(.less, .lt), (.lessEqual, .le), (.greater, .gt), (.greaterEqual, .ge)],
    [(.plus, .add), (.minus, .sub)],
    [(.star, .mul), (.slash, .div), (.percent, .mod)]]

def operatorAmong? (operators : List (Punct × BinaryOp)) : Parse (Option BinaryOp) := do
  let next ← peek?
  return (operators.find? fun entry => next == some (.punct entry.1)).map Prod.snd

def binaryTail (operand : Parse Expression) (operators : List (Punct × BinaryOp)) :
    Nat → Expression → Parse Expression
  | 0, lhs => return lhs
  | fuel + 1, lhs => do
    match ← operatorAmong? operators with
    | none => return lhs
    | some op =>
      bump
      let rhs ← operand
      binaryTail operand operators fuel (.binary ⟨lhs.span.start, rhs.span.stop⟩ op lhs rhs)

def binary (operand : Parse Expression) : List (List (Punct × BinaryOp)) → Parse Expression
  | [] => operand
  | operators :: tighter => do
    let lhs ← binary operand tighter
    binaryTail (binary operand tighter) operators ((← get).rest.length + 1) lhs

def envHint : String :=
  "expected msg.sender, msg.value, block.timestamp, block.number or tx.origin"

def envValue (object : String) (span : Span) : Parse Expression := do
  bump
  bump
  let member ← expectIdent s!"a member of `{object}`" none
  match EnvVar.ofParts? object member.name with
  | some var => return .env ⟨span.start, ← previousStop⟩ var
  | none =>
    fail s!"Unknown environment value `{object}.{member.name}`" ⟨span.start, member.span.stop⟩
      (some envHint)

def externalKind? : String → Option ExternalKind
  | "transfer" => some .transfer
  | "call" => some .call
  | _ => none

def externalCall (expression : Parse Expression) (name : String) (span : Span) : Parse Expression :=
  do
  match externalKind? name with
  | none =>
    fail s!"Unknown function `{name}`" span
      (some s!"internal functions are called as `self.{name}(...)`")
  | some kind =>
    bump
    let args ← parenthesised expression
    match args with
    | [target, amount] => return .externalCall ⟨span.start, ← previousStop⟩ kind target amount
    | _ =>
      fail s!"`{name}` expects 2 arguments but was given {args.length}" ⟨span.start, ← previousStop⟩
        (some s!"use `{name}(target, amount)`")

def named (expression : Parse Expression) (name : String) : Parse Expression := do
  let state ← get
  let span := state.span
  match (state.rest.drop 1).head?.map Lexeme.token with
  | some (.punct .dot) =>
    if name == "msg" || name == "block" || name == "tx" then envValue name span
    else
      bump
      return .var span ⟨name, span⟩
  | some (.punct .leftParen) => externalCall expression name span
  | _ =>
    bump
    return .var span ⟨name, span⟩

def member (expression : Parse Expression) (start : Nat) : Parse Expression := do
  bump
  let _ ← expect .dot
  let name ← expectIdent "a field or function name after `self.`" none
  if ← isAt (.punct .leftParen) then
    let args ← parenthesised expression
    return .selfCall ⟨start, ← previousStop⟩ name args
  else if ← eat .leftBracket then
    let key ← expression
    let _ ← expect .rightBracket
    return .mapIndex ⟨start, ← previousStop⟩ name key
  else return .field ⟨start, ← previousStop⟩ name

def primary (expression : Parse Expression) : Parse Expression := do
  let span ← span
  match ← peek? with
  | some (.int digits) =>
    bump
    return .int span digits 10
  | some (.hex digits) =>
    bump
    return .int span digits 16
  | some (.str text) =>
    bump
    return .str span text
  | some (.keyword .trueWord) =>
    bump
    return .bool span true
  | some (.keyword .falseWord) =>
    bump
    return .bool span false
  | some (.keyword .selfWord) => member expression span.start
  | some (.ident name) => named expression name
  | some (.punct .leftParen) =>
    bump
    let inner ← expression
    let _ ← expect .rightParen
    return inner.withSpan ⟨span.start, ← previousStop⟩
  | _ => failExpecting "an expression" none

def unary : Nat → Parse Expression
  | 0 => do
    if ← eat .bang then failTooDeep
    else primary failTooDeep
  | room + 1 => do
    let start := (← span).start
    if ← eat .bang then
      let operand ← unary room
      return .not ⟨start, operand.span.stop⟩ operand
    else primary (binary (unary room) precedence)

def expression : Nat → Parse Expression
  | 0 => failTooDeep
  | room + 1 => binary (unary room) precedence

end Parse

end Covenant
