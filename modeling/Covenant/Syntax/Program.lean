import Covenant.Source.Lexer
import Covenant.Syntax.Statement

/-!
Reading contracts and whole source texts. A declaration that cannot be read costs only itself:
reading goes on at the next declaration of the contract, or at the next contract. `SyntaxTree.read`
therefore always gives a tree, together with every problem found.
-/

namespace Covenant

inductive MemberDecl where
  | field (decl : FieldDecl)
  | event (decl : EventDecl)
  | init (handler : InitHandler)
  | function (decl : FunctionDecl)

namespace MemberDecl

def field? : MemberDecl → Option FieldDecl
  | field decl => some decl
  | _ => none

def event? : MemberDecl → Option EventDecl
  | event decl => some decl
  | _ => none

def init? : MemberDecl → Option InitHandler
  | init handler => some handler
  | _ => none

def function? : MemberDecl → Option FunctionDecl
  | function decl => some decl
  | _ => none

end MemberDecl

namespace Parse

def annotation : Parse (Option Ident) := do
  if ← eat .atSign then some <$> expectIdent "an annotation name" none
  else return none

def annotations : Parse (List Ident) := repeated annotation

def param : Parse Param := do
  let name ← expectIdent "a parameter name" none
  let _ ← expect .colon
  return ⟨name, ← typeExpr nestingLimit⟩

def params : Parse (List Param) := parenthesised param

def functionDecl (notes : List Ident) (visibility : Visibility) (start : Nat) : Parse MemberDecl :=
  do
  let name ← expectIdent "a function name" none
  let params ← params
  let returns ← if ← eat .arrow then some <$> typeExpr nestingLimit else pure none
  let body ← block nestingLimit
  return .function
    { annotations := notes, visibility, name, params, returns, body, span :=
      ⟨start, ← previousStop⟩ }

def fieldDecl (start : Nat) : Parse MemberDecl := do
  let name ← expectIdent "a field name" none
  let _ ← expect .colon
  let ty ← typeExpr nestingLimit
  return .field ⟨name, ty, ⟨start, ← previousStop⟩⟩

def memberDecl : Parse MemberDecl := do
  let start := (← span).start
  let notes ← annotations
  match ← peek? with
  | some (.keyword .initWord) =>
    bump
    let params ← params
    let body ← block nestingLimit
    return .init { annotations := notes, params, body, span := ⟨start, ← previousStop⟩ }
  | some (.keyword .eventWord) =>
    bump
    let name ← expectIdent "an event name" none
    let params ← params
    return .event ⟨name, params, ⟨start, ← previousStop⟩⟩
  | some (.keyword .privateWord) =>
    bump
    functionDecl notes .contractOnly start
  | some (.ident _) =>
    match ((← get).rest.drop 1).head?.map Lexeme.token with
    | some (.punct .colon) => fieldDecl start
    | some (.punct .leftParen) => functionDecl notes .everyone start
    | _ =>
      bump
      failExpecting "`:` after a field name or `(` after a function name" none
  | _ => failExpecting "a field, event, `init` or function declaration" none

def attempt {α : Type} (step : Parse α) : Parse (Except Diagnostic α) := fun state =>
  match step state with
  | .ok result next => .ok (.ok result) next
  | .error problem next => .ok (.error problem) next

end Parse

namespace ParseState

def startsMember (state : ParseState) : Bool :=
  match state.peek? with
  | some (.ident _) => true
  | some (.keyword .initWord) => true
  | some (.keyword .eventWord) => true
  | some (.keyword .privateWord) => true
  | some (.punct .atSign) => true
  | _ => false

/-- Skips at most `fuel` tokens, up to the next declaration of the contract whose declarations stand
at the given depth of braces, to the end of that contract, or to the next contract. -/
def skipToMember (depth : Nat) : Nat → ParseState → ParseState
  | 0, state => state
  | fuel + 1, state =>
    match state.peek? with
    | none => state
    | some (.keyword .contractWord) => { state with braces := depth }
    | some token =>
      if state.braces == depth && token == .punct .rightBrace then state
      else if state.braces == depth && state.startsMember && state.atLineStart then state
      else skipToMember depth fuel state.bump

def recoverMember (depth before : Nat) (state : ParseState) : ParseState :=
  let moved :=
    if state.rest.length == before && !state.isAt (.punct .rightBrace) then state.bump else state
  moved.skipToMember depth (moved.rest.length + 1)

def skipToContract : Nat → ParseState → ParseState
  | 0, state => state
  | fuel + 1, state =>
    match state.peek? with
    | none => state
    | some (.keyword .contractWord) => state
    | some _ => skipToContract fuel state.bump

def recoverContract (before : Nat) (state : ParseState) : ParseState :=
  let moved := if state.rest.length == before then state.bump else state
  { moved.skipToContract (moved.rest.length + 1) with braces := 0 }

end ParseState

namespace Parse

abbrev Found (α : Type) := List α × List Diagnostic

def members (name : Ident) (depth : Nat) : Nat → Parse (Found MemberDecl)
  | 0 => return ([], [])
  | fuel + 1 => do
    let state ← get
    match state.peek? with
    | none =>
      let problem :=
        Diagnostic.locate state.lines s!"Contract `{name.name}` is never closed" name.span
      return ([], [problem.withHint "add a `\x7d` at the end of the contract"])
    | some (.punct .rightBrace) =>
      bump
      return ([], [])
    | some (.keyword .contractWord) =>
      return ([], [mismatch state s!"`\x7d` to close contract `{name.name}`" none])
    | some _ =>
      match ← attempt memberDecl with
      | .ok decl =>
        let (decls, problems) ← members name depth fuel
        return (decl :: decls, problems)
      | .error problem =>
        modify (ParseState.recoverMember depth state.rest.length)
        let (decls, problems) ← members name depth fuel
        return (decls, problem :: problems)

def contract : Parse (ContractDecl × List Diagnostic) := do
  let start := (← span).start
  let notes ← annotations
  expectKeyword .contractWord
  let name ← expectIdent "a contract name" none
  let _ ← expect .leftBrace
  let state ← get
  let (decls, problems) ← members name state.braces (state.rest.length + 1)
  modify fun state => { state with braces := 0 }
  return ({ annotations := notes
            name
            fields := decls.filterMap MemberDecl.field?
            events := decls.filterMap MemberDecl.event?
            inits := decls.filterMap MemberDecl.init?
            functions := decls.filterMap MemberDecl.function?
            span := ⟨start, ← previousStop⟩ }, problems)

def contracts : Nat → Parse (Found ContractDecl)
  | 0 => return ([], [])
  | fuel + 1 => do
    let state ← get
    if state.rest.isEmpty then return ([], [])
    match ← attempt contract with
    | .ok (decl, inside) =>
      let (decls, problems) ← contracts fuel
      return (decl :: decls, inside ++ problems)
    | .error problem =>
      modify (ParseState.recoverContract state.rest.length)
      let (decls, problems) ← contracts fuel
      return (decls, problem :: problems)

end Parse

namespace SyntaxTree

def ofLexemes (lines : LineTable) (lexemes : List Lexeme) : SyntaxTree × List Diagnostic :=
  match Parse.contracts (lexemes.length + 1) (ParseState.start lines lexemes) with
  | .ok (contracts, problems) _ => (⟨contracts⟩, problems)
  | .error problem _ => (⟨[]⟩, [problem])

structure Outcome where
  tree : SyntaxTree
  problems : List Diagnostic

def read (text : String) : Outcome :=
  let chars := text.toList
  let lines := LineTable.ofChars chars
  let lexed := Lexer.run lines chars
  let (tree, problems) := ofLexemes lines (lexed.lexemes.getD [])
  { tree
    problems := (lexed.problems ++ problems).mergeSort fun left right =>
      left.span.start ≤ right.span.start }

end SyntaxTree

end Covenant
