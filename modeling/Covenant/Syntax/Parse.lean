import Covenant.Source.Diagnostic
import Covenant.Source.Token
import Covenant.Syntax.Tree

/-!
The steps from which the parser is built: looking at the next token, consuming it, and failing with
a diagnostic. A step that fails keeps the place it has reached, so that reading can go on from
there.
-/

namespace Covenant

structure ParseState where
  lines : LineTable
  previous : Option Span
  rest : List Lexeme
  braces : Nat

abbrev Parse := EStateM Diagnostic ParseState

namespace ParseState

def start (lines : LineTable) (lexemes : List Lexeme) : ParseState :=
  { lines, previous := none, rest := lexemes, braces := 0 }

def peek? (state : ParseState) : Option Token := state.rest.head?.map Lexeme.token

def previousStop (state : ParseState) : Nat := (state.previous.map Span.stop).getD 0

def span (state : ParseState) : Span :=
  match state.rest with
  | lexeme :: _ => lexeme.span
  | [] => ⟨state.previousStop, state.previousStop⟩

def bump (state : ParseState) : ParseState :=
  match state.rest with
  | [] => state
  | lexeme :: rest =>
    { state with
      previous := some lexeme.span
      rest
      braces := match lexeme.token with
        | .punct .leftBrace => state.braces + 1
        | .punct .rightBrace => state.braces - 1
        | _ => state.braces }

def atLineStart (state : ParseState) : Bool :=
  match state.rest, state.previous with
  | [], _ => false
  | _ :: _, none => true
  | lexeme :: _, some previous =>
    state.lines.line previous.start < state.lines.line lexeme.span.start

def isAt (state : ParseState) (token : Token) : Bool := state.peek? == some token

end ParseState

namespace Parse

def nestingLimit : Nat := 64

def peek? : Parse (Option Token) := return (← get).peek?

def span : Parse Span := return (← get).span

def previousStop : Parse Nat := return (← get).previousStop

def bump : Parse Unit := modify ParseState.bump

def isAt (token : Token) : Parse Bool := return (← get).isAt token

def fail {α : Type} (message : String) (span : Span) (hint : Option String) : Parse α := do
  throw { Diagnostic.locate (← get).lines message span with hint }

def mismatch (state : ParseState) (what : String) (hint : Option String) : Diagnostic :=
  let found := match state.peek? with
    | some token => s!"`{token.text}`"
    | none => "end of input"
  { Diagnostic.locate state.lines s!"Expected {what}, found {found}" state.span with hint }

def failExpecting {α : Type} (what : String) (hint : Option String) : Parse α := do
  throw (mismatch (← get) what hint)

def failTooDeep {α : Type} : Parse α := do
  fail s!"Nesting exceeds the maximum depth of {nestingLimit}" (← span) none

def eat (mark : Punct) : Parse Bool := do
  if ← isAt (.punct mark) then
    bump
    return true
  else return false

def expect (mark : Punct) : Parse Span := do
  if ← isAt (.punct mark) then
    let found ← span
    bump
    return found
  else failExpecting s!"`{mark.spelling}`" none

def expectKeyword (word : Keyword) : Parse Unit := do
  if ← isAt (.keyword word) then bump
  else failExpecting s!"`{word.spelling}`" none

def expectIdent (what : String) (hint : Option String) : Parse Ident := do
  match ← peek? with
  | some (.ident name) =>
    let found ← span
    bump
    return ⟨name, found⟩
  | _ => failExpecting what hint

def expectString : Parse String := do
  match ← peek? with
  | some (.str text) =>
    bump
    return text
  | _ => failExpecting "a string literal" none

def repeatWith {α : Type} (step : Parse (Option α)) : Nat → Parse (List α)
  | 0 => return []
  | fuel + 1 => do
    match ← step with
    | none => return []
    | some item => return item :: (← repeatWith step fuel)

def repeated {α : Type} (step : Parse (Option α)) : Parse (List α) := do
  repeatWith step ((← get).rest.length + 1)

def itemsWith {α : Type} (item : Parse α) : Nat → Parse (List α)
  | 0 => return []
  | fuel + 1 => do
    if ← eat .rightParen then return []
    let first ← item
    if ← eat .comma then return first :: (← itemsWith item fuel)
    let _ ← expect .rightParen
    return [first]

def parenthesised {α : Type} (item : Parse α) : Parse (List α) := do
  let _ ← expect .leftParen
  itemsWith item ((← get).rest.length + 1)

end Parse

end Covenant
