import Covenant.Completion.Suggestion
import Covenant.Syntax.Program
import Covenant.Text.Word

/-!
Completion from templates and from the declarations of the file. The braces before the cursor tell
whether it is outside of contracts, in a contract or in a function; what fits there is filtered by
the word being typed and listed by relevance.
-/

namespace Covenant

inductive Scope where
  | topLevel
  | contract
  | function
deriving DecidableEq, Repr

namespace Scope

structure Braces where
  opened : List Scope
  opensContract : Bool
deriving DecidableEq, Repr

namespace Braces

def step (braces : Braces) : Token → Braces
  | .keyword .contractWord => { braces with opensContract := true }
  | .punct .leftBrace =>
    ⟨(if braces.opensContract then Scope.contract else Scope.function) :: braces.opened, false⟩
  | .punct .rightBrace => { braces with opened := braces.opened.tail }
  | _ => braces

def scope (braces : Braces) : Scope :=
  if braces.opened.contains .function then .function
  else if braces.opened.isEmpty then .topLevel
  else .contract

end Braces

def atEnd (chars : List Char) : Scope :=
  let lexemes := (Lexer.run (LineTable.ofChars chars) chars).lexemes.getD []
  (lexemes.foldl (fun (braces : Braces) lexeme => braces.step lexeme.token) ⟨[], false⟩).scope

end Scope

structure Candidate where
  title : String
  snippet : String
  hundredths : Nat
deriving DecidableEq, Repr

namespace Candidate

def braced (head : String) (inner : List String) : String :=
  "\n".intercalate ((head ++ " \x7b") :: inner ++ ["\x7d"])

def initTitle : String := "init handler"

def templates : Scope → List Candidate
  | .topLevel =>
    [⟨"contract", braced "contract Name"
      ["  owner: address", "", "  init() \x7b", "    self.owner = msg.sender", "  \x7d"], 90⟩]
  | .contract =>
    [⟨"function", braced "name()" ["  "], 80⟩,
      ⟨initTitle, braced "init()" ["  self.owner = msg.sender"], 70⟩,
      ⟨"field", "name: u64", 60⟩,
      ⟨"nonReentrant function", braced "@nonReentrant\nwithdraw(amount: u64)" ["  "], 55⟩,
      ⟨"event", "event Name(who: address, amount: u64)", 50⟩,
      ⟨"private function", braced "private name() -> u64" ["  return 0"], 40⟩]
  | .function =>
    [⟨"require", "require(condition, \"message\")", 70⟩,
      ⟨"let", "let name = value", 60⟩,
      ⟨"if", braced "if condition" ["  "], 60⟩,
      ⟨"return", "return value", 50⟩,
      ⟨"while", braced "while condition" ["  "], 40⟩,
      ⟨"transfer", "transfer(to, amount)", 40⟩,
      ⟨"revert", "revert(\"reason\")", 30⟩]

def fieldNames (contract : ContractDecl) : List Candidate :=
  contract.fields.map fun field => ⟨field.name.name, field.name.name, 90⟩

def declarations (contract : ContractDecl) : List Candidate :=
  let fields := contract.fields.map fun field => Candidate.mk ("self." ++ field.name.name)
    ("self." ++ field.name.name) 45
  let owner :=
    if contract.fields.any fun field => field.name.name == "owner" then
      [Candidate.mk "require owner" "require(msg.sender == self.owner, \"Unauthorized\")" 75]
    else []
  let events := contract.events.map fun event =>
    let params := ", ".intercalate (event.params.map fun param => param.name.name)
    Candidate.mk ("emit " ++ event.name.name)
    ("emit " ++ event.name.name ++ "(" ++ params ++ ")") 50
  fields ++ owner ++ events

def bonus : Score := .ofHundredths 20

def rank? (word : List Char) (candidate : Candidate) : Option Suggestion :=
  let score := Score.ofHundredths candidate.hundredths
  if word.isEmpty then some ⟨candidate.title, candidate.snippet, score⟩
  else if (wordsOf candidate.title.toList).any word.isPrefixOf then
    some ⟨candidate.title, candidate.snippet, score.add bonus⟩
  else none

end Candidate

namespace EditorContext

def contract? (context : EditorContext) (cursor : Nat) : Option ContractDecl :=
  ((SyntaxTree.read context.content).tree.contracts.filter fun contract => contract.span.start ≤
    cursor).getLast?

def candidates (scope : Scope) (contract : Option ContractDecl) (afterSelf : Bool) :
    List Candidate :=
  let templates := if afterSelf then [] else (Candidate.templates scope).filter fun template =>
    !(template.title == Candidate.initTitle && contract.any fun decl => !decl.inits.isEmpty)
  let declared := match scope, contract with
    | .function, some decl =>
      if afterSelf then Candidate.fieldNames decl else Candidate.declarations decl
    | _, _ => []
  templates ++ declared

def complete (context : EditorContext) : List Suggestion :=
  let before := context.beforeCursor
  let word := lastWord before
  let afterSelf := "self.".toList.isSuffixOf (before.take (before.length - word.length))
  let found := (candidates (Scope.atEnd before) (context.contract? before.length)
    afterSelf).filterMap (Candidate.rank? word)
  found.mergeSort fun left right =>
    ((right.score.order left.score).then (compare left.title right.title)).isLE

end EditorContext

end Covenant
