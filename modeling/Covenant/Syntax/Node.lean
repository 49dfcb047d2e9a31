import Covenant.Syntax.Tree

/-!
The nodes of a syntax tree, for code that treats contracts, declarations, statements and expressions
alike. `Node.children` gives the nodes directly below one, `SyntaxTree.nodes` all nodes with each
one before those below it.
-/

namespace Covenant

inductive Node where
  | contract (decl : ContractDecl)
  | field (decl : FieldDecl)
  | init (handler : InitHandler)
  | function (decl : FunctionDecl)
  | statement (stmt : Statement)
  | expression (expr : Expression)

namespace Expression

def parts : Expression → List Expression
  | int .. | bool .. | str .. | var .. | field .. | env .. => []
  | mapIndex _ _ key => [key]
  | selfCall _ _ args => args
  | externalCall _ _ target amount => [target, amount]
  | binary _ _ lhs rhs => [lhs, rhs]
  | not _ operand => [operand]

mutual

def nodes : Expression → List Node
  | int span digits radix => [.expression (int span digits radix)]
  | bool span value => [.expression (bool span value)]
  | str span text => [.expression (str span text)]
  | var span name => [.expression (var span name)]
  | field span name => [.expression (field span name)]
  | env span source => [.expression (env span source)]
  | mapIndex span map key => .expression (mapIndex span map key) :: key.nodes
  | selfCall span function args => .expression (selfCall span function args) :: listNodes args
  | externalCall span kind target amount =>
    .expression (externalCall span kind target amount) :: (target.nodes ++ amount.nodes)
  | binary span op lhs rhs => .expression (binary span op lhs rhs) :: (lhs.nodes ++ rhs.nodes)
  | not span operand => .expression (not span operand) :: operand.nodes

def listNodes : List Expression → List Node
  | [] => []
  | first :: rest => first.nodes ++ listNodes rest

end

end Expression

namespace Place

def key? : Place → Option Expression
  | slot _ => none
  | field _ => none
  | mapEntry _ key => some key

end Place

namespace Statement

def expressions : Statement → List Expression
  | declare _ _ _ value => [value]
  | assign _ target _ value => target.key?.toList ++ [value]
  | require _ condition _ => [condition]
  | assert _ condition => [condition]
  | revert _ _ => []
  | branch _ condition _ _ => [condition]
  | loop _ condition _ => [condition]
  | ret _ value => value.toList
  | emit _ _ args => args
  | expression _ value => [value]

def inner : Statement → List Statement
  | branch _ _ thenBlock (some elseBlock) => thenBlock.statements ++ elseBlock.statements
  | branch _ _ thenBlock none => thenBlock.statements
  | loop _ _ body => body.statements
  | _ => []

end Statement

mutual

def Statement.nodes : Statement → List Node
  | .branch span condition (.mk first firstSpan) (some (.mk second secondSpan)) =>
    .statement (.branch span condition (.mk first firstSpan) (some (.mk second secondSpan))) ::
      (condition.nodes ++ Statement.listNodes first ++ Statement.listNodes second)
  | .branch span condition (.mk first firstSpan) none =>
    .statement (.branch span condition (.mk first firstSpan) none) ::
      (condition.nodes ++ Statement.listNodes first)
  | .loop span condition (.mk body bodySpan) =>
    .statement (.loop span condition (.mk body bodySpan)) ::
      (condition.nodes ++ Statement.listNodes body)
  | statement => .statement statement :: Expression.listNodes statement.expressions

def Statement.listNodes : List Statement → List Node
  | [] => []
  | first :: rest => first.nodes ++ Statement.listNodes rest

end

namespace Node

def span : Node → Span
  | contract decl => decl.span
  | field decl => decl.span
  | init handler => handler.span
  | function decl => decl.span
  | statement stmt => stmt.span
  | expression expr => expr.span

def members (decl : ContractDecl) : List Node :=
  (decl.fields.map field ++ decl.inits.map init ++ decl.functions.map function).mergeSort
    fun left right => left.span.start ≤ right.span.start

def children : Node → List Node
  | contract decl => members decl
  | field _ => []
  | init handler => handler.body.statements.map statement
  | function decl => decl.body.statements.map statement
  | statement stmt => stmt.expressions.map expression ++ stmt.inner.map statement
  | expression expr => expr.parts.map expression

def memberNodes : Node → List Node
  | init handler => init handler :: Statement.listNodes handler.body.statements
  | function decl => function decl :: Statement.listNodes decl.body.statements
  | node => [node]

end Node

def SyntaxTree.nodes (tree : SyntaxTree) : List Node :=
  tree.contracts.flatMap fun contract => .contract contract ::
    (Node.members contract).flatMap Node.memberNodes

end Covenant
