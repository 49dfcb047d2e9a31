import Covenant.Source.Location

/-!
The syntax tree of a source text: contracts with their fields, events, handlers and functions, down
to statements and expressions. Every part records the characters it was read from.
-/

namespace Covenant

structure Ident where
  name : String
  span : Span
deriving DecidableEq, Repr, Inhabited

inductive TypeExpr where
  | uint (span : Span) (width : Nat)
  | bool (span : Span)
  | address (span : Span)
  | map (span : Span) (key value : TypeExpr)
deriving DecidableEq, Repr, Inhabited

def TypeExpr.span : TypeExpr → Span
  | uint span _ => span
  | bool span => span
  | address span => span
  | map span _ _ => span

inductive EnvVar where
  | sender
  | value
  | timestamp
  | blockNumber
  | origin
deriving DecidableEq, Repr

namespace EnvVar

def all : List EnvVar := [sender, value, timestamp, blockNumber, origin]

def spelling : EnvVar → String
  | sender => "msg.sender"
  | value => "msg.value"
  | timestamp => "block.timestamp"
  | blockNumber => "block.number"
  | origin => "tx.origin"

def ofParts? (object member : String) : Option EnvVar :=
  all.find? fun var => var.spelling == object ++ "." ++ member

def rank : EnvVar → Nat
  | sender => 0
  | value => 1
  | timestamp => 2
  | blockNumber => 3
  | origin => 4

end EnvVar

inductive ExternalKind where
  | transfer
  | call
deriving DecidableEq, Repr

inductive BinaryOp where
  | add
  | sub
  | mul
  | div
  | mod
  | eq
  | ne
  | lt
  | le
  | gt
  | ge
  | and
  | or
deriving DecidableEq, Repr

namespace BinaryOp

def all : List BinaryOp := [add, sub, mul, div, mod, eq, ne, lt, le, gt, ge, and, or]

def spelling : BinaryOp → String
  | add => "+"
  | sub => "-"
  | mul => "*"
  | div => "/"
  | mod => "%"
  | eq => "=="
  | ne => "!="
  | lt => "<"
  | le => "<="
  | gt => ">"
  | ge => ">="
  | and => "&&"
  | or => "||"

def isArithmetic : BinaryOp → Bool
  | add | sub | mul | div | mod => true
  | _ => false

def isComparison : BinaryOp → Bool
  | eq | ne | lt | le | gt | ge => true
  | _ => false

def isLogical : BinaryOp → Bool
  | and | or => true
  | _ => false

end BinaryOp

inductive AssignOp where
  | set
  | add
  | sub
  | mul
  | div
deriving DecidableEq, Repr

def AssignOp.binaryOp? : AssignOp → Option BinaryOp
  | set => none
  | add => some .add
  | sub => some .sub
  | mul => some .mul
  | div => some .div

inductive Expression where
  | int (span : Span) (digits : String) (radix : Nat)
  | bool (span : Span) (value : Bool)
  | str (span : Span) (text : String)
  | var (span : Span) (name : Ident)
  | field (span : Span) (name : Ident)
  | mapIndex (span : Span) (field : Ident) (key : Expression)
  | selfCall (span : Span) (function : Ident) (args : List Expression)
  | env (span : Span) (var : EnvVar)
  | externalCall (span : Span) (kind : ExternalKind) (target amount : Expression)
  | binary (span : Span) (op : BinaryOp) (lhs rhs : Expression)
  | not (span : Span) (operand : Expression)
deriving Repr, Inhabited

namespace Expression

def span : Expression → Span
  | int span _ _ => span
  | bool span _ => span
  | str span _ => span
  | var span _ => span
  | field span _ => span
  | mapIndex span _ _ => span
  | selfCall span _ _ => span
  | env span _ => span
  | externalCall span _ _ _ => span
  | binary span _ _ _ => span
  | not span _ => span

def withSpan (span : Span) : Expression → Expression
  | int _ digits radix => int span digits radix
  | bool _ value => bool span value
  | str _ text => str span text
  | var _ name => var span name
  | field _ name => field span name
  | mapIndex _ map key => mapIndex span map key
  | selfCall _ function args => selfCall span function args
  | env _ source => env span source
  | externalCall _ kind target amount => externalCall span kind target amount
  | binary _ op lhs rhs => binary span op lhs rhs
  | not _ operand => not span operand

end Expression

inductive Place where
  | slot (name : Ident)
  | field (name : Ident)
  | mapEntry (field : Ident) (key : Expression)
deriving Repr

def Place.span : Place → Span
  | slot name => name.span
  | field name => name.span
  | mapEntry map key => ⟨map.span.start, key.span.stop⟩

mutual

inductive Statement where
  | declare (span : Span) (name : Ident) (ty : Option TypeExpr) (value : Expression)
  | assign (span : Span) (target : Place) (op : AssignOp) (value : Expression)
  | require (span : Span) (condition : Expression) (message : Option String)
  | assert (span : Span) (condition : Expression)
  | revert (span : Span) (message : Option String)
  | branch (span : Span) (condition : Expression) (thenBlock : Block) (elseBlock : Option Block)
  | loop (span : Span) (condition : Expression) (body : Block)
  | ret (span : Span) (value : Option Expression)
  | emit (span : Span) (event : Ident) (args : List Expression)
  | expression (span : Span) (value : Expression)

inductive Block where
  | mk (statements : List Statement) (span : Span)

end

instance : Inhabited Block := ⟨.mk [] default⟩

def Block.statements : Block → List Statement
  | mk statements _ => statements

def Block.span : Block → Span
  | mk _ span => span

def Statement.span : Statement → Span
  | declare span _ _ _ => span
  | assign span _ _ _ => span
  | require span _ _ => span
  | assert span _ => span
  | revert span _ => span
  | branch span _ _ _ => span
  | loop span _ _ => span
  | ret span _ => span
  | emit span _ _ => span
  | expression span _ => span

structure Param where
  name : Ident
  ty : TypeExpr
deriving DecidableEq, Repr

structure FieldDecl where
  name : Ident
  ty : TypeExpr
  span : Span
deriving DecidableEq, Repr

structure EventDecl where
  name : Ident
  params : List Param
  span : Span
deriving DecidableEq, Repr

structure InitHandler where
  annotations : List Ident
  params : List Param
  body : Block
  span : Span

inductive Visibility where
  | everyone
  | contractOnly
deriving DecidableEq, Repr

structure FunctionDecl where
  annotations : List Ident
  visibility : Visibility
  name : Ident
  params : List Param
  returns : Option TypeExpr
  body : Block
  span : Span

structure ContractDecl where
  annotations : List Ident
  name : Ident
  fields : List FieldDecl
  events : List EventDecl
  inits : List InitHandler
  functions : List FunctionDecl
  span : Span

structure SyntaxTree where
  contracts : List ContractDecl

namespace SyntaxTree

def contract? (tree : SyntaxTree) (name : String) : Option ContractDecl :=
  tree.contracts.find? fun contract => contract.name.name == name

end SyntaxTree

end Covenant
