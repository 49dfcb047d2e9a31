import Covenant.Code.Ty
import Covenant.Source.Location

/-!
The instructions that a function consists of. Each one defines at most one value, and a value is
used only in the block that defines it; what outlives a block is kept in local variables and in
storage.
-/

namespace Covenant

abbrev ValueId := Nat

abbrev LocalId := Nat

abbrev BlockId := Nat

structure Located (α : Type) where
  node : α
  location : Location
deriving DecidableEq, Repr

inductive Instruction where
  | const (dest : ValueId) (value : Nat) (ty : Ty)
  | env (dest : ValueId) (var : EnvVar)
  | loadLocal (dest : ValueId) (slot : LocalId)
  | storeLocal (slot : LocalId) (value : ValueId)
  | loadField (dest : ValueId) (field : String) (key : Option ValueId)
  | storeField (field : String) (key : Option ValueId) (value : ValueId)
  | binary (dest : ValueId) (op : BinaryOp) (ty : Ty) (lhs rhs : ValueId)
  | not (dest : ValueId) (operand : ValueId)
  | call (dest : Option ValueId) (function : String) (args : List ValueId)
  | externalCall (dest : ValueId) (kind : ExternalKind) (target amount : ValueId)
  | emit (event : String) (args : List ValueId)
deriving DecidableEq, Repr

namespace Instruction

def dest? : Instruction → Option ValueId
  | const dest _ _ => some dest
  | env dest _ => some dest
  | loadLocal dest _ => some dest
  | loadField dest _ _ => some dest
  | binary dest _ _ _ _ => some dest
  | not dest _ => some dest
  | externalCall dest _ _ _ => some dest
  | call dest _ _ => dest
  | storeLocal _ _ => none
  | storeField _ _ _ => none
  | emit _ _ => none

def operands : Instruction → List ValueId
  | const _ _ _ => []
  | env _ _ => []
  | loadLocal _ _ => []
  | storeLocal _ value => [value]
  | loadField _ _ key => key.toList
  | storeField _ key value => key.toList ++ [value]
  | binary _ _ _ lhs rhs => [lhs, rhs]
  | not _ operand => [operand]
  | call _ _ args => args
  | externalCall _ _ target amount => [target, amount]
  | emit _ args => args

end Instruction

inductive GuardKind where
  | require
  | assert
deriving DecidableEq, Repr

inductive Terminator where
  | jump (target : BlockId)
  | branch (condition : ValueId) (thenBlock elseBlock : BlockId)
  | guard (condition : ValueId) (kind : GuardKind) (message : Option String) (next : BlockId)
  | ret (value : Option ValueId)
  | revert (message : Option String)
deriving DecidableEq, Repr

namespace Terminator

def successors : Terminator → List BlockId
  | jump target => [target]
  | branch _ thenBlock elseBlock => [thenBlock, elseBlock]
  | guard _ _ _ next => [next]
  | ret _ => []
  | revert _ => []

def operand? : Terminator → Option ValueId
  | branch condition _ _ => some condition
  | guard condition _ _ _ => some condition
  | ret value => value
  | jump _ => none
  | revert _ => none

def condition? : Terminator → Option ValueId
  | branch condition _ _ => some condition
  | guard condition _ _ _ => some condition
  | _ => none

end Terminator

end Covenant
