import Covenant.Code.Instruction

/-!
Contracts as the analyses see them: storage fields with their slots, events, and functions made of
blocks.
-/

namespace Covenant

structure BasicBlock where
  id : BlockId
  instructions : List (Located Instruction)
  terminator : Located Terminator
deriving DecidableEq, Repr

namespace BasicBlock

def definition? (block : BasicBlock) (value : ValueId) : Option (Located Instruction) :=
  block.instructions.find? fun instruction => instruction.node.dest? == some value

end BasicBlock

structure LocalVar where
  name : String
  ty : Ty
deriving DecidableEq, Repr

inductive FunctionKind where
  | init
  | everyone
  | contractOnly
deriving DecidableEq, Repr

structure Function where
  name : String
  kind : FunctionKind
  params : List (String × Ty)
  returns : Option Ty
  decorators : List String
  locals : List LocalVar
  entry : BlockId
  blocks : List BasicBlock
  location : Location
deriving DecidableEq, Repr

namespace Function

def isEntryPoint (function : Function) : Bool := function.kind != .contractOnly

def hasDecorator (function : Function) (name : String) : Bool := function.decorators.contains name

def block? (function : Function) (id : BlockId) : Option BasicBlock := function.blocks[id]?

def instructions (function : Function) : List (BlockId × Located Instruction) :=
  function.blocks.flatMap fun block => block.instructions.map fun instruction =>
    (block.id, instruction)

end Function

structure Field where
  name : String
  ty : Ty
  slot : Nat
  location : Location
deriving DecidableEq, Repr

structure Event where
  name : String
  params : List (String × Ty)
deriving DecidableEq, Repr

structure Contract where
  name : String
  fields : List Field
  events : List Event
  functions : List Function
  location : Location
deriving DecidableEq, Repr

namespace Contract

def field? (contract : Contract) (name : String) : Option Field :=
  contract.fields.find? fun field => field.name == name

def function? (contract : Contract) (name : String) : Option Function :=
  contract.functions.find? fun function => function.name == name

def init? (contract : Contract) : Option Function :=
  contract.functions.find? fun function => function.kind == .init

def entryPoints (contract : Contract) : List Function :=
  contract.functions.filter Function.isEntryPoint

end Contract

structure ContractSet where
  contracts : List Contract
deriving DecidableEq, Repr

namespace ContractSet

def contract? (set : ContractSet) (name : String) : Option Contract :=
  set.contracts.find? fun contract => contract.name == name

def functions (set : ContractSet) : List (Contract × Function) :=
  set.contracts.flatMap fun contract => contract.functions.map fun function => (contract, function)

def entryPoints (set : ContractSet) : List (Contract × Function) :=
  set.functions.filter fun entry => entry.2.isEntryPoint

end ContractSet

end Covenant
