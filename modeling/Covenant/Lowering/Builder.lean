import Covenant.Code.FlowGraph
import Covenant.Lowering.Error

/-!
The steps by which a function is built: adding instructions and blocks, declaring and finding
variables. Every step may fail with a semantic error. Events that were never declared are declared
by the first use, so the events known so far are part of what the steps work on, and outlive a
failure.
-/

namespace Covenant

structure Signature where
  params : List Ty
  returns : Option Ty
deriving DecidableEq, Repr

structure ContractScope where
  name : String
  lines : LineTable
  fields : List (String × Ty)
  signatures : List (String × Signature)

namespace ContractScope

def error (scope : ContractScope) (cause : SemanticCause) (function : Option String) (span : Span) :
    SemanticError :=
  { cause, contract := scope.name, function, location := scope.lines.location span.start, span }

def field? (scope : ContractScope) (name : String) : Option Ty := scope.fields.lookup name

def signature? (scope : ContractScope) (name : String) : Option Signature :=
  scope.signatures.lookup name

end ContractScope

structure EventScope where
  known : List (String × List Ty)
  implied : List Event
deriving DecidableEq, Repr

namespace EventScope

def types? (events : EventScope) (name : String) : Option (List Ty) := events.known.lookup name

def declare (events : EventScope) (name : String) (types : List Ty) : EventScope :=
  { events with known := (name, types) :: events.known }

def imply (events : EventScope) (name : String) (types : List Ty) : EventScope :=
  { known := (name, types) :: events.known
    implied := events.implied ++
      [⟨name, types.zipIdx.map fun (ty, index) => (s!"arg{index}", ty)⟩] }

end EventScope

structure OpenBlock where
  instructions : List (Located Instruction)
  terminator : Option (Located Terminator)
deriving Inhabited

structure Builder where
  scope : ContractScope
  function : String
  returns : Option Ty
  locals : List LocalVar
  /-- The variables that can be named, by the blocks that declare them, innermost first. -/
  visible : List (List (String × LocalId))
  blocks : List OpenBlock
  current : BlockId
  nextValue : ValueId
  events : EventScope

abbrev Build := EStateM SemanticError Builder

namespace Builder

def start (scope : ContractScope) (function : String) (returns : Option Ty) (events : EventScope) :
    Builder :=
  { scope, function, returns, locals := [], visible := [[]], blocks := [⟨[], none⟩], current := 0,
    nextValue := 0, events }

def find? (builder : Builder) (name : String) : Option LocalId :=
  builder.visible.findSome? fun names => names.lookup name

def localType (builder : Builder) (slot : LocalId) : Ty :=
  match builder.locals[slot]? with
  | some entry => entry.ty
  | none => Ty.defaultInteger

def isEnded (builder : Builder) : Bool :=
  match builder.blocks[builder.current]? with
  | some block => block.terminator.isSome
  | none => false

def emit (builder : Builder) (instruction : Instruction) (span : Span) : Builder :=
  let located : Located Instruction := ⟨instruction, builder.scope.lines.location span.start⟩
  { builder with
    blocks := builder.blocks.modify builder.current fun block =>
      { block with instructions := block.instructions ++ [located] } }

def terminate (builder : Builder) (terminator : Terminator) (span : Span) : Builder :=
  let located : Located Terminator := ⟨terminator, builder.scope.lines.location span.start⟩
  { builder with
    blocks := builder.blocks.modify builder.current fun block =>
      if block.terminator.isSome then block else { block with terminator := some located } }

def addLocal (builder : Builder) (name : String) (ty : Ty) : Builder :=
  { builder with
    locals := builder.locals ++ [⟨name, ty⟩]
    visible := builder.visible.modify 0 fun names => (name, builder.locals.length) :: names }

end Builder

namespace Build

def fail {α : Type} (cause : SemanticCause) (span : Span) : Build α := do
  let builder ← get
  throw (builder.scope.error cause (some builder.function) span)

def emit (instruction : Instruction) (span : Span) : Build Unit :=
  modify fun builder => builder.emit instruction span

def terminate (terminator : Terminator) (span : Span) : Build Unit :=
  modify fun builder => builder.terminate terminator span

def fresh : Build ValueId := do
  let builder ← get
  set { builder with nextValue := builder.nextValue + 1 }
  return builder.nextValue

def newBlock : Build BlockId := do
  let builder ← get
  set { builder with blocks := builder.blocks ++ [OpenBlock.mk [] none] }
  return builder.blocks.length

def switchTo (block : BlockId) : Build Unit :=
  modify fun builder => { builder with current := block }

def localNamed (name : Ident) : Build LocalId := do
  match (← get).find? name.name with
  | some slot => return slot
  | none => fail (.unknownVariable name.name) name.span

def declare (name : Ident) (ty : Ty) : Build LocalId := do
  let builder ← get
  if (builder.find? name.name).isSome then fail (.duplicateVariable name.name) name.span
  else
    set (builder.addLocal name.name ty)
    return builder.locals.length

def fieldType (field : Ident) : Build Ty := do
  match (← get).scope.field? field.name with
  | some ty => return ty
  | none => fail (.unknownField field.name) field.span

def scalarType (field : Ident) : Build Ty := do
  let ty ← fieldType field
  if ty.isMap then fail (.mapNotIndexed field.name) field.span else return ty

def entryTypes (field : Ident) : Build (Ty × Ty) := do
  match ← fieldType field with
  | .map key value => return (key, value)
  | _ => fail (.notMap field.name) field.span

end Build

end Covenant
