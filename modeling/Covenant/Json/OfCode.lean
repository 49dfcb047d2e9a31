import Covenant.Code.FlowGraph
import Covenant.Json.OfSyntax
import Covenant.Lowering.Error

/-!
The JSON form of contracts as the analyses see them, and of what is wrong with their sources.
-/

namespace Covenant

open Json

def Ty.toJson : Ty → Json
  | .uint width => tagged "Uint" (ofNat width)
  | .bool => .str "Bool"
  | .address => .str "Address"
  | .map key value => tagged "Map" (.arr [key.toJson, value.toJson])

def typedNameToJson (entry : String × Ty) : Json := .arr [.str entry.1, entry.2.toJson]

def Located.toJson {α : Type} (encode : α → Json) (value : Located α) : Json :=
  record [("node", encode value.node), ("location", value.location.toJson)]

def Instruction.toJson : Instruction → Json
  | .const dest value ty =>
    tagged "Const" (record [("dest", ofNat dest), ("value", ofNat value), ("ty", ty.toJson)])
  | .env dest var => tagged "Env" (record [("dest", ofNat dest), ("var", var.toJson)])
  | .loadLocal dest slot =>
    tagged "LoadLocal" (record [("dest", ofNat dest), ("local", ofNat slot)])
  | .storeLocal slot value =>
    tagged "StoreLocal" (record [("local", ofNat slot), ("value", ofNat value)])
  | .loadField dest field key =>
    tagged "LoadField"
      (record [("dest", ofNat dest), ("field", .str field), ("key", ofOption ofNat key)])
  | .storeField field key value =>
    tagged "StoreField"
      (record [("field", .str field), ("key", ofOption ofNat key), ("value", ofNat value)])
  | .binary dest op ty lhs rhs =>
    tagged "Binary"
      (record [("dest", ofNat dest), ("op", op.toJson), ("ty", ty.toJson), ("lhs", ofNat lhs),
        ("rhs", ofNat rhs)])
  | .not dest operand =>
    tagged "Unary" (record [("dest", ofNat dest), ("op", .str "Not"), ("operand", ofNat operand)])
  | .call dest function args =>
    tagged "Call"
      (record [("dest", ofOption ofNat dest), ("function", .str function),
        ("args", ofList ofNat args)])
  | .externalCall dest kind target amount =>
    tagged "ExternalCall"
      (record [("dest", ofNat dest), ("kind", kind.toJson), ("target", ofNat target),
        ("amount", ofNat amount)])
  | .emit event args => tagged "Emit" (record [("event", .str event), ("args", ofList ofNat args)])

def GuardKind.toJson : GuardKind → Json
  | .require => .str "Require"
  | .assert => .str "Assert"

def Terminator.toJson : Terminator → Json
  | .jump target => tagged "Jump" (ofNat target)
  | .branch condition thenBlock elseBlock =>
    tagged "Branch" (record [("cond", ofNat condition), ("then_block", ofNat thenBlock),
      ("else_block", ofNat elseBlock)])
  | .guard condition kind message next =>
    tagged "Guard"
      (record [("cond", ofNat condition), ("kind", kind.toJson), ("message", ofOption .str message),
        ("next", ofNat next)])
  | .ret value => tagged "Return" (ofOption ofNat value)
  | .revert message => tagged "Revert" (ofOption .str message)

def BasicBlock.toJson (value : BasicBlock) : Json :=
  record [("id", ofNat value.id),
    ("instructions", ofList (Located.toJson Instruction.toJson) value.instructions),
    ("terminator", value.terminator.toJson Terminator.toJson)]

def FunctionKind.toJson : FunctionKind → Json
  | .init => .str "Init"
  | .everyone => .str "Public"
  | .contractOnly => .str "Private"

def LocalVar.toJson (value : LocalVar) : Json :=
  record [("name", .str value.name), ("ty", value.ty.toJson)]

def Function.toJson (value : Function) : Json :=
  record [("name", .str value.name), ("kind", value.kind.toJson),
    ("params", ofList typedNameToJson value.params), ("returns", ofOption Ty.toJson value.returns),
    ("decorators", ofList .str value.decorators), ("locals", ofList LocalVar.toJson value.locals),
    ("entry", ofNat value.entry), ("blocks", ofList BasicBlock.toJson value.blocks),
    ("location", value.location.toJson)]

def Field.toJson (value : Field) : Json :=
  record [("name", .str value.name), ("ty", value.ty.toJson), ("slot", ofNat value.slot),
    ("location", value.location.toJson)]

def Event.toJson (value : Event) : Json :=
  record [("name", .str value.name), ("params", ofList typedNameToJson value.params)]

def Contract.toJson (value : Contract) : Json :=
  record [("name", .str value.name), ("fields", ofList Field.toJson value.fields),
    ("layout", record (value.fields.map fun field => (field.name, ofNat field.slot))),
    ("events", ofList Event.toJson value.events),
    ("functions", ofList Function.toJson value.functions), ("location", value.location.toJson)]

def SemanticCause.toJson : SemanticCause → Json
  | .duplicateField name => tagged "DuplicateField" (.str name)
  | .duplicateFunction name => tagged "DuplicateFunction" (.str name)
  | .duplicateEvent name => tagged "DuplicateEvent" (.str name)
  | .duplicateContract name => tagged "DuplicateContract" (.str name)
  | .duplicateInit => .str "DuplicateInit"
  | .duplicateParameter name => tagged "DuplicateParameter" (.str name)
  | .duplicateVariable name => tagged "DuplicateVariable" (.str name)
  | .unknownField name => tagged "UnknownField" (.str name)
  | .unknownFunction name => tagged "UnknownFunction" (.str name)
  | .unknownVariable name => tagged "UnknownVariable" (.str name)
  | .typeMismatch expected found =>
    tagged "TypeError" (record [("expected", .str expected), ("found", .str found)])
  | .invalidOperand operator ty =>
    tagged "InvalidOperand" (record [("operator", .str operator), ("ty", .str ty)])
  | .arityMismatch name expected found =>
    tagged "ArityMismatch"
      (record [("name", .str name), ("expected", ofNat expected), ("found", ofNat found)])
  | .notMap name => tagged "NotAMap" (.str name)
  | .mapNotIndexed name => tagged "MapNotIndexed" (.str name)
  | .literalOutOfRange literal ty =>
    tagged "LiteralOutOfRange" (record [("literal", .str literal), ("ty", .str ty)])
  | .noReturnValue name => tagged "NoReturnValue" (.str name)
  | .missingReturn name => tagged "MissingReturn" (.str name)
  | .mapOutsideStorage => .str "MapOutsideStorage"
  | .unusedExpression => .str "UnusedExpression"

def SemanticError.fields (value : SemanticError) : List (String × Json) :=
  [("kind", value.cause.toJson), ("contract", .str value.contract),
    ("function", ofOption .str value.function), ("location", value.location.toJson),
    ("span", value.span.toJson)]

def SemanticError.toJson (value : SemanticError) : Json := record value.fields

def FlowGraph.toJson (value : FlowGraph) : Json :=
  let order := value.reversePostorder
  let tree := value.dominators
  record [("entry", ofNat value.entry), ("len", ofNat value.size),
    ("successors", ofList (fun block => ofList ofNat (value.successors block)) value.blocks),
    ("predecessors", ofList (fun block => ofList ofNat (value.predecessors block)) value.blocks),
    ("reachable", ofList (fun block => .bool (order.contains block)) value.blocks),
    ("idom", ofList (fun block => ofOption ofNat (tree.immediate? block)) value.blocks),
    ("dominates", ofList (fun block => ofList ofNat (value.blocks.filter (tree.dominates block)))
      value.blocks),
    ("reachable_from", ofList (fun block =>
      ofList ofNat (value.blocks.filter (value.reachableFrom block).contains)) value.blocks),
    ("rpo", ofList ofNat order),
    ("loops", ofList
      (fun (source, header) =>
        record [("from", ofNat source), ("header", ofNat header),
          ("body", ofList ofNat (value.naturalLoop source header))]) value.backEdges)]

end Covenant
