import Covenant.Json.Encode
import Covenant.Source.Diagnostic
import Covenant.Syntax.Tree

/-!
The JSON form of syntax trees and of the problems found in source texts.
-/

namespace Covenant

open Json

def Span.toJson (value : Span) : Json :=
  record [("start", ofNat value.start), ("end", ofNat value.stop)]

def Location.toJson (value : Location) : Json :=
  record [("line", ofNat value.line), ("column", ofNat value.column)]

def Diagnostic.toJson (value : Diagnostic) : Json :=
  record [("message", .str value.message), ("location", value.location.toJson),
    ("span", value.span.toJson), ("hint", ofOption .str value.hint)]

def Ident.toJson (value : Ident) : Json :=
  record [("name", .str value.name), ("span", value.span.toJson)]

def spanned (kind : Json) (span : Span) : Json := record [("kind", kind), ("span", span.toJson)]

def TypeExpr.toJson : TypeExpr → Json
  | .uint span width => spanned (tagged "Uint" (ofNat width)) span
  | .bool span => spanned (.str "Bool") span
  | .address span => spanned (.str "Address") span
  | .map span key value => spanned (tagged "Map" (.arr [key.toJson, value.toJson])) span

def EnvVar.toJson : EnvVar → Json
  | .sender => .str "Sender"
  | .value => .str "Value"
  | .timestamp => .str "Timestamp"
  | .blockNumber => .str "BlockNumber"
  | .origin => .str "Origin"

def ExternalKind.toJson : ExternalKind → Json
  | .transfer => .str "Transfer"
  | .call => .str "Call"

def BinaryOp.toJson : BinaryOp → Json
  | .add => .str "Add"
  | .sub => .str "Sub"
  | .mul => .str "Mul"
  | .div => .str "Div"
  | .mod => .str "Mod"
  | .eq => .str "Eq"
  | .ne => .str "Ne"
  | .lt => .str "Lt"
  | .le => .str "Le"
  | .gt => .str "Gt"
  | .ge => .str "Ge"
  | .and => .str "And"
  | .or => .str "Or"

def AssignOp.toJson : AssignOp → Json
  | .set => .str "Set"
  | .add => .str "Add"
  | .sub => .str "Sub"
  | .mul => .str "Mul"
  | .div => .str "Div"

mutual

def Expression.toJson : Expression → Json
  | .int span digits radix =>
    spanned (tagged "Int" (record [("digits", .str digits), ("radix", ofNat radix)])) span
  | .bool span value => spanned (tagged "Bool" (.bool value)) span
  | .str span text => spanned (tagged "Str" (.str text)) span
  | .var span name => spanned (tagged "Var" name.toJson) span
  | .field span name => spanned (tagged "Field" name.toJson) span
  | .mapIndex span map key =>
    spanned (tagged "MapIndex" (record [("field", map.toJson), ("key", key.toJson)])) span
  | .selfCall span function args =>
    spanned
      (tagged "SelfCall"
        (record [("function", function.toJson), ("args", .arr (Expression.listToJson args))])) span
  | .env span source => spanned (tagged "Env" source.toJson) span
  | .externalCall span kind target amount =>
    spanned (tagged "ExternalCall" (record [("kind", kind.toJson), ("target", target.toJson),
      ("amount", amount.toJson)])) span
  | .binary span op lhs rhs =>
    spanned (tagged "Binary" (record [("op", op.toJson), ("lhs", lhs.toJson), ("rhs", rhs.toJson)]))
      span
  | .not span operand =>
    spanned (tagged "Unary" (record [("op", .str "Not"), ("operand", operand.toJson)])) span

def Expression.listToJson : List Expression → List Json
  | [] => []
  | first :: rest => first.toJson :: Expression.listToJson rest

end

def Place.toJson : Place → Json
  | .slot name => tagged "Local" name.toJson
  | .field name => tagged "Field" name.toJson
  | .mapEntry map key => tagged "MapEntry" (record [("field", map.toJson), ("key", key.toJson)])

mutual

def Statement.toJson : Statement → Json
  | .declare span name ty value =>
    spanned (tagged "Let" (record [("name", name.toJson), ("ty", ofOption TypeExpr.toJson ty),
      ("value", value.toJson)])) span
  | .assign span target op value =>
    spanned
      (tagged "Assign"
        (record [("target", target.toJson), ("op", op.toJson), ("value", value.toJson)])) span
  | .require span condition message =>
    spanned
      (tagged "Require"
        (record [("condition", condition.toJson), ("message", ofOption .str message)])) span
  | .assert span condition =>
    spanned (tagged "Assert" (record [("condition", condition.toJson)])) span
  | .revert span message =>
    spanned (tagged "Revert" (record [("message", ofOption .str message)])) span
  | .branch span condition thenBlock none =>
    spanned (tagged "If" (record [("condition", condition.toJson), ("then_block", thenBlock.toJson),
      ("else_block", .null)])) span
  | .branch span condition thenBlock (some elseBlock) =>
    spanned (tagged "If" (record [("condition", condition.toJson), ("then_block", thenBlock.toJson),
      ("else_block", elseBlock.toJson)])) span
  | .loop span condition body =>
    spanned (tagged "While" (record [("condition", condition.toJson), ("body", body.toJson)])) span
  | .ret span value => spanned (tagged "Return" (ofOption Expression.toJson value)) span
  | .emit span event args =>
    spanned
      (tagged "Emit"
        (record [("event", event.toJson), ("args", .arr (Expression.listToJson args))])) span
  | .expression span value => spanned (tagged "Expression" value.toJson) span

def Statement.listToJson : List Statement → List Json
  | [] => []
  | first :: rest => first.toJson :: Statement.listToJson rest

def Block.toJson : Block → Json
  | .mk statements span =>
    record [("statements", .arr (Statement.listToJson statements)), ("span", span.toJson)]

end

def Param.toJson (value : Param) : Json :=
  record [("name", value.name.toJson), ("ty", value.ty.toJson)]

def FieldDecl.toJson (value : FieldDecl) : Json :=
  record [("name", value.name.toJson), ("ty", value.ty.toJson), ("span", value.span.toJson)]

def EventDecl.toJson (value : EventDecl) : Json :=
  record [("name", value.name.toJson), ("params", ofList Param.toJson value.params),
    ("span", value.span.toJson)]

def InitHandler.toJson (value : InitHandler) : Json :=
  record [("annotations", ofList Ident.toJson value.annotations),
    ("params", ofList Param.toJson value.params), ("body", value.body.toJson),
    ("span", value.span.toJson)]

def Visibility.toJson : Visibility → Json
  | .everyone => .str "Public"
  | .contractOnly => .str "Private"

def FunctionDecl.toJson (value : FunctionDecl) : Json :=
  record [("annotations", ofList Ident.toJson value.annotations),
    ("visibility", value.visibility.toJson), ("name", value.name.toJson),
    ("params", ofList Param.toJson value.params),
    ("returns", ofOption TypeExpr.toJson value.returns), ("body", value.body.toJson),
    ("span", value.span.toJson)]

def ContractDecl.toJson (value : ContractDecl) : Json :=
  record [("annotations", ofList Ident.toJson value.annotations), ("name", value.name.toJson),
    ("fields", ofList FieldDecl.toJson value.fields),
    ("events", ofList EventDecl.toJson value.events),
    ("inits", ofList InitHandler.toJson value.inits),
    ("functions", ofList FunctionDecl.toJson value.functions), ("span", value.span.toJson)]

def SyntaxTree.toJson (value : SyntaxTree) : Json :=
  record [("contracts", ofList ContractDecl.toJson value.contracts)]

end Covenant
