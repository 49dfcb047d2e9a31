import Covenant.Json.OfCode
import Covenant.Run.Report
import Covenant.Scan.Issue

/-!
The JSON form of what calls report and of findings.
-/

namespace Covenant

open Json

def Storage.toJson (value : Storage) : Json :=
  record (value.map fun entry => (entry.1.text, ofNat entry.2))

def Environment.toJson (value : Environment) : Json :=
  record [("sender", ofNat value.sender), ("value", ofNat value.value),
    ("timestamp", ofNat value.timestamp), ("block_number", ofNat value.blockNumber),
    ("origin", ofNat value.origin)]

def Inputs.toJson (value : Inputs) : Json :=
  record [("args", ofList ofNat value.args), ("env", value.env.toJson),
    ("storage", Storage.toJson value.storage), ("calls_succeed", .bool value.callsSucceed)]

def CallResult.toJson : CallResult → Json
  | .returned value => tagged "Returned" (ofOption ofNat value)
  | .reverted message => tagged "Reverted" (ofOption .str message)

def TraceStep.toJson (value : TraceStep) : Json :=
  record [("function", .str value.function), ("block", ofNat value.block),
    ("location", value.location.toJson), ("action", .str value.action.text)]

def EmittedEvent.toJson (value : EmittedEvent) : Json :=
  record [("name", .str value.name), ("args", ofList ofNat value.args)]

def StoreRecord.toJson (value : StoreRecord) : Json :=
  record [("key", .str value.place.text), ("value", ofNat value.value),
    ("underflowed", .bool value.underflowed)]

def ExternalCallRecord.toJson (value : ExternalCallRecord) : Json :=
  record [("kind", value.kind.toJson), ("target", ofNat value.target),
    ("amount", ofNat value.amount)]

def Report.fields (value : Report) : List (String × Json) :=
  [("outcome", value.result.toJson), ("storage", Storage.toJson value.storage),
    ("events", ofList EmittedEvent.toJson value.events),
    ("stores", ofList StoreRecord.toJson value.stores),
    ("calls", ofList ExternalCallRecord.toJson value.calls)]

def Report.toJson (value : Report) : Json :=
  record (("trace", ofList TraceStep.toJson value.trace) :: value.fields)

def Severity.toJson : Severity → Json
  | .low => .str "Low"
  | .medium => .str "Medium"
  | .high => .str "High"

def Issue.fields (value : Issue) : List (String × Json) :=
  [("location", ofOption Location.toJson value.location), ("id", .str value.id),
    ("severity", value.severity.toJson), ("function", ofOption .str value.function),
    ("message", .str value.message)]

def Issue.toJson (value : Issue) : Json := record value.fields

end Covenant
