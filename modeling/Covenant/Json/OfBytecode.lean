import Covenant.Bytecode.Assembly
import Covenant.Bytecode.Codec
import Covenant.Bytecode.Machine
import Covenant.Json.Encode

/-!
The JSON form of programs of the stack machine and of what can be observed of them. Operations are
read from it too.
-/

namespace Covenant

namespace Bytecode

open Json

def hexDigits (bytes : List UInt8) : String :=
  String.ofList (bytes.flatMap fun byte => [hexDigit (byte.toNat / 16), hexDigit (byte.toNat % 16)])

def wordToJson (value : UInt64) : Json := ofNat value.toNat

def Slots.toJson (value : Slots) : Json :=
  record (value.map fun entry => (toString entry.1, wordToJson entry.2))

def MachineInput.toJson (value : MachineInput) : Json :=
  record [("args", ofList wordToJson value.args), ("caller", wordToJson value.caller),
    ("timestamp", wordToJson value.timestamp), ("value", wordToJson value.value),
    ("storage", Slots.toJson value.storage)]

def Outcome.toJson : Outcome → Json
  | stopped => .str "Stopped"
  | returned => .str "Returned"
  | reverted => .str "Reverted"
  | fault .stackUnderflow => tagged "Fault" (.str "StackUnderflow")
  | fault .stackOverflow => tagged "Fault" (.str "StackOverflow")
  | outOfFuel => .str "OutOfFuel"

def Effect.toJson : Effect → Json
  | event topic value =>
    tagged "Event" (record [("topic", ofNat topic.toNat), ("value", wordToJson value)])
  | transfer target amount =>
    tagged "Transfer" (record [("target", wordToJson target), ("amount", wordToJson amount)])

def Observation.toJson (value : Observation) : Json :=
  record [("outcome", value.outcome.toJson), ("storage_delta", Slots.toJson value.storageDelta),
    ("effects", ofList Effect.toJson value.effects),
    ("return_value", ofOption wordToJson value.returnValue)]

def Program.toJson (program : Program) : Json :=
  record [("instructions", ofList (fun (op : Op) => .arr [.str op.text, ofNat op.encodedLength,
      .bool op.isTerminal, ofOption ofNat op.target?]) program.ops),
    ("encoded_len", ofNat program.encodedLength), ("offsets", ofList ofNat program.offsets),
    ("runs", ofList (fun (start, stop) => .arr [ofNat start, ofNat stop]) program.runs),
    ("asm", .str program.disassemble),
    ("hex", match program.encode with
      | .ok bytes => .str (hexDigits bytes)
      | .error problem => tagged "error" (.str problem.message))]

def plainOp? : String → Option Op
  | "Stop" => some .stop
  | "Add" => some (.binary .add)
  | "Sub" => some (.binary .sub)
  | "Mul" => some (.binary .mul)
  | "Div" => some (.binary .div)
  | "Mod" => some (.binary .mod)
  | "Lt" => some (.binary .lt)
  | "Gt" => some (.binary .gt)
  | "Eq" => some (.binary .eq)
  | "IsZero" => some (.unary .isZero)
  | "And" => some (.binary .and)
  | "Or" => some (.binary .or)
  | "Not" => some (.unary .not)
  | "Pop" => some .pop
  | "Dup" => some .dup
  | "Swap" => some .swap
  | "Caller" => some .caller
  | "Timestamp" => some .timestamp
  | "CallValue" => some .callValue
  | "JumpDest" => some .jumpDest
  | "Call" => some .call
  | "Return" => some .ret
  | "Revert" => some .revert
  | _ => none

def width? : String → Option Width
  | "W1" => some .one
  | "W2" => some .two
  | "W4" => some .four
  | "W8" => some .eight
  | _ => none

end Bytecode

end Covenant
