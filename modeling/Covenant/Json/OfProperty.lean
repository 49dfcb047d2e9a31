import Covenant.Json.OfReport
import Covenant.Property.Basic

/-!
The JSON form of symbolic values, of what is known about them, and of properties with the verdicts
on them.
-/

namespace Covenant

open Json

def LinearForm.fields (value : LinearForm) : List (String × Json) :=
  [("terms", ofList (fun term => .arr [ofNat term.1, ofInt term.2]) value.terms),
    ("constant", ofInt value.constant)]

def LinearForm.toJson (value : LinearForm) : Json := record value.fields

def RangedForm.toJson (value : RangedForm) : Json :=
  record (("atoms", ofList (fun atom => .arr [ofNat atom.1, ofNat atom.2]) value.atoms) ::
    value.form.fields)

def Term.toJson : Term → Json
  | .const value => tagged "const" (ofNat value)
  | .param index => tagged "param" (ofNat index)
  | .env var => tagged "env" (.str var.spelling)
  | .field name key version => tagged "field" (.arr [.str name, ofOption ofNat key, ofNat version])
  | .binary op lhs rhs => tagged "binary" (.arr [.str op.spelling, ofNat lhs, ofNat rhs])
  | .wrapped op lhs rhs => tagged "wrapped" (.arr [.str op.spelling, ofNat lhs, ofNat rhs])
  | .not operand => tagged "not" (ofNat operand)
  | .call function args reads =>
    tagged "call" (.arr [.str function, ofList ofNat args,
      ofList (fun read => .arr [.str read.1, ofNat read.2]) reads])
  | .external index => tagged "external" (ofNat index)

def Symbol.toJson (value : Symbol) : Json :=
  record [("node", value.term.toJson), ("type", .str value.ty.text)]

def symbolEntryToJson (entry : SymbolId × Symbol) : Json := .arr [ofNat entry.1, entry.2.toJson]

def StoreEvent.toJson (arena : Arena) (value : StoreEvent) : Json :=
  .arr [.str value.field, ofOption ofNat value.key, ofNat value.value,
    .bool (arena.underflows value.value)]

def PathEnd.toJson (arena : Arena) (value : PathEnd) : Json :=
  record [("facts", ofList LinearForm.toJson value.state.constraints.facts),
    ("stores", ofList (StoreEvent.toJson arena) value.state.stores),
    ("returned", ofOption ofNat value.returned)]

def Bound.toJson : Bound → Json
  | .field name => tagged "field" (.str name)
  | .function name => tagged "function" (.str name)

def Rule.toJson : Rule → Json
  | .boundedBy field bound =>
    record [("kind", .str "field_bounded_by"), ("field", .str field), ("bound", bound.toJson)]
  | .noUnderflow field => record [("kind", .str "no_underflow"), ("field", .str field)]
  | .ownerOnly field owner =>
    record [("kind", .str "owner_only_mutation"), ("field", .str field), ("owner", .str owner)]

def Property.fields (value : Property) : List (String × Json) :=
  [("contract", .str value.contract), ("property", value.rule.toJson)]

def Property.toJson (value : Property) : Json := record value.fields

def Counterexample.toJson (value : Counterexample) : Json :=
  record [("function", .str value.function), ("inputs", value.inputs.toJson),
    ("trace", ofList TraceStep.toJson value.trace)]

def Verification.fields (value : Verification) : List (String × Json) :=
  ("property", value.property.toJson) :: match value.verdict with
    | .verified => [("status", .str "verified")]
    | .violated counterexample =>
      [("status", .str "violated"), ("counterexample", counterexample.toJson)]
    | .unknown doubt => [("status", .str "unknown"), ("reason", .str doubt.message)]

def Verification.toJson (value : Verification) : Json := record value.fields

end Covenant
