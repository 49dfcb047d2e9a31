import Covenant.Json.Record
import Covenant.Source.Blank

/-!
What chains can represent and what running code on them costs. Profiles are kept in a registry by
the names of the chains, in which only letters and digits count and case does not.
-/

namespace Covenant

structure GasSchedule where
  base : Nat
  operation : Nat
  storageRead : Nat
  storageWrite : Nat
  event : Nat
  eventArg : Nat
  internalCall : Nat
  externalCall : Nat
  branch : Nat
deriving DecidableEq, Repr

namespace GasSchedule

def standard : GasSchedule :=
  { base := 21000, operation := 3, storageRead := 2100, storageWrite := 20000, event :=
    375, eventArg := 375,
    internalCall := 40, externalCall := 9000, branch := 10 }

open Json in
def ofJson? (value : Json) : Option GasSchedule := do
  match ← fieldValues? ["base", "operation", "storage_read", "storage_write", "event", "event_arg",
      "internal_call", "external_call", "branch"] value with
  | [base, operation, storageRead, storageWrite, event, eventArg, internalCall,
      externalCall, branch] =>
    return {
      base := ← orDefault word? standard.base base
      operation := ← orDefault word? standard.operation operation
      storageRead := ← orDefault word? standard.storageRead storageRead
      storageWrite := ← orDefault word? standard.storageWrite storageWrite
      event := ← orDefault word? standard.event event
      eventArg := ← orDefault word? standard.eventArg eventArg
      internalCall := ← orDefault word? standard.internalCall internalCall
      externalCall := ← orDefault word? standard.externalCall externalCall
      branch := ← orDefault word? standard.branch branch }
  | _ => none

end GasSchedule

inductive ProfileError where
  | malformed
  | invalid (name reason : String)
deriving DecidableEq, Repr

namespace ProfileError

def message : ProfileError → String
  | malformed => "Could not parse chain profiles"
  | invalid name reason => s!"Chain profile `{name}` is invalid: {reason}"

end ProfileError

structure ChainProfile where
  name : String
  addressWidth : Nat
  maxIntegerWidth : Nat
  supportsEvents : Bool
  nativeValueTransfer : Bool
  gasLimit : Nat
  gas : GasSchedule
deriving DecidableEq, Repr

namespace ChainProfile

open Json in
def ofJson? (value : Json) : Option ChainProfile := do
  match ← fieldValues? ["name", "address_width", "max_integer_width", "supports_events",
      "native_value_transfer", "gas_limit", "gas"] value with
  | [name, addressWidth, maxIntegerWidth, supportsEvents, nativeValueTransfer, gasLimit, gas] =>
    return {
      name := ← required text? name
      addressWidth := ← required halfWord? addressWidth
      maxIntegerWidth := ← required halfWord? maxIntegerWidth
      supportsEvents := ← required bool? supportsEvents
      nativeValueTransfer := ← required bool? nativeValueTransfer
      gasLimit := ← required word? gasLimit
      gas := ← orDefault GasSchedule.ofJson? GasSchedule.standard gas }
  | _ => none

def problem? (profile : ChainProfile) : Option String :=
  if profile.name.toList.all isBlank then some "the name is empty"
  else if profile.addressWidth = 0 then some "addresses have no width"
  else if profile.maxIntegerWidth < 8 || profile.maxIntegerWidth > 256 then
    some "the integer width must be between 8 and 256 bits"
  else if profile.gasLimit = 0 then some "the gas limit is zero"
  else none

def validate (profile : ChainProfile) : Except ProfileError Unit :=
  match profile.problem? with
  | some reason => .error (.invalid profile.name reason)
  | none => .ok ()

def aurlink : ChainProfile :=
  { name := "Aurlink VM", addressWidth := 256, maxIntegerWidth := 128, supportsEvents := true,
    nativeValueTransfer := true, gasLimit := 30000000
    gas :=
      { base := 10000, operation := 2, storageRead := 800, storageWrite := 5000, event :=
        250, eventArg := 50,
        internalCall := 20, externalCall := 2500, branch := 5 } }

def ethereum : ChainProfile :=
  { name := "Ethereum", addressWidth := 160, maxIntegerWidth := 256, supportsEvents := true,
    nativeValueTransfer := true, gasLimit := 30000000, gas := GasSchedule.standard }

def solana : ChainProfile :=
  { name := "Solana", addressWidth := 256, maxIntegerWidth := 128, supportsEvents := true,
    nativeValueTransfer := true, gasLimit := 200000
    gas :=
      { base := 5000, operation := 1, storageRead := 100, storageWrite := 250, event :=
        100, eventArg := 10,
        internalCall := 10, externalCall := 1000, branch := 1 } }

def starknet : ChainProfile :=
  { name := "Starknet", addressWidth := 251, maxIntegerWidth := 256, supportsEvents := true,
    nativeValueTransfer := false, gasLimit := 10000000
    gas :=
      { base := 5000, operation := 10, storageRead := 1000, storageWrite := 10000, event :=
        500, eventArg := 100,
        internalCall := 50, externalCall := 3000, branch := 10 } }

end ChainProfile

abbrev ChainRegistry := List (String × ChainProfile)

namespace ChainRegistry

def key (name : String) : String :=
  String.ofList ((name.toList.filter Char.isAlphanum).map Char.toLower)

def put (name : String) (profile : ChainProfile) : ChainRegistry → ChainRegistry
  | [] => [(name, profile)]
  | (first, held) :: rest =>
    if name < first then (name, profile) :: (first, held) :: rest
    else if name = first then (name, profile) :: rest
    else (first, held) :: put name profile rest

def insert (registry : ChainRegistry) (profile : ChainProfile) : ChainRegistry :=
  put (key profile.name) profile registry

def insertAll (registry : ChainRegistry) (profiles : List ChainProfile) : ChainRegistry :=
  profiles.foldl insert registry

def builtin : ChainRegistry :=
  insertAll [] [ChainProfile.aurlink, ChainProfile.ethereum, ChainProfile.solana,
    ChainProfile.starknet]

def profile? (registry : ChainRegistry) (name : String) : Option ChainProfile :=
  registry.lookup (key name)

def names (registry : ChainRegistry) : List String := registry.map fun entry => entry.2.name

def extend (registry : ChainRegistry) (text : String) : Except ProfileError ChainRegistry :=
  match Json.decode? (Json.list? ChainProfile.ofJson?) text with
  | none => .error .malformed
  | some profiles => do
    profiles.forM ChainProfile.validate
    return registry.insertAll profiles

end ChainRegistry

end Covenant
