import Covenant.Property.Basic
import Covenant.Run.Interpreter
import Covenant.Scan.Summary

/-!
Looking for inputs that break a property. The values tried are small numbers, the largest ones of a
type, and the constants that the code mentions together with their neighbours. Only running the code
on the inputs decides whether they break the property.
-/

namespace Covenant

inductive InputSlot where
  | arg
  | env (var : EnvVar)
  | field (name : String)
  | entries (name : String)
deriving DecidableEq, Repr

abbrev Pools := List (InputSlot × List Nat)

namespace Witness

def addresses : List Nat := [0xa11ce, 0xb0b, 0]

def pool (ty : Ty) (constants : List Nat) : List Nat :=
  let values := match ty with
    | .address => addresses
    | .bool => [0, 1]
    | _ =>
      [0, 1] ++ (constants.flatMap fun value =>
        [value, (value + 1) % wordBound, (value + wordBound - 1) % wordBound].map ty.wrap) ++
      [ty.maxValue, ty.maxValue - 1, ty.maxValue / 2]
  values.eraseDups

def constantsIn (function : Function) : List Nat :=
  function.instructions.filterMap fun (_, instruction) =>
    match instruction.node with
    | .const _ value _ => some value
    | _ => none

def constants (contract : Contract) (function : Function) : List Nat :=
  let next := fun name => ((contract.function? name).map Function.callees).getD []
  let called := Reach.closure next (contract.functions.length + 1) [function.name] function.callees
  let found := constantsIn function ++ (called.filterMap contract.function?).flatMap constantsIn
  found.eraseDups.mergeSort fun left right => left ≤ right

def pools (contract : Contract) (function : Function) : Pools :=
  let constants := constants contract function
  let args := function.params.map fun param => (InputSlot.arg, pool param.2 constants)
  let env := [EnvVar.sender, .value, .timestamp].map fun var =>
    (InputSlot.env var, pool (Ty.ofEnv var) constants)
  let storage := contract.fields.map fun field =>
    match field.ty with
    | .map _ value => (InputSlot.entries field.name, pool value constants)
    | ty => (InputSlot.field field.name, pool ty constants)
  args ++ env ++ (if function.kind == .init then [] else storage)

def scramble (attempt slot : UInt64) : UInt64 :=
  let rotated := (slot <<< 32) ||| (slot >>> 32)
  let first := (attempt * 0x9e3779b97f4a7c15) ^^^ rotated
  let second := (first ^^^ (first >>> 30)) * 0xbf58476d1ce4e5b9
  let third := (second ^^^ (second >>> 27)) * 0x94d049bb133111eb
  third ^^^ (third >>> 31)

def vary : Nat → List Nat → List Nat
  | _, [] => []
  | rest, size :: sizes =>
    if rest < size - 1 then (rest + 1) :: sizes.map fun _ => 0
    else 0 :: vary (rest - (size - 1)) sizes

def variations (sizes : List Nat) : Nat := total (sizes.map fun size => size - 1)

def choose (attempt : Nat) (sizes : List Nat) : List Nat :=
  if attempt = 0 then sizes.map fun _ => 0
  else if attempt ≤ variations sizes then vary (attempt - 1) sizes
  else sizes.zipIdx.map fun (size, slot) => (scramble (.ofNat attempt) (.ofNat slot)).toNat % size

def pick (pools : Pools) (choice : List Nat) : List (InputSlot × Nat) :=
  List.zipWith (fun entry place => (entry.1, entry.2.getD place 0)) pools choice

def inputs (values : List (InputSlot × Nat)) : Inputs :=
  let args := values.filterMap fun (slot, value) => if slot == .arg then some value else none
  let env := values.foldl (fun env (slot, value) =>
    match slot with
    | .env var => env.put value var
    | _ => env) Environment.zero
  let storage := values.foldl (fun storage (slot, value) =>
    match slot with
    | .field name => Storage.put ⟨name, none⟩ value storage
    | .entries name =>
      (env.sender :: args).foldl
        (fun filled key => Storage.put ⟨name, some key⟩ value filled) storage
    | _ => storage) ([] : Storage)
  { args, env := { env with
    origin := env.sender, blockNumber := 1 }, storage, callsSucceed := true }

def boundValue? (contract : Contract) (limits : RunLimits) (env : Environment) (storage : Storage) :
    Bound → Option Nat
  | .field name => some (storage.get ⟨name, none⟩)
  | .function name =>
    match contract.run limits name { args := [], env, storage, callsSucceed := true } with
    | .ok report =>
      match report.result with
      | .returned value => value
      | .reverted _ => none
    | .error _ => none

def startsWithin (contract : Contract) (limits : RunLimits) (function : Function) (rule : Rule)
    (inputs : Inputs) : Bool :=
  match rule with
  | .boundedBy field bound =>
    function.kind == .init ||
      match boundValue? contract limits inputs.env inputs.storage bound with
      | some limit => inputs.storage.get ⟨field, none⟩ ≤ limit
      | none => false
  | _ => true

def breaks (contract : Contract) (limits : RunLimits) (rule : Rule) (inputs : Inputs)
    (report : Report) : Bool :=
  match rule with
  | .boundedBy field bound =>
    match boundValue? contract limits inputs.env report.storage bound with
    | some limit => report.storage.get ⟨field, none⟩ > limit
    | none => false
  | .noUnderflow field =>
    report.stores.any fun store => store.place.field == field && store.underflowed
  | .ownerOnly field owner =>
    inputs.env.sender != inputs.storage.get ⟨owner, none⟩ &&
      report.stores.any fun store => store.place.field == field

def violation? (contract : Contract) (limits : RunLimits) (function : Function) (rule : Rule)
    (inputs : Inputs) : Option Counterexample :=
  if startsWithin contract limits function rule inputs then
    match contract.run limits function.name inputs with
    | .ok report =>
      if report.result.isSuccess && breaks contract limits rule inputs report then
        some { function := function.name, inputs, trace := report.trace }
      else none
    | .error _ => none
  else none

def search? (contract : Contract) (limits : VerifierLimits) (function : Function) (rule : Rule) :
    Option Counterexample :=
  let pools := pools contract function
  let sizes := pools.map fun entry => entry.2.length
  let runLimits : RunLimits := { RunLimits.standard with callDepth := limits.maxCallDepth }
  (List.range limits.witnessAttempts).findSome? fun attempt =>
    violation? contract runLimits function rule (inputs (pick pools (choose attempt sizes)))

end Witness

end Covenant
