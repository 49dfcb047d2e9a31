import Covenant.Bytecode.Machine

/-!
The inputs on which a changed program is compared with the one before. They are made from the
program: its arguments and slots take values around each immediate that occurs in it and around the
ends of the range.
-/

namespace Covenant

namespace Bytecode

namespace Probe

def insertValue (value : UInt64) : List UInt64 → List UInt64
  | [] => [value]
  | first :: rest =>
    if first == value then first :: rest
    else if value < first then value :: first :: rest
    else first :: insertValue value rest

def insertSlot (slot : UInt32) : List UInt32 → List UInt32
  | [] => [slot]
  | first :: rest =>
    if first == slot then first :: rest
    else if slot < first then slot :: first :: rest
    else first :: insertSlot slot rest

def argCount (ops : List Op) : Nat :=
  ops.foldl (fun count op => match op with
    | .arg index => max count (index.toNat + 1)
    | _ => count) 0

def slots (ops : List Op) : List UInt32 :=
  ops.foldl (fun slots op => match op with
    | .load slot _ => insertSlot slot slots
    | .store slot _ => insertSlot slot slots
    | _ => slots) []

def values (ops : List Op) : List UInt64 :=
  ops.foldl (fun values op => match op with
    | .push value _ => insertValue value (insertValue (value + 1) (insertValue (value - 1) values))
    | _ => values) [0, 1, 2, 0xffffffffffffffff]

def count : Nat := 24

def callers : List UInt64 := [0xa11ce, 0xb0b]

def pick (values : List UInt64) (seed : Nat) : UInt64 := values.getD (seed % values.length) 0

def input (args : Nat) (slots : List UInt32) (values : List UInt64) (probe : Nat) : MachineInput :=
  { args := (List.range args).map fun index => pick values (probe + index * 7)
    caller := pick callers probe
    timestamp := pick values (probe * 3 + 2)
    value := pick values (probe * 11 + 5)
    storage := slots.zipIdx.map fun (slot, index) =>
      (slot, pick values (probe * 5 + index * 3 + 1)) }

def inputs (program : Program) : List MachineInput :=
  let values := values program.ops
  MachineInput.zero ::
    (List.range count).map (input (argCount program.ops) (slots program.ops) values)

def firstDifference? (inputs : List MachineInput) (fuel : Nat) (before after : Program) :
    Option Nat :=
  inputs.findIdx? fun input => before.observe fuel input != after.observe fuel input

end Probe

end Bytecode

end Covenant
