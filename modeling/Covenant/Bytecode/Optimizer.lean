import Covenant.Bytecode.Codec
import Covenant.Bytecode.Probe
import Covenant.Bytecode.Peephole.DeadCode
import Covenant.Bytecode.Peephole.Folding
import Covenant.Bytecode.Peephole.Packing
import Covenant.Bytecode.Peephole.RepeatedLoads

/-!
Making a buffer smaller without changing what its program does. Reductions are tried in a fixed
order, round after round, until a round changes nothing. Each one is kept only if the new program is
valid, not longer, and cannot be told apart from the old one on the probes.
-/

namespace Covenant

namespace Bytecode

inductive Transformation where
  | deadCode
  | folding
  | packing
  | repeatedLoads
deriving DecidableEq, Repr

namespace Transformation

def all : List Transformation := [deadCode, folding, packing, repeatedLoads]

def name : Transformation → String
  | deadCode => "dead-code-elimination"
  | folding => "constant-folding"
  | packing => "slot-packing"
  | repeatedLoads => "redundant-load-elimination"

def reduce? : Transformation → Program → Option Reduction
  | deadCode, program => DeadCode.reduce? program
  | folding, program => Folding.reduce? program
  | packing, program => Packing.reduce? program
  | repeatedLoads, program => RepeatedLoads.reduce? program

end Transformation

structure OptimizerLimits where
  maxRounds : Nat
  probeFuel : Nat
deriving DecidableEq, Repr

namespace OptimizerLimits

def standard : OptimizerLimits := ⟨64, 10000⟩

end OptimizerLimits

structure Optimized where
  sizeBefore : Nat
  notes : List String
  bytes : List UInt8
deriving DecidableEq, Repr

namespace Optimized

def unchanged (bytes : List UInt8) : Optimized := { sizeBefore := bytes.length, notes := [], bytes }

def size (result : Optimized) : Nat := result.bytes.length

def savings (result : Optimized) : Nat := result.sizeBefore - result.size

end Optimized

namespace Optimizer

def accepts (inputs : List MachineInput) (fuel : Nat) (program candidate : Program) : Bool :=
  candidate.strayJump?.isNone && candidate.encodedLength ≤ program.encodedLength && candidate !=
    program && (Probe.firstDifference? inputs fuel program candidate).isNone

def round (inputs : List MachineInput) (fuel : Nat) :
    List Transformation → Program → Program × List String
  | [], program => (program, [])
  | transformation :: rest, program =>
    match transformation.reduce? program with
    | none => round inputs fuel rest program
    | some reduction =>
      if accepts inputs fuel program reduction.program then
        let (final, notes) := round inputs fuel rest reduction.program
        (final, reduction.notes.map (fun note => s!"{transformation.name}: {note}") ++ notes)
      else round inputs fuel rest program

def rounds (inputs : List MachineInput) (fuel : Nat) : Nat → Program → Program × List String
  | 0, program => (program, [])
  | count + 1, program =>
    let (next, notes) := round inputs fuel Transformation.all program
    if notes.isEmpty then (program, [])
    else
      let (final, others) := rounds inputs fuel count next
      (final, notes ++ others)

def optimize (limits : OptimizerLimits) (bytes : List UInt8) : Optimized :=
  match Program.decode bytes with
  | .error _ => .unchanged bytes
  | .ok program =>
    let (final, notes) := rounds (Probe.inputs program) limits.probeFuel limits.maxRounds program
    if notes.isEmpty then .unchanged bytes
    else match final.encode with
      | .ok optimized => { sizeBefore := bytes.length, notes, bytes := optimized }
      | .error _ => .unchanged bytes

end Optimizer

end Bytecode

end Covenant
