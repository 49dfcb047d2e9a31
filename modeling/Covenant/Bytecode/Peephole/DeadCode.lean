import Covenant.Bytecode.Peephole.Splice
import Covenant.Code.Reach

/-!
Removing what has no effect: operations that never run, jump destinations that nothing jumps to,
jumps to the operation behind them, and values that are pushed only to be popped.
-/

namespace Covenant

namespace Bytecode

namespace Program

def following (program : Program) (index : Nat) : List Nat :=
  match program.ops[index]? with
  | none => []
  | some op =>
    ((if op.isTerminal then [] else [index + 1]) ++ op.target?.toList).filter fun next =>
      next < program.ops.length

def reachable (program : Program) : List Nat :=
  Reach.closure program.following (program.ops.length + 1) []
    (if program.ops.isEmpty then [] else [0])

end Program

def Op.isPurePush : Op → Bool
  | push _ _ | arg _ | caller | timestamp | callValue => true
  | _ => false

namespace DeadCode

inductive Reason where
  | unreachable
  | marker
  | nextJump
  | discarded
deriving DecidableEq, Repr

namespace Reason

def all : List Reason := [unreachable, marker, nextJump, discarded]

def text : Reason → String
  | unreachable => "unreachable instruction(s) removed"
  | marker => "unused jump destination(s) removed"
  | nextJump => "jump(s) to the next instruction removed"
  | discarded => "discarded value(s) no longer computed"

end Reason

def reason? (reachable targets : List Nat) (index : Nat) (op : Op) (next : Option Op) :
    Option Reason :=
  if !reachable.contains index then some .unreachable
  else if op == .jumpDest && !targets.contains index then some .marker
  else if op == .jump (index + 1) then some .nextJump
  else if op.isPurePush && next == some .pop then some .discarded
  else none

def edits (reachable targets : List Nat) : Nat → List Op → Edits × List Reason
  | _, [] => ([], [])
  | index, op :: rest =>
    match reason? reachable targets index op rest.head? with
    | none =>
      let (others, reasons) := edits reachable targets (index + 1) rest
      (none :: others, reasons)
    | some .discarded =>
      match rest with
      | [] => ([none], [])
      | _ :: tail =>
        let (others, reasons) := edits reachable targets (index + 2) tail
        (some [] :: some [] :: others, .discarded :: reasons)
    | some reason =>
      let (others, reasons) := edits reachable targets (index + 1) rest
      (some [] :: others, reason :: reasons)

def targets (program : Program) (reachable : List Nat) : List Nat :=
  program.ops.zipIdx.filterMap fun (op, index) => if reachable.contains index then
    op.target? else none

def notes (reasons : List Reason) : List String :=
  Reason.all.filterMap fun reason =>
    let count := reasons.count reason
    if count > 0 then some s!"{count} {reason.text}" else none

def reduce? (program : Program) : Option Reduction :=
  let reachable := program.reachable
  let (edits, reasons) := edits reachable (targets program reachable) 0 program.ops
  if reasons.isEmpty then none else some ⟨program.splice edits, notes reasons⟩

end DeadCode

end Bytecode

end Covenant
