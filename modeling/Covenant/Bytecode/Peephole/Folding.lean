import Covenant.Bytecode.Assembly
import Covenant.Bytecode.Peephole.Splice

/-!
Computing operations on immediates ahead of time, deciding jumps on immediates, and dropping
operations with an operand that changes nothing.
-/

namespace Covenant

namespace Bytecode

namespace Folding

structure Fold where
  consumed : Nat
  replacement : List Op
  note : String

def isIdentity (value : UInt64) : Op → Bool
  | .binary .add => value == 0
  | .binary .sub => value == 0
  | .binary .or => value == 0
  | .binary .mul => value == 1
  | .binary .div => value == 1
  | _ => false

def foldPushed (value : UInt64) : List Op → Option Fold
  | .push rhs _ :: .binary op :: _ =>
    some ⟨3, [.pushNarrow (op.eval value rhs)], s!"folded {value} {(Op.binary op).text} {rhs}"⟩
  | .unary op :: _ =>
    some ⟨2, [.pushNarrow (op.eval value)], s!"folded {(Op.unary op).text} {value}"⟩
  | .jumpIf target :: _ =>
    if value == 0 then some ⟨2, [], "removed a jump that is never taken"⟩
    else some ⟨2, [.jump target], "made a jump that is always taken unconditional"⟩
  | op :: _ =>
    if isIdentity value op then some ⟨2, [], s!"removed {op.text} of an identity operand"⟩ else none
  | [] => none

def size (code : List Op) : Nat := total (code.map Op.encodedLength)

def foldAt? : List Op → Option Fold
  | .push value width :: rest =>
    (foldPushed value rest).filter fun fold =>
      size fold.replacement ≤ size ((.push value width :: rest).take fold.consumed)
  | _ => none

def edits : Nat → Nat → List Op → Edits × List String
  | _, _, [] => ([], [])
  | skip + 1, index, _ :: rest =>
    let (others, notes) := edits skip (index + 1) rest
    (some [] :: others, notes)
  | 0, index, op :: rest =>
    match foldAt? (op :: rest) with
    | some fold =>
      let (others, notes) := edits (fold.consumed - 1) (index + 1) rest
      (some fold.replacement :: others, s!"{fold.note} at instruction {index}" :: notes)
    | none =>
      let (others, notes) := edits 0 (index + 1) rest
      (none :: others, notes)

def reduce? (program : Program) : Option Reduction :=
  let (edits, notes) := edits 0 0 program.ops
  if notes.isEmpty then none else some ⟨program.splice edits, notes⟩

end Folding

end Bytecode

end Covenant
