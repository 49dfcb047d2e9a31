import Covenant.Bytecode.Peephole.Splice

/-!
Narrowing operands: accesses to slots that fit in a byte, and immediates that fit in fewer bytes.
-/

namespace Covenant

namespace Bytecode

namespace Packing

def narrow? : Op → Option Op
  | .load slot true => if Op.isNarrowSlot slot then some (.load slot false) else none
  | .store slot true => if Op.isNarrowSlot slot then some (.store slot false) else none
  | .push value width =>
    if (Width.smallestFor value).bytes < width.bytes then some (.pushNarrow value) else none
  | _ => none

def isPush : Op → Bool
  | .push _ _ => true
  | _ => false

def reduce? (program : Program) : Option Reduction :=
  let changed := program.ops.filter fun op => (narrow? op).isSome
  if changed.isEmpty then none
  else
    let immediates := changed.countP isPush
    let slots := changed.length - immediates
    let slotNote :=
      if slots > 0 then [s!"{slots} storage access(es) narrowed to one-byte slots"] else []
    let pushNote := if immediates > 0 then [s!"{immediates} immediate(s) narrowed"] else []
    some ⟨program.splice (program.ops.map fun op => (narrow? op).map fun narrow => [narrow]),
      slotNote ++ pushNote⟩

end Packing

end Bytecode

end Covenant
