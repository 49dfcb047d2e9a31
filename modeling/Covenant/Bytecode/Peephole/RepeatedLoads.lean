import Covenant.Bytecode.Peephole.Splice

/-!
Using a value again instead of loading it: one that was just stored to the slot, or just loaded from
it.
-/

namespace Covenant

namespace Bytecode

namespace RepeatedLoads

def reuse? : Op → Op → Option (List Op × String)
  | .store stored wide, .load slot _ =>
    if stored == slot then
      some ([.dup, .store stored wide], s!"forwarded the value stored to slot {slot}")
    else none
  | .load loaded wide, .load slot _ =>
    if loaded == slot then
      some ([.load loaded wide, .dup], s!"reused a repeated load of slot {slot}") else none
  | _, _ => none

def edits : List Op → Edits × List String
  | first :: second :: rest =>
    match reuse? first second with
    | some (replacement, note) =>
      let (others, notes) := edits rest
      (some replacement :: some [] :: others, note :: notes)
    | none =>
      let (others, notes) := edits (second :: rest)
      (none :: others, notes)
  | _ => ([], [])

def reduce? (program : Program) : Option Reduction :=
  let (edits, notes) := edits program.ops
  if notes.isEmpty then none else some ⟨program.splice edits, notes⟩

end RepeatedLoads

end Bytecode

end Covenant
