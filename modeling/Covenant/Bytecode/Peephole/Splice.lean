import Covenant.Bytecode.Op

/-!
Replacing operations of a program. An edit says for each operation what stands in its place; jumps
keep leading to what they led to before, wherever that has moved.
-/

namespace Covenant

namespace Bytecode

abbrev Edits := List (Option (List Op))

namespace Edits

def segments : Edits → List Op → List (List Op)
  | _, [] => []
  | [], op :: rest => [op] :: segments [] rest
  | none :: edits, op :: rest => [op] :: segments edits rest
  | some replacement :: edits, _ :: rest => replacement :: segments edits rest

def starts (position : Nat) : List (List Op) → List Nat
  | [] => [position]
  | segment :: rest => position :: starts (position + segment.length) rest

end Edits

namespace Program

def splice (program : Program) (edits : Edits) : Program :=
  let segments := edits.segments program.ops
  let starts := Edits.starts 0 segments
  ⟨segments.flatten.map fun op => op.mapTarget fun target => starts.getD target target⟩

end Program

structure Reduction where
  program : Program
  notes : List String
deriving DecidableEq, Repr

end Bytecode

end Covenant
