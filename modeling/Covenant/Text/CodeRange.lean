/-!
Sets of characters, given as ranges of their code points.
-/

namespace Covenant

def inRanges (code : Nat) : List (Nat × Nat) → Bool
  | [] => false
  | range :: rest => if code < range.1 then false else code ≤ range.2 || inRanges code rest

end Covenant
