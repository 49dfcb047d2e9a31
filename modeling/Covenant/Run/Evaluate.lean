import Covenant.Code.Ty

/-!
The values that operators compute.
-/

namespace Covenant

def ofBool (value : Bool) : Nat := if value then 1 else 0

def BinaryOp.eval? (op : BinaryOp) (ty : Ty) (lhs rhs : Nat) : Option Nat :=
  match op with
  | .add => some (ty.wrap ((lhs + rhs) % wordBound))
  | .sub => some (ty.wrap ((lhs + wordBound - rhs) % wordBound))
  | .mul => some (ty.wrap ((lhs * rhs) % wordBound))
  | .div => if rhs = 0 then none else some (ty.wrap (lhs / rhs))
  | .mod => if rhs = 0 then none else some (ty.wrap (lhs % rhs))
  | .eq => some (ofBool (lhs == rhs))
  | .ne => some (ofBool (lhs != rhs))
  | .lt => some (ofBool (lhs < rhs))
  | .le => some (ofBool (lhs ≤ rhs))
  | .gt => some (ofBool (lhs > rhs))
  | .ge => some (ofBool (lhs ≥ rhs))
  | .and => some (ofBool (lhs != 0 && rhs != 0))
  | .or => some (ofBool (lhs != 0 || rhs != 0))

end Covenant
