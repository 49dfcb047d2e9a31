/-!
Sums of numbers.
-/

namespace Covenant

def total : List Nat → Nat
  | [] => 0
  | number :: rest => number + total rest

theorem total_append (left right : List Nat) :
    total (left ++ right) = total left + total right := by
  induction left with
  | nil => simp [total]
  | cons number rest ih => simp [total, ih, Nat.add_assoc]

end Covenant
