/-!
Budgets of steps for work that the input could make arbitrarily long.
-/

namespace Covenant

structure Fuel where
  budget : Nat
  remaining : Nat
deriving DecidableEq, Repr

namespace Fuel

def ofBudget (budget : Nat) : Fuel := ⟨budget, budget⟩

def consume (fuel : Fuel) (steps : Nat) : Fuel := { fuel with remaining := fuel.remaining - steps }

def allows (fuel : Fuel) (steps : Nat) : Bool := steps ≤ fuel.remaining

def used (fuel : Fuel) : Nat := fuel.budget - fuel.remaining

def isEmpty (fuel : Fuel) : Bool := fuel.remaining == 0

def consume? (fuel : Fuel) (steps : Nat) : Option Fuel :=
  if fuel.allows steps then some (fuel.consume steps) else none

end Fuel

end Covenant
