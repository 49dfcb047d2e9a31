import Covenant.Symbolic.LinearForm

/-!
Facts about unknown natural numbers, each saying that a linear expression is not negative. Whether
facts contradict each other is decided by eliminating one unknown after the other. The answer that
they do is definite; the answer that they may hold is also given where the elimination would become
too large. There is no answer where it has to negate the least coefficient.
-/

namespace Covenant

structure Constraints where
  facts : List LinearForm
  ranges : List (SymbolId × Option Int)
deriving DecidableEq, Repr

namespace Constraints

def sizeLimit : Nat := 400

def empty : Constraints := ⟨[], []⟩

def Holds (assignment : SymbolId → Nat) (fact : LinearForm) : Prop :=
  0 ≤ fact.eval fun atom => (assignment atom : Int)

def Satisfies (assignment : SymbolId → Nat) (constraints : Constraints) : Prop :=
  (∀ fact ∈ constraints.facts, Holds assignment fact) ∧
    ∀ atom limit, constraints.ranges.lookup atom = some (some limit) →
    (assignment atom : Int) ≤ limit

def declare (constraints : Constraints) (atom : SymbolId) (largest : Nat) : Constraints :=
  match constraints.ranges.lookup atom with
  | some _ => constraints
  | none => { constraints with ranges := (atom, coefficient? largest) :: constraints.ranges }

def declareAll (constraints : Constraints) (atoms : List (SymbolId × Nat)) : Constraints :=
  atoms.foldl (fun known atom => known.declare atom.1 atom.2) constraints

def assume (constraints : Constraints) (fact : LinearForm) : Constraints :=
  if constraints.facts.contains fact then constraints
  else { constraints with facts := constraints.facts ++ [fact] }

def arrange (facts : List LinearForm) : List LinearForm :=
  dropRepeated (facts.mergeSort fun left right => (left.order right).isLE)
where
  dropRepeated : List LinearForm → List LinearForm
    | [] => []
    | fact :: rest =>
      if rest.head? == some fact then dropRepeated rest else fact :: dropRepeated rest

def insertAtom (atom : SymbolId) : List SymbolId → List SymbolId
  | [] => [atom]
  | first :: rest =>
    if atom < first then atom :: first :: rest
    else if atom = first then first :: rest
    else first :: insertAtom atom rest

def atomsOf (facts : List LinearForm) : List SymbolId :=
  facts.foldl (fun found fact => fact.atoms.foldl (fun known atom => insertAtom atom known) found)
    []

def withRanges (constraints : Constraints) (facts : List LinearForm) : List LinearForm :=
  facts ++ (atomsOf facts).flatMap fun atom =>
    match constraints.ranges.lookup atom with
    | some (some largest) => [LinearForm.ofAtom atom, ⟨[(atom, -1)], largest⟩]
    | _ => [LinearForm.ofAtom atom]

def splitAt (atom : SymbolId) (facts : List LinearForm) :
    List (Int × LinearForm) × List (Int × LinearForm) × List LinearForm :=
  (facts.filterMap fun fact => (fact.coefficientOf? atom).bind fun coefficient =>
      if 0 < coefficient then some (coefficient, fact) else none,
    facts.filterMap fun fact => (fact.coefficientOf? atom).bind fun coefficient =>
      if 0 < coefficient then none else some (coefficient, fact),
    facts.filter fun fact => (fact.coefficientOf? atom).isNone)

def eliminationCost (facts : List LinearForm) (atom : SymbolId) : Nat :=
  let coefficients := facts.filterMap fun fact => fact.coefficientOf? atom
  coefficients.countP (fun value => decide (0 < value)) * coefficients.countP fun value =>
  decide (value < 0)

def cheapest? (cost : SymbolId → Nat) : List SymbolId → Option SymbolId
  | [] => none
  | atom :: rest =>
    match cheapest? cost rest with
    | none => some atom
    | some other => if cost other < cost atom then some other else some atom

def combine? (upper lower : Int × LinearForm) : Option LinearForm := do
  let left ← upper.2.scale? (-lower.1)
  let right ← lower.2.scale? upper.1
  let sum ← left.add? right
  return sum.tighten

/-- Why an elimination stops short of an answer: it would have to hold too many facts or a
coefficient that is too large, or to negate the least coefficient, which has no negation. -/
inductive Obstacle where
  | tooLarge
  | overflow
deriving DecidableEq, Repr

def combination (upper lower : Int × LinearForm) : Except Obstacle LinearForm :=
  if lower.1 = -coefficientBound then .error .overflow
  else match combine? upper lower with
    | some sum => .ok sum
    | none => .error .tooLarge

def eliminate (atom : SymbolId) (facts : List LinearForm) : Except Obstacle (List LinearForm) :=
  let (positive, negative, others) := splitAt atom facts
  if others.length + positive.length * negative.length > sizeLimit then .error .tooLarge
  else do
    let combined ← (positive.flatMap fun upper => negative.map fun lower => (upper, lower)).mapM
      fun pair =>
      combination pair.1 pair.2
    return others ++ combined

inductive Round where
  | answer (mayHold : Bool)
  | overflow
  | next (facts : List LinearForm)
deriving DecidableEq, Repr

def round (facts : List LinearForm) : Round :=
  if facts.any fun fact => fact.terms.isEmpty && fact.constant < 0 then .answer false
  else
    let facts := arrange (facts.filter fun fact => !fact.terms.isEmpty)
    match cheapest? (eliminationCost facts) (atomsOf facts) with
    | none => .answer true
    | some atom =>
      match eliminate atom facts with
      | .ok next => .next next
      | .error .tooLarge => .answer true
      | .error .overflow => .overflow

def mayHold? : Nat → List LinearForm → Option Bool
  | 0, _ => some true
  | fuel + 1, facts =>
    match round facts with
    | .answer mayHold => some mayHold
    | .overflow => none
    | .next others => mayHold? fuel others

def feasible? (facts : List LinearForm) : Option Bool :=
  mayHold? ((atomsOf facts).length + 1) (facts.map LinearForm.tighten)

def isFeasible? (constraints : Constraints) : Option Bool :=
  feasible? (constraints.withRanges constraints.facts)

/-- Whether it follows from the facts that an expression is not negative. It does if the answer is
yes: its negation, that the expression is at most minus one, then contradicts the facts. -/
def entails? (constraints : Constraints) (goal : LinearForm) : Option Bool :=
  match (goal.scale? (-1)).bind fun negated => negated.offset? (-1) with
  | none => some false
  | some negation =>
    (feasible? (constraints.withRanges (constraints.facts ++ [negation]))).map
      fun mayHold => !mayHold

end Constraints

end Covenant
