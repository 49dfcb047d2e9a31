/-!
Linear expressions over unknown numbers. The coefficients are those of a signed machine word of 128
bits, so that arithmetic on expressions has a result only where every coefficient of it fits; a
result is always exact.
-/

namespace Covenant

abbrev SymbolId := Nat

def coefficientBound : Int := Int.pow 2 127

def coefficient? (value : Int) : Option Int :=
  if -coefficientBound ≤ value && value < coefficientBound then some value else none

structure LinearForm where
  terms : List (SymbolId × Int)
  constant : Int
deriving DecidableEq, Repr

namespace LinearForm

def ofConstant (constant : Int) : LinearForm := ⟨[], constant⟩

def ofAtom (atom : SymbolId) : LinearForm := ⟨[(atom, 1)], 0⟩

def putTerm (atom : SymbolId) (coefficient : Int) : List (SymbolId × Int) → List (SymbolId × Int)
  | [] => [(atom, coefficient)]
  | (first, held) :: rest =>
    if atom < first then (atom, coefficient) :: (first, held) :: rest
    else if atom = first then (atom, coefficient) :: rest
    else (first, held) :: putTerm atom coefficient rest

def ofTerms (terms : List (SymbolId × Int)) (constant : Int) : LinearForm :=
  ⟨terms.foldl (fun kept term => putTerm term.1 term.2 kept) [], constant⟩

def evalTerms (assignment : SymbolId → Int) : List (SymbolId × Int) → Int
  | [] => 0
  | (atom, coefficient) :: rest => coefficient * assignment atom + evalTerms assignment rest

def eval (assignment : SymbolId → Int) (form : LinearForm) : Int :=
  evalTerms assignment form.terms + form.constant

def asConstant? (form : LinearForm) : Option Int :=
  if form.terms.isEmpty then some form.constant else none

def coefficientOf? (form : LinearForm) (atom : SymbolId) : Option Int := form.terms.lookup atom

def atoms (form : LinearForm) : List SymbolId := form.terms.map fun term => term.1

def addTerm (atom : SymbolId) (coefficient : Int) :
    List (SymbolId × Int) → Option (List (SymbolId × Int))
  | [] => some [(atom, coefficient)]
  | (first, held) :: rest =>
    if atom < first then some ((atom, coefficient) :: (first, held) :: rest)
    else if atom = first then (coefficient? (held + coefficient)).map fun sum =>
      (first, sum) :: rest
    else (addTerm atom coefficient rest).map fun added => (first, held) :: added

def add? (left right : LinearForm) : Option LinearForm := do
  let terms ← right.terms.foldlM (fun sum term => addTerm term.1 term.2 sum) left.terms
  let constant ← coefficient? (left.constant + right.constant)
  return ⟨terms.filter fun term => term.2 != 0, constant⟩

def scale? (form : LinearForm) (factor : Int) : Option LinearForm :=
  if factor = 0 then some (ofConstant 0)
  else do
    let terms ← form.terms.mapM fun term => (coefficient? (term.2 * factor)).map fun product =>
      (term.1, product)
    let constant ← coefficient? (form.constant * factor)
    return ⟨terms, constant⟩

def sub? (left right : LinearForm) : Option LinearForm := do
  let negated ← right.scale? (-1)
  left.add? negated

def offset? (form : LinearForm) (offset : Int) : Option LinearForm :=
  (coefficient? (form.constant + offset)).map fun constant => { form with constant }

def content (form : LinearForm) : Nat :=
  form.terms.foldl (fun divisor term => Nat.gcd divisor term.2.natAbs) 0

/-- Divides the fact that the expression is not negative by the common divisor of its coefficients.
The constant is rounded down: over the integers, the fact holds for the same values as before. -/
def tighten (form : LinearForm) : LinearForm :=
  let divisor : Int := form.content
  if 1 < divisor && divisor < coefficientBound then
    { terms := form.terms.map fun term => (term.1, term.2 / divisor), constant :=
      form.constant / divisor }
  else form

def compareTerms : List (SymbolId × Int) → List (SymbolId × Int) → Ordering
  | [], [] => .eq
  | [], _ :: _ => .lt
  | _ :: _, [] => .gt
  | left :: lefts, right :: rights =>
    ((compare left.1 right.1).then (compare left.2 right.2)).then (compareTerms lefts rights)

def order (left right : LinearForm) : Ordering :=
  (compareTerms left.terms right.terms).then (compare left.constant right.constant)

end LinearForm

end Covenant
