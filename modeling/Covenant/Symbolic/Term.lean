import Covenant.Run.Evaluate
import Covenant.Symbolic.LinearForm

/-!
Symbolic values. Equal values are stored once, so that two computations of the same expression from
the same inputs have the same number. This is what relates a bound before a call to the bound after
it: if nothing that the bound depends on has changed, both are the same unknown.
-/

namespace Covenant

/-- A symbolic value. Storage is named by the number of writes to the field so far, for places whose
contents are not known; a call of a function that only reads is named by those numbers for the
fields it reads. -/
inductive Term where
  | const (value : Nat)
  | param (index : Nat)
  | env (var : EnvVar)
  | field (name : String) (key : Option SymbolId) (version : Nat)
  /-- An operation that has not wrapped around. -/
  | binary (op : BinaryOp) (lhs rhs : SymbolId)
  /-- A sum, a difference or a product that has wrapped around. -/
  | wrapped (op : BinaryOp) (lhs rhs : SymbolId)
  | not (operand : SymbolId)
  | call (function : String) (args : List SymbolId) (reads : List (String × Nat))
  /-- Whether the call out of the contract with that number succeeded. -/
  | external (index : Nat)
deriving DecidableEq, Repr

structure Symbol where
  term : Term
  ty : Ty
deriving DecidableEq, Repr

structure RangedForm where
  form : LinearForm
  atoms : List (SymbolId × Nat)
deriving DecidableEq, Repr

structure Arena where
  symbols : Array Symbol
deriving DecidableEq, Repr

namespace Arena

def empty : Arena := ⟨#[]⟩

def term? (arena : Arena) (id : SymbolId) : Option Term := arena.symbols[id]?.map Symbol.term

def ty (arena : Arena) (id : SymbolId) : Ty :=
  match arena.symbols[id]? with
  | some symbol => symbol.ty
  | none => .bool

def const? (arena : Arena) (id : SymbolId) : Option Nat :=
  match arena.term? id with
  | some (.const value) => some value
  | _ => none

def fold (arena : Arena) (term : Term) (ty : Ty) : Term :=
  match term with
  | .binary op lhs rhs =>
    match arena.const? lhs, arena.const? rhs with
    | some left, some right =>
      match op.eval? (arena.ty lhs) left right with
      | some value => .const (ty.wrap value)
      | none => term
    | _, _ => term
  | .not operand =>
    match arena.const? operand with
    | some value => .const (ofBool (value == 0))
    | none => term
  | _ => term

def intern (arena : Arena) (term : Term) (ty : Ty) : SymbolId × Arena :=
  let symbol : Symbol := ⟨arena.fold term ty, ty⟩
  match arena.symbols.idxOf? symbol with
  | some id => (id, arena)
  | none => (arena.symbols.size, ⟨arena.symbols.push symbol⟩)

def internConst (arena : Arena) (value : Nat) (ty : Ty) : SymbolId × Arena :=
  arena.intern (.const (ty.wrap value)) ty

def modulus? (ty : Ty) : Option Int := do
  let largest ← coefficient? ty.maxValue
  coefficient? (largest + 1)

def atom (arena : Arena) (id : SymbolId) (atoms : List (SymbolId × Nat)) : RangedForm :=
  ⟨LinearForm.ofAtom id, atoms ++ [(id, (arena.ty id).maxValue)]⟩

/-- The linear form of a sum, difference or product from those of its operands. A product of two
unknowns, and a product that has wrapped around, is an unknown of its own. -/
def linearArithmetic? (arena : Arena) (id : SymbolId) (op : BinaryOp) (isWrapped : Bool)
    (left right : RangedForm) : Option RangedForm :=
  let atoms := left.atoms ++ right.atoms
  match op with
  | .add => do
    let exact ← left.form.add? right.form
    if isWrapped then
      let modulus ← modulus? (arena.ty id)
      let form ← exact.offset? (-modulus)
      return ⟨form, atoms⟩
    else return ⟨exact, atoms⟩
  | .sub => do
    let exact ← left.form.sub? right.form
    if isWrapped then
      let modulus ← modulus? (arena.ty id)
      let form ← exact.offset? modulus
      return ⟨form, atoms⟩
    else return ⟨exact, atoms⟩
  | _ =>
    match left.form.asConstant?, right.form.asConstant? with
    | some factor, _ => do
      let exact ← right.form.scale? factor
      return if isWrapped then arena.atom id atoms else ⟨exact, atoms⟩
    | none, some factor => do
      let exact ← left.form.scale? factor
      return if isWrapped then arena.atom id atoms else ⟨exact, atoms⟩
    | none, none => some (arena.atom id atoms)

def isLinear : BinaryOp → Bool
  | .add | .sub | .mul => true
  | _ => false

def linearWithin (arena : Arena) : Nat → SymbolId → Option RangedForm
  | 0, _ => none
  | depth + 1, id =>
    match arena.term? id with
    | some (.const value) =>
      (coefficient? value).map fun constant => ⟨LinearForm.ofConstant constant, []⟩
    | some (.binary op lhs rhs) =>
      if isLinear op then do
        let left ← arena.linearWithin depth lhs
        let right ← arena.linearWithin depth rhs
        arena.linearArithmetic? id op false left right
      else some (arena.atom id [])
    | some (.wrapped op lhs rhs) =>
      if isLinear op then do
        let left ← arena.linearWithin depth lhs
        let right ← arena.linearWithin depth rhs
        arena.linearArithmetic? id op true left right
      else some (arena.atom id [])
    | _ => some (arena.atom id [])

def linear? (arena : Arena) (id : SymbolId) : Option RangedForm := arena.linearWithin (id + 1) id

def underflowsWithin (arena : Arena) : Nat → SymbolId → Bool
  | 0, _ => false
  | depth + 1, id =>
    match arena.term? id with
    | some (.wrapped op lhs rhs) =>
      op == .sub || arena.underflowsWithin depth lhs || arena.underflowsWithin depth rhs
    | some (.binary _ lhs rhs) =>
      arena.underflowsWithin depth lhs || arena.underflowsWithin depth rhs
    | some (.not operand) => arena.underflowsWithin depth operand
    | _ => false

def underflows (arena : Arena) (id : SymbolId) : Bool := arena.underflowsWithin (id + 1) id

def negateComparison : BinaryOp → BinaryOp
  | .lt => .ge
  | .le => .gt
  | .gt => .le
  | .ge => .lt
  | .eq => .ne
  | .ne => .eq
  | op => op

def comparisonFacts (op : BinaryOp) (left right : LinearForm) : List LinearForm :=
  match op with
  | .lt => ((right.sub? left).bind fun difference => difference.offset? (-1)).toList
  | .le => (right.sub? left).toList
  | .gt => ((left.sub? right).bind fun difference => difference.offset? (-1)).toList
  | .ge => (left.sub? right).toList
  | .eq => (left.sub? right).toList ++ (right.sub? left).toList
  | _ => []

def impliedByComparison (arena : Arena) (op : BinaryOp) (lhs rhs : SymbolId) (truth : Bool) :
    List RangedForm :=
  match arena.linear? lhs, arena.linear? rhs with
  | some left, some right =>
    (comparisonFacts (if truth then op else negateComparison op) left.form right.form).map
      fun fact =>
      ⟨fact, left.atoms ++ right.atoms⟩
  | _, _ => []

def impliedWithin (arena : Arena) : Nat → SymbolId → Bool → Option (List RangedForm)
  | 0, _, _ => some []
  | depth + 1, id, truth =>
    match arena.term? id with
    | some (.const value) => if (value != 0) == truth then some [] else none
    | some (.not operand) => arena.impliedWithin depth operand !truth
    | some (.binary op lhs rhs) =>
      if (op == .and && truth) || (op == .or && !truth) then do
        let left ← arena.impliedWithin depth lhs truth
        let right ← arena.impliedWithin depth rhs truth
        return left ++ right
      else if op.isComparison then some (arena.impliedByComparison op lhs rhs truth)
      else some []
    | _ =>
      if arena.ty id == .bool then
        let fact := if truth then (LinearForm.ofAtom id).offset? (-1)
          else (LinearForm.ofAtom id).scale? (-1)
        some (fact.toList.map fun form => ⟨form, [(id, 1)]⟩)
      else some []

def implied? (arena : Arena) (id : SymbolId) (truth : Bool) : Option (List RangedForm) :=
  arena.impliedWithin (id + 1) id truth

def references : Term → List SymbolId
  | .field _ key _ => key.toList
  | .binary _ lhs rhs => [lhs, rhs]
  | .wrapped _ lhs rhs => [lhs, rhs]
  | .not operand => [operand]
  | .call _ args _ => args
  | .const _ | .param _ | .env _ | .external _ => []

def reachable (arena : Arena) (roots : List SymbolId) : List (SymbolId × Symbol) :=
  let marked := (List.range arena.symbols.size).foldr (fun id found =>
    if found.contains id then
      match arena.term? id with
      | some term => references term ++ found
      | none => found
    else found) roots
  (arena.symbols.toList.zipIdx.filter fun entry => marked.contains entry.2).map fun entry =>
  (entry.2, entry.1)

end Arena

end Covenant
