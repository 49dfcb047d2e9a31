import Covenant.Proofs.Symbolic.Arena
import Covenant.Proofs.Symbolic.LinearForm
import Covenant.Symbolic.Constraints

/-!
What is told of symbolic values is true of the numbers that they stand for: the linear form of a
value has its number, the listed unknowns keep to their largest values, and the facts that follow
from a condition hold where it does.
-/

namespace Covenant

/-- Whether a number may be what a value stands for, given the numbers of its operands. What is not
computed may stand for any number, and so may a product that has wrapped around. -/
def Symbol.Admits (symbol : Symbol) (types : SymbolId → Ty) (numbers : SymbolId → Nat)
    (value : Nat) : Prop :=
  match symbol.term with
  | .const constant => value = constant
  | .binary op lhs rhs =>
    if Arena.isLinear op then (value : Int) = op.exact (numbers lhs) (numbers rhs)
    else ∀ result, op.eval? (types lhs) (numbers lhs) (numbers rhs) = some result → value = result
  | .wrapped .add lhs rhs => (value : Int) = (numbers lhs + numbers rhs : Int) - 2 ^ symbol.ty.width
  | .wrapped .sub lhs rhs => (value : Int) = (numbers lhs - numbers rhs : Int) + 2 ^ symbol.ty.width
  | .not operand => value = ofBool (numbers operand == 0)
  | _ => True

/-- Whether numbers are in the ranges of the values of an arena, and are what these stand for. -/
structure Arena.Assigns (arena : Arena) (numbers : SymbolId → Nat) : Prop where
  fits : ∀ (id : SymbolId) (symbol : Symbol), arena.symbols[id]? = some symbol →
    numbers id ≤ symbol.ty.maxValue
  admits : ∀ (id : SymbolId) (symbol : Symbol), arena.symbols[id]? = some symbol →
    symbol.Admits arena.ty numbers (numbers id)

/-- Whether an expression has a value, and each unknown in it is listed and not above its largest
value. -/
structure RangedForm.Describes (numbers : SymbolId → Nat) (ranged : RangedForm) (value : Int) :
    Prop where
  eval : ranged.form.eval (fun atom => (numbers atom : Int)) = value
  listed : ∀ atom ∈ ranged.form.atoms, ∃ largest, (atom, largest) ∈ ranged.atoms
  within : ∀ atom ∈ ranged.atoms, numbers atom.1 ≤ atom.2

def RangedForm.Holds (numbers : SymbolId → Nat) (fact : RangedForm) : Prop :=
  Constraints.Holds numbers fact.form ∧ ∀ atom ∈ fact.atoms, numbers atom.1 ≤ atom.2

def Term.isGiven : Term → Bool
  | .param _ | .env _ | .field _ _ _ | .call _ _ _ | .external _ => true
  | .const _ | .binary _ _ _ | .wrapped _ _ _ | .not _ => false

variable {arena : Arena} {numbers : SymbolId → Nat} {id lhs rhs : SymbolId} {op : BinaryOp}
  {ty : Ty} {left right ranged : RangedForm} {first second : Int}

namespace RangedForm.Describes

theorem within_append (leftDescribed : left.Describes numbers first)
    (rightDescribed : right.Describes numbers second) :
    ∀ atom ∈ left.atoms ++ right.atoms, numbers atom.1 ≤ atom.2 := by
  intro atom member
  rcases List.mem_append.mp member with earlier | later
  · exact leftDescribed.within atom earlier
  · exact rightDescribed.within atom later

theorem join (leftDescribed : left.Describes numbers first)
    (rightDescribed : right.Describes numbers second) {form : LinearForm} {value : Int}
    (eval : form.eval (fun atom => (numbers atom : Int)) = value)
    (atoms : ∀ atom ∈ form.atoms, atom ∈ left.form.atoms ∨ atom ∈ right.form.atoms) :
    RangedForm.Describes numbers ⟨form, left.atoms ++ right.atoms⟩ value where
  eval := eval
  listed := by
    intro atom member
    rcases atoms atom member with inside | inside
    · obtain ⟨largest, known⟩ := leftDescribed.listed atom inside
      exact ⟨largest, List.mem_append_left _ known⟩
    · obtain ⟨largest, known⟩ := rightDescribed.listed atom inside
      exact ⟨largest, List.mem_append_right _ known⟩
  within := leftDescribed.within_append rightDescribed

theorem atom {atoms : List (SymbolId × Nat)} (within : ∀ atom ∈ atoms, numbers atom.1 ≤ atom.2)
    (fits : numbers id ≤ (arena.ty id).maxValue) :
    (arena.atom id atoms).Describes numbers (numbers id) where
  eval := LinearForm.eval_ofAtom _ id
  listed := by
    intro other member
    obtain rfl := List.mem_singleton.mp member
    exact ⟨(arena.ty other).maxValue, List.mem_append_right _ List.mem_cons_self⟩
  within := by
    intro other member
    rcases List.mem_append.mp member with earlier | last
    · exact within other earlier
    · rw [List.mem_singleton.mp last]
      exact fits

end RangedForm.Describes

namespace Arena

/-! Linear forms. -/

theorem modulus?_eq_bound {modulus : Int} (found : modulus? ty = some modulus) :
    modulus = ty.bound := by
  simp only [modulus?, Option.bind_eq_bind, Option.bind_eq_some_iff] at found
  obtain ⟨largest, known, found⟩ := found
  have same := eq_of_coefficient? known
  have next := eq_of_coefficient? found
  have positive := ty.bound_pos
  simp only [Ty.maxValue] at same
  omega

theorem modulus?_eq_some {modulus : Int} (found : modulus? ty = some modulus) :
    modulus = 2 ^ ty.width := by
  have whole := modulus?_eq_bound found
  simp only [modulus?, Option.bind_eq_bind, Option.bind_eq_some_iff] at found
  obtain ⟨largest, known, found⟩ := found
  obtain ⟨rfl, _, small⟩ := coefficient?_eq_some.mp known
  have below : ty.bound ≤ 2 ^ 127 := by
    have limit : coefficientBound = 2 ^ 127 := by decide +kernel
    rw [limit] at small
    simp only [Ty.maxValue] at small
    omega
  rw [whole]
  cases ty with
  | uint width =>
    have narrow : width ≤ 128 := by
      by_contra wide
      have large : (Ty.uint width).bound = 2 ^ 128 := congrArg (2 ^ ·) (Nat.min_eq_right (by omega))
      omega
    have same : (Ty.uint width).bound = 2 ^ width := congrArg (2 ^ ·) (Nat.min_eq_left narrow)
    rw [same, Ty.width]
    push_cast
    rfl
  | bool => rfl
  | address => exact absurd below (by decide)
  | map _ _ => exact absurd below (by simp [Ty.bound, wordBound])

/-- The linear form of an operation that has not wrapped around is exact, unless the operation is an
unknown. -/
theorem linearArithmetic?_fitting (linear : isLinear op = true)
    (leftDescribed : left.Describes numbers first)
    (rightDescribed : right.Describes numbers second)
    (formed : arena.linearArithmetic? id op false left right = some ranged) :
    (op = .mul ∧ ranged = arena.atom id (left.atoms ++ right.atoms)) ∨
      ranged.Describes numbers (op.exact first second) := by
  cases op with
  | add =>
    simp only [linearArithmetic?, Option.bind_eq_bind, Option.bind_eq_some_iff, Bool.false_eq_true,
      if_false, Option.pure_def, Option.some.injEq] at formed
    obtain ⟨form, added, rfl⟩ := formed
    refine .inr (leftDescribed.join rightDescribed ?_ fun atom =>
      LinearForm.mem_atoms_of_add? added)
    rw [LinearForm.eval_add? _ added, leftDescribed.eval, rightDescribed.eval]
    rfl
  | sub =>
    simp only [linearArithmetic?, Option.bind_eq_bind, Option.bind_eq_some_iff, Bool.false_eq_true,
      if_false, Option.pure_def, Option.some.injEq] at formed
    obtain ⟨form, subtracted, rfl⟩ := formed
    refine .inr (leftDescribed.join rightDescribed ?_ fun atom =>
      LinearForm.mem_atoms_of_sub? subtracted)
    rw [LinearForm.eval_sub? _ subtracted, leftDescribed.eval, rightDescribed.eval]
    rfl
  | mul =>
    simp only [linearArithmetic?, Bool.false_eq_true, if_false] at formed
    split at formed
    · rename_i factor constant
      obtain ⟨form, scaled, made⟩ := Option.bind_eq_some_iff.mp formed
      obtain rfl := Option.some.inj made
      refine .inr (leftDescribed.join rightDescribed ?_ fun atom inside =>
        .inr ((LinearForm.atoms_scale? scaled).subset inside))
      rw [LinearForm.eval_scale? _ scaled, rightDescribed.eval, ← leftDescribed.eval,
        LinearForm.eval_asConstant? _ constant]
      rfl
    · rename_i factor _ constant
      obtain ⟨form, scaled, made⟩ := Option.bind_eq_some_iff.mp formed
      obtain rfl := Option.some.inj made
      refine .inr (leftDescribed.join rightDescribed ?_ fun atom inside =>
        .inl ((LinearForm.atoms_scale? scaled).subset inside))
      rw [LinearForm.eval_scale? _ scaled, leftDescribed.eval, ← rightDescribed.eval,
        LinearForm.eval_asConstant? _ constant]
      exact Int.mul_comm _ _
    · exact .inl ⟨rfl, (Option.some.inj formed).symm⟩
  | _ => simp [isLinear] at linear

/-- The linear form of a sum or a difference that has wrapped around is off by the number of values
of its type; a product that has is an unknown. -/
theorem linearArithmetic?_wrapping (linear : isLinear op = true)
    (leftDescribed : left.Describes numbers first)
    (rightDescribed : right.Describes numbers second) (fits : numbers id ≤ (arena.ty id).maxValue)
    (sum : op = .add → ∀ modulus, modulus? (arena.ty id) = some modulus → (numbers id : Int) =
      first + second - modulus)
    (difference : op = .sub → ∀ modulus, modulus? (arena.ty id) = some modulus →
      (numbers id : Int) = first - second + modulus)
    (formed : arena.linearArithmetic? id op true left right = some ranged) :
    ranged.Describes numbers (numbers id) := by
  have unknown := RangedForm.Describes.atom (leftDescribed.within_append rightDescribed) fits
  cases op with
  | add =>
    simp only [linearArithmetic?, Option.bind_eq_bind, Option.bind_eq_some_iff, if_true,
      Option.pure_def, Option.some.injEq] at formed
    obtain ⟨exact, added, modulus, known, form, moved, rfl⟩ := formed
    have atoms := LinearForm.atoms_offset? moved
    refine leftDescribed.join rightDescribed ?_ fun atom inside =>
      LinearForm.mem_atoms_of_add? added (atoms ▸ inside)
    rw [LinearForm.eval_offset? _ moved, LinearForm.eval_add? _ added, leftDescribed.eval,
      rightDescribed.eval, sum rfl modulus known]
    rfl
  | sub =>
    simp only [linearArithmetic?, Option.bind_eq_bind, Option.bind_eq_some_iff, if_true,
      Option.pure_def, Option.some.injEq] at formed
    obtain ⟨exact, subtracted, modulus, known, form, moved, rfl⟩ := formed
    have atoms := LinearForm.atoms_offset? moved
    refine leftDescribed.join rightDescribed ?_ fun atom inside =>
      LinearForm.mem_atoms_of_sub? subtracted (atoms ▸ inside)
    rw [LinearForm.eval_offset? _ moved, LinearForm.eval_sub? _ subtracted, leftDescribed.eval,
      rightDescribed.eval, difference rfl modulus known]
  | mul =>
    simp only [linearArithmetic?, if_true] at formed
    split at formed
    · obtain ⟨form, _, made⟩ := Option.bind_eq_some_iff.mp formed
      obtain rfl := Option.some.inj made
      exact unknown
    · obtain ⟨form, _, made⟩ := Option.bind_eq_some_iff.mp formed
      obtain rfl := Option.some.inj made
      exact unknown
    · obtain rfl := Option.some.inj formed
      exact unknown
  | _ => simp [isLinear] at linear

theorem ty_of_stored {symbol : Symbol} (stored : arena.symbols[id]? = some symbol) :
    arena.ty id = symbol.ty := by
  simp only [Arena.ty, stored]

/-! Implied facts. -/

theorem eval_negateComparison {value : Nat} (comparison : op.isComparison = true) {left right : Nat}
    (computed : op.eval? ty left right = some value) :
    (if value != 0 then op else negateComparison op).eval? ty left right = some 1 := by
  cases op <;> simp [BinaryOp.isComparison] at comparison
  all_goals
    simp only [BinaryOp.eval?, Option.some.injEq] at computed
    subst computed
    rw [ofBool_ne_zero]
    split <;> rename_i holds <;> simp_all [negateComparison, BinaryOp.eval?, ofBool]

theorem holds_comparisonFacts {left right : LinearForm} {first second : Nat}
    (leftEval : left.eval (fun atom => (numbers atom : Int)) = first)
    (rightEval : right.eval (fun atom => (numbers atom : Int)) = second)
    (computed : op.eval? ty first second = some 1) {fact : LinearForm}
    (member : fact ∈ comparisonFacts op left right) : Constraints.Holds numbers fact := by
  unfold Constraints.Holds
  cases op <;>
    simp only [comparisonFacts, List.mem_append, Option.mem_toList, Option.bind_eq_some_iff,
      List.not_mem_nil] at member
  case eq =>
    have same : first = second := by simpa [BinaryOp.eval?, ofBool] using computed
    rcases member with found | found <;> rw [LinearForm.eval_sub? _ found, leftEval, rightEval]
      <;> omega
  case lt =>
    have order : first < second := by simpa [BinaryOp.eval?, ofBool] using computed
    obtain ⟨difference, found, moved⟩ := member
    rw [LinearForm.eval_offset? _ moved, LinearForm.eval_sub? _ found, leftEval, rightEval]
    omega
  case le =>
    have order : first ≤ second := by simpa [BinaryOp.eval?, ofBool] using computed
    rw [LinearForm.eval_sub? _ member, leftEval, rightEval]
    omega
  case gt =>
    have order : second < first := by simpa [BinaryOp.eval?, ofBool] using computed
    obtain ⟨difference, found, moved⟩ := member
    rw [LinearForm.eval_offset? _ moved, LinearForm.eval_sub? _ found, leftEval, rightEval]
    omega
  case ge =>
    have order : second ≤ first := by simpa [BinaryOp.eval?, ofBool] using computed
    rw [LinearForm.eval_sub? _ member, leftEval, rightEval]
    omega

structure Faithful (arena : Arena) (numbers : SymbolId → Nat) (id : SymbolId) : Prop where
  inside : id < arena.symbols.size
  fits : numbers id ≤ (arena.ty id).maxValue
  linear : ∀ ranged, arena.linear? id = some ranged → ranged.Describes numbers (numbers id)
  implied : ∃ facts, arena.implied? id (numbers id != 0) = some facts ∧ ∀ fact ∈ facts,
    fact.Holds numbers

theorem holds_impliedByComparison (leftFaithful : arena.Faithful numbers lhs)
    (rightFaithful : arena.Faithful numbers rhs) (comparison : op.isComparison = true)
    {value : Nat} (computed : op.eval? ty (numbers lhs) (numbers rhs) = some value)
    {fact : RangedForm} (member : fact ∈ arena.impliedByComparison op lhs rhs (value != 0)) :
    fact.Holds numbers := by
  unfold impliedByComparison at member
  split at member
  · rename_i leftForm rightForm leftFound rightFound
    have leftDescribed := leftFaithful.linear _ leftFound
    have rightDescribed := rightFaithful.linear _ rightFound
    obtain ⟨form, inside, rfl⟩ := List.mem_map.mp member
    exact ⟨holds_comparisonFacts leftDescribed.eval rightDescribed.eval
      (eval_negateComparison comparison computed) inside,
      leftDescribed.within_append rightDescribed⟩
  · simp at member

def unknownFacts (arena : Arena) (id : SymbolId) (truth : Bool) : List RangedForm :=
  if arena.ty id == .bool then
    let fact := if truth then (LinearForm.ofAtom id).offset? (-1)
      else (LinearForm.ofAtom id).scale? (-1)
    fact.toList.map fun form => ⟨form, [(id, 1)]⟩
  else []

/-- A condition says of an unknown that it is at least one, or that it is zero. -/
theorem holds_unknownFacts (fits : numbers id ≤ (arena.ty id).maxValue) {fact : RangedForm}
    (member : fact ∈ arena.unknownFacts id (numbers id != 0)) : fact.Holds numbers := by
  unfold unknownFacts at member
  split at member
  · rename_i boolean
    have atMost : numbers id ≤ 1 := by
      rw [eq_of_beq boolean] at fits
      exact fits
    obtain ⟨form, found, rfl⟩ := List.mem_map.mp member
    refine ⟨?_, fun atom inside => List.mem_singleton.mp inside ▸ atMost⟩
    rw [Option.mem_toList] at found
    unfold Constraints.Holds
    dsimp only
    split at found
    · rename_i truth
      have positive : numbers id ≠ 0 := by simpa using truth
      rw [LinearForm.eval_offset? _ found, LinearForm.eval_ofAtom]
      omega
    · rename_i truth
      have zero : numbers id = 0 := by simpa using truth
      rw [LinearForm.eval_scale? _ found, LinearForm.eval_ofAtom, zero]
      simp
  · simp at member

/-! What an arena tells of a value, from what it tells of the operands. -/

section Formers

variable (ranked : arena.Ranked)
include ranked

theorem faithful_const {value : Nat} (stored : arena.symbols[id]? = some ⟨.const value, ty⟩)
    (fits : numbers id ≤ ty.maxValue) (same : numbers id = value) : arena.Faithful numbers id where
  inside := lt_size stored
  fits := by rwa [ty_of_stored stored]
  linear := by
    intro ranged formed
    rw [linear?_eq ranked stored] at formed
    obtain ⟨constant, known, rfl⟩ := Option.map_eq_some_iff.mp formed
    refine ⟨?_, by simp [LinearForm.ofConstant, LinearForm.atoms], by simp⟩
    rw [LinearForm.eval_ofConstant, eq_of_coefficient? known, same]
  implied := by
    refine ⟨[], ?_, by simp⟩
    rw [implied?_eq ranked stored, same]
    simp

theorem faithful_given {term : Term} (given : term.isGiven = true)
    (stored : arena.symbols[id]? = some ⟨term, ty⟩) (fits : numbers id ≤ ty.maxValue) :
    arena.Faithful numbers id := by
  have small : numbers id ≤ (arena.ty id).maxValue := by rwa [ty_of_stored stored]
  have unknown : arena.linear? id = some (arena.atom id []) := by
    rw [linear?_eq ranked stored]
    cases term
    case const | binary | wrapped | not => simp [Term.isGiven] at given
    all_goals rfl
  refine ⟨lt_size stored, small, ?_, arena.unknownFacts id _, ?_, fun fact member =>
    holds_unknownFacts small member⟩
  · intro ranged formed
    rw [unknown] at formed
    obtain rfl := Option.some.inj formed
    exact .atom (by simp) small
  · rw [implied?_eq ranked stored, unknownFacts, ty_of_stored stored]
    cases term
    case const | binary | wrapped | not => simp [Term.isGiven] at given
    all_goals
      dsimp only
      split <;> rfl

theorem faithful_not (stored : arena.symbols[id]? = some ⟨.not lhs, ty⟩)
    (fits : numbers id ≤ ty.maxValue) (operand : arena.Faithful numbers lhs)
    (same : numbers id = ofBool (numbers lhs == 0)) :
    arena.Faithful numbers id := by
  have small : numbers id ≤ (arena.ty id).maxValue := by rwa [ty_of_stored stored]
  refine ⟨lt_size stored, small, ?_, ?_⟩
  · intro ranged formed
    rw [linear?_eq ranked stored] at formed
    obtain rfl := Option.some.inj formed
    exact .atom (by simp) small
  · rw [implied?_eq ranked stored, same, ofBool_ne_zero]
    exact operand.implied

/-- An operation that is exact where its linear form says so, and is otherwise what its operator
computes. -/
theorem faithful_binary (stored : arena.symbols[id]? = some ⟨.binary op lhs rhs, ty⟩)
    (fits : numbers id ≤ ty.maxValue) (leftFaithful : arena.Faithful numbers lhs)
    (rightFaithful : arena.Faithful numbers rhs)
    (exact : isLinear op = true → ∀ ranged, arena.linear? id = some ranged →
      ranged.form ≠ LinearForm.ofAtom id →
      (numbers id : Int) = op.exact (numbers lhs) (numbers rhs))
    (computed : isLinear op = false → ∀ result, op.eval? (arena.ty lhs) (numbers lhs)
      (numbers rhs) = some result →
      numbers id = result) : arena.Faithful numbers id := by
  have small : numbers id ≤ (arena.ty id).maxValue := by rwa [ty_of_stored stored]
  refine ⟨lt_size stored, small, ?_, ?_⟩
  · intro ranged formed
    have whole := formed
    rw [linear?_eq ranked stored] at formed
    dsimp only at formed
    split at formed
    · rename_i linear
      simp only [Option.bind_eq_bind, Option.bind_eq_some_iff] at formed
      obtain ⟨leftForm, leftKnown, rightForm, rightKnown, made⟩ := formed
      have leftDescribed := leftFaithful.linear _ leftKnown
      have rightDescribed := rightFaithful.linear _ rightKnown
      rcases linearArithmetic?_fitting linear leftDescribed rightDescribed made with ⟨_, rfl⟩
        | described
      · exact .atom (leftDescribed.within_append rightDescribed) small
      · by_cases unknown : ranged.form = LinearForm.ofAtom id
        · exact { described with eval := by rw [unknown, LinearForm.eval_ofAtom] }
        · rw [exact linear ranged whole unknown]
          exact described
    · obtain rfl := Option.some.inj formed
      exact .atom (by simp) small
  · rw [implied?_eq ranked stored]
    dsimp only
    split
    · rename_i both
      have parts : (numbers lhs != 0) = (numbers id != 0) ∧ (numbers rhs != 0) =
          (numbers id != 0) := by
        simp only [Bool.or_eq_true, Bool.and_eq_true, beq_iff_eq, Bool.not_eq_true'] at both
        rcases both with ⟨rfl, truth⟩ | ⟨rfl, truth⟩ <;>
        · rw [truth]
          rw [computed rfl _ rfl, ofBool_ne_zero] at truth
          simpa using truth
      obtain ⟨leftFacts, leftImplied, leftHold⟩ := leftFaithful.implied
      obtain ⟨rightFacts, rightImplied, rightHold⟩ := rightFaithful.implied
      rw [parts.1] at leftImplied
      rw [parts.2] at rightImplied
      refine ⟨leftFacts ++ rightFacts, by simp only [leftImplied, rightImplied]; rfl, ?_⟩
      intro fact member
      exact (List.mem_append.mp member).elim (leftHold fact) (rightHold fact)
    · split
      · rename_i comparison
        have value : op.eval? (arena.ty lhs) (numbers lhs) (numbers rhs) = some (numbers id) := by
          cases op <;> first
            | exact congrArg some (computed rfl _ rfl).symm
            | simp [BinaryOp.isComparison] at comparison
        exact ⟨_, rfl, fun fact member =>
          holds_impliedByComparison leftFaithful rightFaithful comparison value member⟩
      · exact ⟨[], rfl, by simp⟩

/-- A sum or a difference that has wrapped around, by the number of values of its type, and a
product that has. -/
theorem faithful_wrapped (stored : arena.symbols[id]? = some ⟨.wrapped op lhs rhs, ty⟩)
    (fits : numbers id ≤ ty.maxValue) (leftFaithful : arena.Faithful numbers lhs)
    (rightFaithful : arena.Faithful numbers rhs)
    (sum : op = .add → ∀ modulus, modulus? ty = some modulus →
      (numbers id : Int) = numbers lhs + numbers rhs - modulus)
    (difference : op = .sub → ∀ modulus, modulus? ty = some modulus →
      (numbers id : Int) = numbers lhs - numbers rhs + modulus) : arena.Faithful numbers id := by
  have typed : arena.ty id = ty := ty_of_stored stored
  have small : numbers id ≤ (arena.ty id).maxValue := by rwa [typed]
  refine ⟨lt_size stored, small, ?_, arena.unknownFacts id _, ?_, fun fact member =>
    holds_unknownFacts small member⟩
  · intro ranged formed
    rw [linear?_eq ranked stored] at formed
    dsimp only at formed
    split at formed
    · rename_i linear
      simp only [Option.bind_eq_bind, Option.bind_eq_some_iff] at formed
      obtain ⟨leftForm, leftKnown, rightForm, rightKnown, made⟩ := formed
      rw [← typed] at sum difference
      exact linearArithmetic?_wrapping linear (leftFaithful.linear _ leftKnown)
        (rightFaithful.linear _ rightKnown) small sum difference made
    · obtain rfl := Option.some.inj formed
      exact .atom (by simp) small
  · rw [implied?_eq ranked stored, unknownFacts, typed]
    dsimp only
    split <;> rfl

/-- By induction on the number under which a value is stored. -/
theorem Assigns.faithful (assigns : arena.Assigns numbers) {symbol : Symbol}
    (stored : arena.symbols[id]? = some symbol) :
    arena.Faithful numbers id := by
  induction id using Nat.strong_induction_on generalizing symbol with
  | _ id ih =>
    have fits := assigns.fits id symbol stored
    have admitted := assigns.admits id symbol stored
    have operand (operand : SymbolId) (member : operand ∈ symbol.term.operands) :
        arena.Faithful numbers operand := by
      have smaller := ranked.descends id symbol stored operand member
      exact ih operand smaller (Array.getElem?_eq_getElem (Nat.lt_trans smaller (lt_size stored)))
    obtain ⟨term, ty⟩ := symbol
    cases term with
    | const value => exact faithful_const ranked stored fits admitted
    | not other =>
      exact faithful_not ranked stored fits (operand other (by simp [Term.operands])) admitted
    | binary op lhs rhs =>
      refine faithful_binary ranked stored fits (operand lhs (by simp [Term.operands]))
        (operand rhs (by simp [Term.operands])) (fun linear _ _ _ => ?_) fun notLinear => ?_
      · simpa only [Symbol.Admits, linear, if_true] using admitted
      · simpa only [Symbol.Admits, notLinear, Bool.false_eq_true, if_false] using admitted
    | wrapped op lhs rhs =>
      refine faithful_wrapped ranked stored fits (operand lhs (by simp [Term.operands]))
        (operand rhs (by simp [Term.operands])) ?_ ?_
      · rintro rfl modulus known
        rw [modulus?_eq_some known]
        exact admitted
      · rintro rfl modulus known
        rw [modulus?_eq_some known]
        exact admitted
    | _ => exact faithful_given ranked rfl stored fits

end Formers

end Arena

/-- What an arena tells of its values is true of all numbers in their ranges that they may stand
for: linear forms, the largest values of unknowns, and what follows from a condition or cannot be. A
stored value is what folding makes of it, which computes operations on constants; values get the
same number exactly if they and their types are the same then. -/
theorem Arena.tells_truly {arena : Arena} (built : arena.Built) :
    (∀ numbers, arena.Assigns numbers → ∀ id < arena.symbols.size,
        (∀ ranged, arena.linear? id = some ranged → ranged.Describes numbers (numbers id)) ∧
          ∀ truth,
            (arena.implied? id truth = none → (numbers id != 0) ≠ truth) ∧
              ∀ facts, arena.implied? id truth = some facts → (numbers id != 0) = truth →
                ∀ fact ∈ facts, Constraints.Holds numbers fact.form) ∧
      ∀ (term : Term) (ty : Ty), arena.Scopes term →
        (arena.intern term ty).2.symbols[(arena.intern term ty).1]? =
          some ⟨arena.fold term ty, ty⟩ ∧
          (0 < ty.width → ∀ folded, arena.Folds ty term folded ↔ arena.fold term ty = folded ∧
            folded ≠ term) ∧
          ∀ later, Grows (arena.intern term ty).2 later → ∀ (other : Term) (otherTy : Ty),
            ((later.intern other otherTy).1 = (arena.intern term ty).1 ↔
              later.fold other otherTy = arena.fold term ty ∧ otherTy = ty) := by
  have ranked : arena.Ranked := built.ranked ranked_empty
  refine ⟨?_, ?_⟩
  · intro numbers assigns id inside
    have faithful := assigns.faithful ranked (Array.getElem?_eq_getElem inside)
    obtain ⟨known, implied, hold⟩ := faithful.implied
    refine ⟨faithful.linear, fun truth => ⟨?_, ?_⟩⟩
    · rintro impossible rfl
      rw [implied] at impossible
      simp at impossible
    · rintro facts found rfl
      rw [implied] at found
      obtain rfl := Option.some.inj found
      exact fun fact member => (hold fact member).1
  · intro term ty scopes
    have stored := getElem?_intern arena term ty
    refine ⟨stored, fun wide folded => folds_iff wide, ?_⟩
    intro later grows other otherTy
    rw [intern_eq_iff (grows.ranked (ranked.intern scopes ty)) (grows.extends _ _ stored),
      Symbol.mk.injEq]

/-- A difference that went below zero, the negation of a comparison with it, and a product of
constants that a sum of constants made later is the same as. -/
theorem Arena.tells_truly_of_difference :
    let arena : Arena :=
      ⟨#[⟨.param 0, .uint 8⟩, ⟨.param 1, .uint 8⟩, ⟨.wrapped .sub 0 1, .uint 8⟩,
        ⟨.binary .lt 0 2, .bool⟩, ⟨.not 3, .bool⟩, ⟨.const 2, .uint 8⟩]⟩
    let numbers : SymbolId → Nat := fun id => [3, 5, 254, 1, 0, 2].getD id 0
    let grown := (arena.intern (.binary .mul 5 5) (.uint 8)).2
    let later := (grown.internConst 300 (.uint 8)).2
    arena.Built ∧ arena.Assigns numbers ∧
      (∃ ranged, arena.linear? 2 = some ranged ∧ ranged.form = ⟨[(0, 1), (1, -1)], 256⟩ ∧
        ranged.Describes numbers 254) ∧
      (arena.implied? 5 false = none ∧ (numbers 5 != 0) ≠ false) ∧
      (∃ facts, arena.implied? 4 false = some facts ∧ facts.length = 1 ∧
        ∀ fact ∈ facts, Constraints.Holds numbers fact.form) ∧
      arena.Scopes (.binary .mul 5 5) ∧ arena.Folds (.uint 8) (.binary .mul 5 5) (.const 4) ∧
      Grows grown later ∧
      (later.intern (.binary .add 5 5) (.uint 8)).1 = 6 := by
  intro arena numbers grown later
  have made :
      ((((((empty.intern (.param 0) (.uint 8)).2.intern (.param 1) (.uint 8)).2.intern
      (.wrapped .sub 0 1)
      (.uint 8)).2.intern (.binary .lt 0 2) .bool).2.intern (.not 3) .bool).2.internConst 2
      (.uint 8)).2 = arena := by
    decide +kernel
  have built : arena.Built := by
    rw [← made]
    refine .internConst
      (.intern (.intern (.intern (.intern (.intern .refl ?_ _) ?_ _) ?_ _) ?_ _) ?_ _) _ _ <;>
      decide +kernel
  have assigns : arena.Assigns numbers := by
    have each (id : Nat) (inside : id < 6) (symbol : Symbol)
        (stored : arena.symbols[id]? = some symbol) :
        numbers id ≤ symbol.ty.maxValue ∧ symbol.Admits arena.ty numbers (numbers id) := by
      have one : id = 0 ∨ id = 1 ∨ id = 2 ∨ id = 3 ∨ id = 4 ∨ id = 5 := by omega
      rcases one with rfl | rfl | rfl | rfl | rfl | rfl <;> obtain rfl := Option.some.inj stored
      · exact ⟨by decide, trivial⟩
      · exact ⟨by decide, trivial⟩
      · refine ⟨by decide, ?_⟩
        show (254 : Int) = (3 - 5) + 2 ^ 8
        decide
      · refine ⟨by decide, fun result computed => ?_⟩
        exact Option.some.inj computed
      · exact ⟨by decide, rfl⟩
      · exact ⟨by decide, rfl⟩
    constructor
    · intro id symbol found
      exact (each id (lt_size found) symbol found).1
    · intro id symbol found
      exact (each id (lt_size found) symbol found).2
  obtain ⟨told, stored⟩ := tells_truly built
  have scopes : arena.Scopes (.binary .mul 5 5) := by decide
  have grows : Grows grown later := .internConst .refl _ _
  obtain ⟨_, folds, same⟩ := stored _ (.uint 8) scopes
  refine ⟨built, assigns, ?_, ?_, ?_, scopes, ?_, grows, ?_⟩
  · have formed : arena.linear? 2 = some ⟨⟨[(0, 1), (1, -1)], 256⟩, [(0, 255), (1, 255)]⟩ := by
      decide +kernel
    exact ⟨_, formed, rfl, (told numbers assigns 2 (by decide)).1 _ formed⟩
  · have impossible : arena.implied? 5 false = none := by decide +kernel
    exact ⟨impossible, ((told numbers assigns 5 (by decide)).2 false).1 impossible⟩
  · have implied :
        arena.implied? 4 false = some [⟨⟨[(1, -1)], 255⟩, [(0, 255), (0, 255), (1, 255)]⟩] := by
      decide +kernel
    exact ⟨_, implied, rfl, ((told numbers assigns 4 (by decide)).2 false).2 _ implied rfl⟩
  · exact (folds (by decide) _).mpr (by decide +kernel)
  · have first : (arena.intern (.binary .mul 5 5) (.uint 8)).1 = 6 := by decide +kernel
    rw [(same later grows (.binary .add 5 5) (.uint 8)).mpr (by decide +kernel), first]

end Covenant
