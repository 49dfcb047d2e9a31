import Covenant.Proofs.Run.Operators
import Covenant.Symbolic.Term

/-!
How an arena grows. What is stored stays under its number, no value is stored twice, and a value is
computed from values with smaller numbers. So equal numbers are equal values, and what is told of a
value can be told from its operands.
-/

namespace Covenant

def Term.operands : Term → List SymbolId
  | .binary _ lhs rhs | .wrapped _ lhs rhs => [lhs, rhs]
  | .not operand => [operand]
  | _ => []

namespace Arena

def Scopes (arena : Arena) (term : Term) : Prop :=
  ∀ operand ∈ term.operands, operand < arena.symbols.size

instance (arena : Arena) (term : Term) : Decidable (arena.Scopes term) :=
  inferInstanceAs (Decidable (∀ operand ∈ term.operands, operand < arena.symbols.size))

inductive Grows (start : Arena) : Arena → Prop where
  | refl : Grows start start
  | intern {arena : Arena} {term : Term} (grows : Grows start arena)
      (scopes : arena.Scopes term) (ty : Ty) :
      Grows start (arena.intern term ty).2
  | internConst {arena : Arena} (grows : Grows start arena) (value : Nat) (ty : Ty) :
      Grows start (arena.internConst value ty).2

def Built (arena : Arena) : Prop := Grows empty arena

/-- Everything that is stored in one arena is stored in another one under the same number. -/
def Extends (arena later : Arena) : Prop :=
  ∀ (id : SymbolId) (symbol : Symbol), arena.symbols[id]? = some symbol →
    later.symbols[id]? = some symbol

structure Ranked (arena : Arena) : Prop where
  descends : ∀ (id : SymbolId) (symbol : Symbol), arena.symbols[id]? = some symbol →
    ∀ operand ∈ symbol.term.operands, operand < id
  once : ∀ (id other : SymbolId) (symbol : Symbol), arena.symbols[id]? = some symbol →
    arena.symbols[other]? = some symbol → id = other

variable {arena middle later : Arena} {id : SymbolId} {symbol : Symbol} {term : Term} {ty : Ty}

theorem Extends.refl (arena : Arena) : arena.Extends arena := fun _ _ found => found

theorem Extends.trans (first : arena.Extends middle) (second : middle.Extends later) :
    arena.Extends later :=
  fun id symbol found => second id symbol (first id symbol found)

theorem lt_size (found : arena.symbols[id]? = some symbol) : id < arena.symbols.size :=
  (Array.getElem?_eq_some_iff.mp found).1

theorem ranked_empty : Ranked empty where
  descends id symbol found := by simp [empty] at found
  once id other symbol found := by simp [empty] at found

/-! Storing a value. -/

theorem operands_fold (arena : Arena) (term : Term) (ty : Ty) {operand : SymbolId}
    (member : operand ∈ (arena.fold term ty).operands) : operand ∈ term.operands := by
  unfold fold at member
  split at member
  · split at member
    · split at member
      · simp [Term.operands] at member
      · exact member
    · exact member
  · split at member
    · simp [Term.operands] at member
    · exact member
  · exact member

theorem intern_cases (arena : Arena) (term : Term) (ty : Ty) :
    (∃ id : SymbolId, arena.intern term ty = (id, arena) ∧ arena.symbols[id]? =
      some ⟨arena.fold term ty, ty⟩) ∨
      arena.intern term ty = (arena.symbols.size, ⟨arena.symbols.push ⟨arena.fold term ty, ty⟩⟩) ∧
        ∀ id : SymbolId, arena.symbols[id]? ≠ some ⟨arena.fold term ty, ty⟩ := by
  unfold intern
  cases found : arena.symbols.idxOf? ⟨arena.fold term ty, ty⟩ with
  | some id =>
    refine .inl ⟨id, by simp only [found], ?_⟩
    have listed : arena.symbols.toList.toArray = arena.symbols := Array.toArray_toList
    rw [← listed, List.idxOf?_toArray, List.idxOf?_eq_some_iff] at found
    obtain ⟨inside, same, _⟩ := found
    rw [← Array.getElem?_toList, List.getElem?_eq_getElem inside, same]
  | none =>
    refine .inr ⟨by simp only [found], ?_⟩
    intro id stored
    rw [Array.idxOf?_eq_none_iff] at found
    exact found (Array.mem_of_getElem? stored)

theorem intern_extends (arena : Arena) (term : Term) (ty : Ty) :
    arena.Extends (arena.intern term ty).2 := by
  rcases intern_cases arena term ty with ⟨id, same, _⟩ | ⟨same, _⟩
  · rw [same]
    exact .refl arena
  · rw [same]
    intro id symbol found
    have inside := lt_size found
    rw [Array.getElem?_push_lt inside, ← Array.getElem?_eq_getElem inside]
    exact found

theorem getElem?_intern (arena : Arena) (term : Term) (ty : Ty) :
    (arena.intern term ty).2.symbols[(arena.intern term ty).1]? =
      some ⟨arena.fold term ty, ty⟩ := by
  rcases intern_cases arena term ty with ⟨id, same, stored⟩ | ⟨same, _⟩
  · rw [same]
    exact stored
  · rw [same]
    exact Array.getElem?_push_size

theorem Ranked.intern (ranked : arena.Ranked) (scopes : arena.Scopes term) (ty : Ty) :
    (arena.intern term ty).2.Ranked := by
  rcases intern_cases arena term ty with ⟨id, same, _⟩ | ⟨same, new⟩
  · rw [same]
    exact ranked
  · rw [same]
    have placed {id : SymbolId} {symbol : Symbol}
        (found : (arena.symbols.push ⟨arena.fold term ty, ty⟩)[id]? = some symbol) :
        arena.symbols[id]? = some symbol ∨ id = arena.symbols.size ∧
          symbol = ⟨arena.fold term ty, ty⟩ := by
      rw [Array.getElem?_push] at found
      split at found
      · rename_i last
        exact .inr ⟨last, (Option.some.inj found).symm⟩
      · exact .inl found
    constructor
    · intro id symbol found operand member
      rcases placed found with old | ⟨rfl, rfl⟩
      · exact ranked.descends id symbol old operand member
      · exact scopes operand (operands_fold arena term ty member)
    · intro id other symbol found again
      rcases placed found with old | ⟨last, rfl⟩ <;> rcases placed again with older | ⟨latest, same⟩
      · exact ranked.once id other symbol old older
      · exact absurd (same ▸ old) (new id)
      · exact absurd older (new other)
      · rw [last, latest]

theorem scopes_const (arena : Arena) (value : Nat) : arena.Scopes (.const value) := by
  intro operand member
  simp [Term.operands] at member

theorem Grows.extends {start : Arena} (grows : Grows start arena) : start.Extends arena := by
  induction grows with
  | refl => exact .refl start
  | intern _ _ _ ih => exact ih.trans (intern_extends _ _ _)
  | internConst _ _ _ ih => exact ih.trans (intern_extends _ _ _)

theorem Grows.ranked {start : Arena} (grows : Grows start arena) (ranked : start.Ranked) :
    arena.Ranked := by
  induction grows with
  | refl => exact ranked
  | intern _ scopes ty ih => exact ih.intern scopes ty
  | internConst _ value ty ih => exact ih.intern (scopes_const _ _) ty

theorem intern_eq_iff (ranked : arena.Ranked) (stored : arena.symbols[id]? = some symbol)
    (term : Term) (ty : Ty) :
    (arena.intern term ty).1 = id ↔ ⟨arena.fold term ty, ty⟩ = symbol := by
  constructor
  · rintro rfl
    have kept := intern_extends arena term ty _ _ stored
    rw [getElem?_intern] at kept
    exact Option.some.inj kept
  · rintro rfl
    rcases intern_cases arena term ty with ⟨other, same, found⟩ | ⟨_, new⟩
    · rw [same]
      exact ranked.once _ _ _ found stored
    · exact absurd stored (new id)

/-! Folding. -/

inductive Folds (arena : Arena) (ty : Ty) : Term → Term → Prop where
  | binary {op : BinaryOp} {lhs rhs : SymbolId} {left right value : Nat}
      (leftConst : arena.term? lhs = some (.const left))
      (rightConst : arena.term? rhs = some (.const right))
      (computed : op.eval? (arena.ty lhs) left right = some value) :
      Folds arena ty (.binary op lhs rhs) (.const (ty.wrap value))
  | not {operand : SymbolId} {value : Nat} (isConst : arena.term? operand = some (.const value)) :
      Folds arena ty (.not operand) (.const (ty.wrap (ofBool (value == 0))))

theorem const?_eq_some {value : Nat} :
    arena.const? id = some value ↔ arena.term? id = some (.const value) := by
  unfold const?
  split
  · rename_i other found
    rw [found]
    simp
  · rename_i notConst
    constructor
    · simp
    · intro found
      exact absurd found (notConst value)

theorem wrap_ofBool (wide : 0 < ty.width) (value : Bool) :
    ty.wrap (ofBool value) = ofBool value := by
  have two : 2 ≤ ty.bound := by
    cases ty with
    | uint width =>
      exact Nat.pow_le_pow_right (by decide : 0 < 2) (Nat.le_min.mpr ⟨wide, by decide⟩)
    | bool => exact Nat.le_refl 2
    | address => decide
    | map _ _ => exact (by decide : 2 ≤ wordBound)
  refine Ty.wrap_of_lt (Nat.lt_of_lt_of_le ?_ two)
  exact ofBool_lt value

theorem folds_iff (wide : 0 < ty.width) {folded : Term} :
    arena.Folds ty term folded ↔ arena.fold term ty = folded ∧ folded ≠ term := by
  constructor
  · intro folds
    cases folds with
    | binary leftConst rightConst computed =>
      simp only [fold, const?_eq_some.mpr leftConst, const?_eq_some.mpr rightConst, computed]
      simp
    | not isConst =>
      simp only [fold, const?_eq_some.mpr isConst, wrap_ofBool wide]
      simp
  · rintro ⟨rfl, changed⟩
    cases term with
    | binary op lhs rhs =>
      simp only [fold] at changed ⊢
      split at changed
      · rename_i left right leftConst rightConst
        split at changed
        · rename_i value computed
          exact .binary (const?_eq_some.mp leftConst) (const?_eq_some.mp rightConst) computed
        · exact absurd rfl changed
      · exact absurd rfl changed
    | not operand =>
      simp only [fold] at changed ⊢
      split at changed
      · rename_i value isConst
        rw [← wrap_ofBool wide]
        exact .not (const?_eq_some.mp isConst)
      · exact absurd rfl changed
    | _ => exact absurd rfl changed

/-! What is told of a value, from what is told of its operands. -/

/-- Any depth is enough that is greater than the number of the value. -/
theorem linearWithin_of_lt (ranked : arena.Ranked) {depth other : Nat} (enough : id < depth)
    (also : id < other) :
    arena.linearWithin depth id = arena.linearWithin other id := by
  induction depth generalizing other id with
  | zero => exact absurd enough (Nat.not_lt_zero id)
  | succ depth ih =>
    obtain ⟨other, rfl⟩ := Nat.exists_eq_succ_of_ne_zero (Nat.ne_zero_of_lt also)
    simp only [linearWithin, term?]
    cases found : arena.symbols[id]? with
    | none => simp only [Option.map_none]
    | some symbol =>
      have deeper (operand : SymbolId) (member : operand ∈ symbol.term.operands) :
          arena.linearWithin depth operand = arena.linearWithin other operand := by
        have smaller := ranked.descends id symbol found operand member
        exact ih (Nat.lt_of_lt_of_le smaller (Nat.le_of_lt_succ enough))
          (Nat.lt_of_lt_of_le smaller (Nat.le_of_lt_succ also))
      obtain ⟨term, ty⟩ := symbol
      cases term with
      | binary op lhs rhs =>
        simp only [Option.map_some, deeper lhs (by simp [Term.operands]),
          deeper rhs (by simp [Term.operands])]
      | wrapped op lhs rhs =>
        simp only [Option.map_some, deeper lhs (by simp [Term.operands]),
          deeper rhs (by simp [Term.operands])]
      | _ => simp only [Option.map_some]

theorem impliedWithin_of_lt (ranked : arena.Ranked) {depth other : Nat} (enough : id < depth)
    (also : id < other) (truth : Bool) :
    arena.impliedWithin depth id truth = arena.impliedWithin other id truth := by
  induction depth generalizing other id truth with
  | zero => exact absurd enough (Nat.not_lt_zero id)
  | succ depth ih =>
    obtain ⟨other, rfl⟩ := Nat.exists_eq_succ_of_ne_zero (Nat.ne_zero_of_lt also)
    simp only [impliedWithin, term?]
    cases found : arena.symbols[id]? with
    | none => simp only [Option.map_none]
    | some symbol =>
      have deeper (operand : SymbolId) (member : operand ∈ symbol.term.operands) (truth : Bool) :
          arena.impliedWithin depth operand truth = arena.impliedWithin other operand truth := by
        have smaller := ranked.descends id symbol found operand member
        exact ih (Nat.lt_of_lt_of_le smaller (Nat.le_of_lt_succ enough))
          (Nat.lt_of_lt_of_le smaller (Nat.le_of_lt_succ also)) truth
      obtain ⟨term, ty⟩ := symbol
      cases term with
      | binary op lhs rhs =>
        simp only [Option.map_some, deeper lhs (by simp [Term.operands]),
          deeper rhs (by simp [Term.operands])]
      | not operand => simp only [Option.map_some, deeper operand (by simp [Term.operands])]
      | _ => simp only [Option.map_some]

theorem linear?_eq (ranked : arena.Ranked) (stored : arena.symbols[id]? = some symbol) :
    arena.linear? id =
      match symbol.term with
      | .const value =>
        (coefficient? value).map fun constant => ⟨LinearForm.ofConstant constant, []⟩
      | .binary op lhs rhs =>
        if isLinear op then do
          let left ← arena.linear? lhs
          let right ← arena.linear? rhs
          arena.linearArithmetic? id op false left right
        else some (arena.atom id [])
      | .wrapped op lhs rhs =>
        if isLinear op then do
          let left ← arena.linear? lhs
          let right ← arena.linear? rhs
          arena.linearArithmetic? id op true left right
        else some (arena.atom id [])
      | _ => some (arena.atom id []) := by
  have deeper (operand : SymbolId) (member : operand ∈ symbol.term.operands) :
      arena.linearWithin id operand = arena.linear? operand :=
    linearWithin_of_lt ranked (ranked.descends id symbol stored operand member)
      (Nat.lt_succ_self operand)
  rw [linear?, linearWithin, term?, stored, Option.map_some]
  obtain ⟨term, ty⟩ := symbol
  cases term with
  | binary op lhs rhs =>
    simp only [deeper lhs (by simp [Term.operands]), deeper rhs (by simp [Term.operands])]
  | wrapped op lhs rhs =>
    simp only [deeper lhs (by simp [Term.operands]), deeper rhs (by simp [Term.operands])]
  | _ => rfl

theorem implied?_eq (ranked : arena.Ranked) (stored : arena.symbols[id]? = some symbol)
    (truth : Bool) :
    arena.implied? id truth =
      match symbol.term with
      | .const value => if (value != 0) == truth then some [] else none
      | .not operand => arena.implied? operand !truth
      | .binary op lhs rhs =>
        if (op == .and && truth) || (op == .or && !truth) then do
          let left ← arena.implied? lhs truth
          let right ← arena.implied? rhs truth
          return left ++ right
        else if op.isComparison then some (arena.impliedByComparison op lhs rhs truth)
        else some []
      | _ =>
        if symbol.ty == .bool then
          let fact := if truth then (LinearForm.ofAtom id).offset? (-1)
            else (LinearForm.ofAtom id).scale? (-1)
          some (fact.toList.map fun form => ⟨form, [(id, 1)]⟩)
        else some [] := by
  have deeper (operand : SymbolId) (member : operand ∈ symbol.term.operands) (truth : Bool) :
      arena.impliedWithin id operand truth = arena.implied? operand truth :=
    impliedWithin_of_lt ranked (ranked.descends id symbol stored operand member)
      (Nat.lt_succ_self operand) truth
  have typed : arena.ty id = symbol.ty := by simp only [Arena.ty, stored]
  rw [implied?, impliedWithin, term?, stored, Option.map_some, typed]
  obtain ⟨term, ty⟩ := symbol
  cases term with
  | binary op lhs rhs =>
    simp only [deeper lhs (by simp [Term.operands]), deeper rhs (by simp [Term.operands])]
  | not operand => simp only [deeper operand (by simp [Term.operands])]
  | _ => rfl

end Arena

end Covenant
