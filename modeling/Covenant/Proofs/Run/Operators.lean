import Covenant.Run.Evaluate

/-!
What operators compute, in terms of the arithmetic of whole numbers: a sum, a difference or a
product that fits its type is exact, and a sum or a difference that does not is off by the number of
values of the type.
-/

namespace Covenant

namespace Ty

theorem bound_dvd_wordBound (width : Nat) : (uint width).bound ∣ wordBound :=
  Nat.pow_dvd_pow 2 (Nat.min_le_right width 128)

theorem bound_le_wordBound (ty : Ty) : ty.bound ≤ wordBound := by
  cases ty with
  | uint width => exact Nat.le_of_dvd (Nat.two_pow_pos 128) (bound_dvd_wordBound width)
  | bool => decide
  | address => exact Nat.le_refl _
  | map key value => exact Nat.le_refl _

theorem le_maxValue_iff {ty : Ty} {value : Nat} : value ≤ ty.maxValue ↔ value < ty.bound := by
  have positive := ty.bound_pos
  unfold maxValue
  omega

theorem wrap_of_lt {ty : Ty} {value : Nat} (small : value < ty.bound) : ty.wrap value = value := by
  cases ty with
  | bool =>
    simp only [bound] at small
    simp only [wrap]
    split <;> omega
  | uint width => exact Nat.mod_eq_of_lt small
  | address => exact Nat.mod_eq_of_lt small
  | map key value => exact Nat.mod_eq_of_lt small

theorem wrap_zero (ty : Ty) : ty.wrap 0 = 0 := wrap_of_lt ty.bound_pos

theorem wrap_word (width value : Nat) :
    (uint width).wrap (value % wordBound) = value % (uint width).bound :=
  Nat.mod_mod_of_dvd value (bound_dvd_wordBound width)

end Ty

theorem ofBool_lt (value : Bool) : ofBool value < Ty.bool.bound := by
  cases value <;> decide

theorem ofBool_ne_zero (value : Bool) : (ofBool value != 0) = value := by
  cases value <;> rfl

namespace BinaryOp

def resultTy (op : BinaryOp) (ty : Ty) : Ty := if op.isComparison || op.isLogical then .bool else ty

def exact (op : BinaryOp) (lhs rhs : Int) : Int :=
  match op with
  | .add => lhs + rhs
  | .sub => lhs - rhs
  | _ => lhs * rhs

def Fits (op : BinaryOp) (ty : Ty) (lhs rhs : Nat) : Prop :=
  0 ≤ op.exact lhs rhs ∧ op.exact lhs rhs < ty.bound

theorem resultTy_of_arithmetic {op : BinaryOp} (arithmetic : op.isArithmetic = true) (ty : Ty) :
    op.resultTy ty = ty := by
  cases op <;> first | rfl | simp [isArithmetic] at arithmetic

theorem resultTy_of_relation {op : BinaryOp} (relation : op.isArithmetic = false) (ty : Ty) :
    op.resultTy ty = .bool := by
  cases op <;> first | rfl | simp [isArithmetic] at relation

variable {op : BinaryOp} {ty : Ty} {lhs rhs value : Nat}

theorem eval_lt (computed : op.eval? ty lhs rhs = some value) : value < (op.resultTy ty).bound := by
  cases op <;> simp only [eval?, Option.some.injEq] at computed
  case div | mod =>
    split at computed
    · simp at computed
    · obtain rfl := Option.some.inj computed
      exact ty.wrap_lt _
  all_goals
    subst computed
    first
      | exact ty.wrap_lt _
      | exact ofBool_lt _

theorem eval_eq_of_not_arithmetic (other : op.isArithmetic = false) (first second : Ty) :
    op.eval? first lhs rhs = op.eval? second lhs rhs := by
  cases op <;> first | rfl | simp [isArithmetic] at other

theorem eval_of_fits {width : Nat} (linear : op = .add ∨ op = .sub ∨ op = .mul)
    (fits : op.Fits (.uint width) lhs rhs)
    (computed : op.eval? (.uint width) lhs rhs = some value) :
    (value : Int) = op.exact lhs rhs := by
  obtain ⟨low, high⟩ := fits
  have whole := Ty.bound_dvd_wordBound width
  rcases linear with rfl | rfl | rfl
    <;> simp only [eval?, Option.some.injEq, Ty.wrap_word] at computed <;>
    simp only [exact] at low high ⊢ <;> subst computed
  · have small : lhs + rhs < (Ty.uint width).bound := by exact_mod_cast high
    rw [Nat.mod_eq_of_lt small]
    exact Int.natCast_add lhs rhs
  · obtain ⟨quotient, same⟩ := whole
    have order : rhs ≤ lhs := by omega
    have moved : lhs + wordBound - rhs = (lhs - rhs) + (Ty.uint width).bound * quotient := by omega
    have small : lhs - rhs < (Ty.uint width).bound := by omega
    rw [moved, Nat.add_mul_mod_self_left, Nat.mod_eq_of_lt small]
    omega
  · have small : lhs * rhs < (Ty.uint width).bound := by exact_mod_cast high
    rw [Nat.mod_eq_of_lt small]
    exact Int.natCast_mul lhs rhs

theorem eval_add_of_not_fits {width : Nat} (left : lhs < (Ty.uint width).bound)
    (right : rhs < (Ty.uint width).bound) (wraps : ¬ add.Fits (.uint width) lhs rhs)
    (computed : add.eval? (.uint width) lhs rhs = some value) :
    (value : Int) = add.exact lhs rhs - (Ty.uint width).bound := by
  simp only [eval?, Option.some.injEq, Ty.wrap_word] at computed
  simp only [Fits, exact] at wraps ⊢
  have large : (Ty.uint width).bound ≤ lhs + rhs := by omega
  rw [Nat.mod_eq_sub_mod large, Nat.mod_eq_of_lt (by omega)] at computed
  omega

theorem eval_sub_of_not_fits {width : Nat} (left : lhs < (Ty.uint width).bound)
    (right : rhs < (Ty.uint width).bound) (wraps : ¬ sub.Fits (.uint width) lhs rhs)
    (computed : sub.eval? (.uint width) lhs rhs = some value) :
    (value : Int) = sub.exact lhs rhs + (Ty.uint width).bound := by
  simp only [eval?, Option.some.injEq, Ty.wrap_word] at computed
  simp only [Fits, exact] at wraps ⊢
  obtain ⟨quotient, same⟩ := Ty.bound_dvd_wordBound width
  have order : lhs < rhs := by omega
  have room := Ty.bound_le_wordBound (.uint width)
  have positive : 0 < quotient := by
    rcases Nat.eq_zero_or_pos quotient with none | some
    · rw [none, Nat.mul_zero] at same
      exact absurd same (by decide)
    · exact some
  obtain ⟨fewer, rfl⟩ := Nat.exists_eq_add_of_lt positive
  have moved : lhs + wordBound - rhs = (lhs + (Ty.uint width).bound - rhs) +
      (Ty.uint width).bound * fewer := by
    rw [same, Nat.zero_add, Nat.mul_add, Nat.mul_one]
    omega
  rw [moved, Nat.add_mul_mod_self_left, Nat.mod_eq_of_lt (by omega)] at computed
  omega

end BinaryOp

end Covenant
