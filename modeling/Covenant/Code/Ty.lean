import Covenant.Syntax.Tree

/-!
The types of values and their ranges. Every value is a natural number below `wordBound`; a type says
which of these it admits and how a larger one is cut down.
-/

namespace Covenant

def wordBound : Nat := Nat.pow 2 128

inductive Ty where
  | uint (width : Nat)
  | bool
  | address
  | map (key value : Ty)
deriving DecidableEq, Repr, Inhabited

namespace Ty

def defaultInteger : Ty := uint 64

def addressWidth : Nat := 256

def isInteger : Ty → Bool
  | uint _ => true
  | _ => false

def isMap : Ty → Bool
  | map _ _ => true
  | _ => false

def width : Ty → Nat
  | uint width => width
  | bool => 1
  | address => addressWidth
  | map _ _ => addressWidth

def bound : Ty → Nat
  | uint width => Nat.pow 2 (min width 128)
  | bool => 2
  | address => wordBound
  | map _ _ => wordBound

def maxValue (ty : Ty) : Nat := ty.bound - 1

def wrap : Ty → Nat → Nat
  | bool, value => if value = 0 then 0 else 1
  | ty, value => value % ty.bound

def ofEnv : EnvVar → Ty
  | .sender => address
  | .origin => address
  | .value => defaultInteger
  | .timestamp => defaultInteger
  | .blockNumber => defaultInteger

def text : Ty → String
  | uint width => "u" ++ toString width
  | bool => "bool"
  | address => "address"
  | map key value => "map<" ++ key.text ++ ", " ++ value.text ++ ">"

def ofExpr : TypeExpr → Ty
  | .uint _ width => uint width
  | .bool _ => bool
  | .address _ => address
  | .map _ key value => map (ofExpr key) (ofExpr value)

theorem bound_pos (ty : Ty) : 0 < ty.bound := by
  cases ty with
  | uint width => exact Nat.two_pow_pos _
  | bool => decide
  | address => exact Nat.two_pow_pos _
  | map key value => exact Nat.two_pow_pos _

theorem wrap_lt (ty : Ty) (value : Nat) : ty.wrap value < ty.bound := by
  cases ty with
  | bool =>
    simp only [wrap, bound]
    split <;> omega
  | uint width => exact Nat.mod_lt _ (bound_pos _)
  | address => exact Nat.mod_lt _ (bound_pos _)
  | map key value => exact Nat.mod_lt _ (bound_pos _)

end Ty

end Covenant
