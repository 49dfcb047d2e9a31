import Covenant.Json.Basic

/-!
Building JSON values. Objects list their fields in the order of their names, and an integer that a
double-precision number may not hold exactly is written as text.
-/

namespace Covenant

namespace Json

def exactBound : Nat := Nat.pow 2 53

def ofInt (value : Int) : Json :=
  if value.natAbs < exactBound then int value else str (toString value)

def ofNat (value : Nat) : Json := ofInt value

def ofOption {α : Type} (encode : α → Json) : Option α → Json
  | none => null
  | some value => encode value

def ofList {α : Type} (encode : α → Json) (items : List α) : Json := arr (items.map encode)

def record (fields : List (String × Json)) : Json :=
  obj (fields.mergeSort fun left right => !decide (right.1 < left.1))

def tagged (name : String) (value : Json) : Json := obj [(name, value)]

end Json

end Covenant
