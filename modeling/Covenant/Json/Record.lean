import Covenant.Json.Reader

/-!
Strict reading of records from JSON. A record is an object, in which unknown fields do not matter
and no known one may occur twice, or a list of the values of its fields in their order, of which the
last ones may be missing. What is in unknown fields need not even have a meaning.
-/

namespace Covenant

namespace Json

def fieldValues? (names : List String) : Json → Option (List (Option Json))
  | obj fields =>
    if names.all fun name => fields.countP (fun field => field.1 == name) ≤ 1 then
      some (names.map fun name => (fields.find? fun field => field.1 == name).map
        fun field => field.2)
    else none
  | arr items =>
    if items.length ≤ names.length then some (names.zipIdx.map fun (_, index) => items[index]?)
      else none
  | _ => none

def natBelow? (bound : Nat) : Json → Option Nat
  | int value => if 0 ≤ value && value < bound then some value.toNat else none
  | _ => none

def word? : Json → Option Nat := natBelow? (Nat.pow 2 64)

def halfWord? : Json → Option Nat := natBelow? (Nat.pow 2 32)

def bool? : Json → Option Bool
  | bool value => some value
  | _ => none

def text? : Json → Option String
  | str text => some text
  | _ => none

def optionalText? : Json → Option (Option String)
  | null => some none
  | str text => some (some text)
  | _ => none

def list? {α : Type} (decode : Json → Option α) : Json → Option (List α)
  | arr items => items.mapM decode
  | _ => none

def orDefault {α : Type} (decode : Json → Option α) (default : α) : Option Json → Option α
  | some value => decode value
  | none => some default

def required {α : Type} (decode : Json → Option α) (value : Option Json) : Option α :=
  value.bind decode

def decode? {α : Type} (decode : Json → Option α) (text : String) : Option α :=
  (read? text).bind decode

end Json

end Covenant
