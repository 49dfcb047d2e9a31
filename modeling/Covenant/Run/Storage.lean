/-!
The storage of a contract: a table from places to values, in the order of the places, in which a
place that is absent holds zero.
-/

namespace Covenant

def hexText (value : Nat) : String := "0x" ++ String.ofList (Nat.toDigits 16 value)

structure StorageKey where
  field : String
  key : Option Nat
deriving DecidableEq, Repr

namespace StorageKey

def text (place : StorageKey) : String :=
  match place.key with
  | some key => place.field ++ "[" ++ hexText key ++ "]"
  | none => place.field

def before (left right : StorageKey) : Bool :=
  if left.field == right.field then
    match left.key, right.key with
    | none, some _ => true
    | some first, some second => first < second
    | _, none => false
  else left.field < right.field

end StorageKey

abbrev Storage := List (StorageKey × Nat)

namespace Storage

def get (storage : Storage) (place : StorageKey) : Nat := (storage.lookup place).getD 0

def put (place : StorageKey) (value : Nat) : Storage → Storage
  | [] => [(place, value)]
  | (first, held) :: rest =>
    if first == place then (place, value) :: rest
    else if place.before first then (place, value) :: (first, held) :: rest
    else (first, held) :: put place value rest

def ofEntries (entries : List (StorageKey × Nat)) : Storage :=
  entries.foldl (fun storage entry => put entry.1 entry.2 storage) []

def overlay (storage upper : Storage) : Storage :=
  upper.foldl (fun result entry => put entry.1 entry.2 result) storage

end Storage

end Covenant
