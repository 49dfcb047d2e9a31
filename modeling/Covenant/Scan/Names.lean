/-!
Sets of names, kept as ascending lists without repetitions.
-/

namespace Covenant

abbrev Names := List String

namespace Names

def add (name : String) : Names → Names
  | [] => [name]
  | first :: rest =>
    if first == name then first :: rest
    else if name < first then name :: first :: rest
    else first :: add name rest

def ofList (names : List String) : Names := names.foldl (fun set name => add name set) []

def join (left right : Names) : Names := right.foldl (fun set name => add name set) left

end Names

end Covenant
