/-!
Values under distinct names, kept in the order of the names (by code point). A later value under a
name takes the place of an earlier one.
-/

namespace Nominal

abbrev ByName (α : Type) := List (String × α)

namespace ByName

variable {α β : Type}

def insert (name : String) (a : α) : ByName α → ByName α
  | [] => [(name, a)]
  | (n, b) :: rest =>
    if name < n then (name, a) :: (n, b) :: rest
    else if name = n then (name, a) :: rest
    else (n, b) :: insert name a rest

def ofList (pairs : List (String × α)) : ByName α := pairs.foldl (fun m (n, a) => m.insert n a) []

def get? (m : ByName α) (name : String) : Option α := (List.find? (·.1 == name) m).map (·.2)

def toList (m : ByName α) : List (String × α) := m

def values (m : ByName α) : List α := List.map (·.2) m

def map (f : α → β) (m : ByName α) : ByName β := List.map (fun (n, a) => (n, f a)) m

end ByName

end Nominal
