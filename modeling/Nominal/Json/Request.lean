import Nominal.Json.Reader
/-!
Requests: a line of JSON that is taken as a whole or not at all, so no part of it may be unreadable.
Of members with one name the last counts. What stands behind the tag of a record gives the members by
name, while a text of its own may also give them by position.
-/

namespace Nominal.Json

mutual

def isReadable : Json → Bool
  | unreadable => false
  | arr items => itemsReadable items
  | obj members => membersReadable members
  | _ => true

def itemsReadable : List Json → Bool
  | [] => true
  | j :: rest => isReadable j && itemsReadable rest

def membersReadable : List (String × Json) → Bool
  | [] => true
  | (_, j) :: rest => isReadable j && membersReadable rest

end

def recordTags : List String :=
  ["Named", "Wildcard", "EnumConstant", "Field", "RecordComponent", "Invoke", "ListOf", "MapOf"]

def isByPosition : Json → Bool
  | arr _ => true
  | _ => false

/-- Puts a member in its place: that of an earlier one with its name, or the last. -/
def place (name : String) (j : Json) (kept : List (String × Json)) : List (String × Json) :=
  if kept.any (·.1 == name) then kept.map fun m => if m.1 == name then (name, j) else m
  else kept ++ [(name, j)]

mutual

def settled : Json → Json
  | arr items => arr (itemsSettled items)
  | obj members => obj (membersSettled members [])
  | j => j

def itemsSettled : List Json → List Json
  | [] => []
  | j :: rest => settled j :: itemsSettled rest

def membersSettled : List (String × Json) → List (String × Json) → List (String × Json)
  | [], kept => kept
  | (name, j) :: rest, kept =>
    let j := if recordTags.contains name && isByPosition j then unreadable else settled j
    membersSettled rest (place name j kept)

end

def ofRequest? (line : String) : Option Json := do
  let j ← ofText? line
  if j.isReadable then some j.settled else none

end Nominal.Json
