/-!
JSON values as this library exchanges them, and how records and tagged values are taken from them.

The only numbers in use are integers. What is well formed and yet never accepted (a text with half
a surrogate pair, brackets nested too deeply, a number without bounds) is one value, `unreadable`, so
that it can stand where nobody looks.
-/

namespace Nominal

inductive Json where
  | null
  | bool (b : Bool)
  | int (n : Int)
  | fraction
  | str (text : String)
  | arr (items : List Json)
  | obj (members : List (String × Json))
  | unreadable
  deriving Inhabited

namespace Json

mutual

def depth : Json → Nat
  | arr items => itemsDepth items + 1
  | obj members => membersDepth members + 1
  | _ => 0

def itemsDepth : List Json → Nat
  | [] => 0
  | j :: rest => max (depth j) (itemsDepth rest)

def membersDepth : List (String × Json) → Nat
  | [] => 0
  | (_, j) :: rest => max (depth j) (membersDepth rest)

end

def ofOption : Option Json → Json := (·.getD null)

def strings (texts : List String) : Json := arr (texts.map str)

def bool? : Json → Option Bool
  | bool b => some b
  | _ => none

def int? : Json → Option Int
  | int n => some n
  | _ => none

def natBelow? (bound : Nat) : Json → Option Nat
  | int n => if 0 ≤ n ∧ n < bound then some n.toNat else none
  | _ => none

def int64? : Json → Option Int64
  | int n =>
    if Int64.minValue.toInt ≤ n ∧ n ≤ Int64.maxValue.toInt then some (.ofInt n) else none
  | _ => none

def str? : Json → Option String
  | str text => some text
  | _ => none

def items? : Json → Option (List Json)
  | arr items => some items
  | _ => none

def list? (read : Json → Option α) (j : Json) : Option (List α) := j.items?.bind (·.mapM read)

def optional? (read : Json → Option α) : Json → Option (Option α)
  | null => some none
  | j => some <$> read j

def pair? {α β : Type} (first : Json → Option α) (second : Json → Option β) :
    Json → Option (α × β)
  | arr [a, b] => return (← first a, ← second b)
  | _ => none

def tagged? : Json → Option (String × Option Json)
  | str tag => some (tag, none)
  | obj [(tag, carried)] => some (tag, some carried)
  | _ => none

/-- A tag that carries nothing, which may be said with `null`. -/
def tag? (j : Json) : Option String :=
  match j.tagged? with
  | some (tag, none) | some (tag, some null) => some tag
  | _ => none

def tagged (tag : String) (carried : Json) : Json := obj [(tag, carried)]

def get? (j : Json) (name : String) : Option Json :=
  match j with
  | obj members => (members.find? (·.1 == name)).map (·.2)
  | _ => none

end Json

/-- The members of a record, taken from an object by name or from an array by position. -/
structure Members where
  byPosition : Bool
  given : List (String × Json)

namespace Members

/-- Members of other names are passed over; one name may not be given twice. An array may be
shorter than the record, not longer. -/
def ofJson? (names : List String) : Json → Option Members
  | .obj members =>
    let given := members.filter (names.contains ·.1)
    if (given.map (·.1)).Nodup then some ⟨false, given⟩ else none
  | .arr items => if items.length ≤ names.length then some ⟨true, names.zip items⟩ else none
  | _ => none

def get? (m : Members) (name : String) : Option Json := (m.given.find? (·.1 == name)).map (·.2)

def required (m : Members) (name : String) (read : Json → Option α) : Option α :=
  (m.get? name).bind read

def withDefault (m : Members) (name : String) (default : α) (read : Json → Option α) : Option α :=
  match m.get? name with
  | none => some default
  | some j => read j

/-- A member that may be absent, but whose position may not be cut off. -/
def optional (m : Members) (name : String) (read : Json → Option α) : Option (Option α) :=
  match m.get? name with
  | none => if m.byPosition then none else some none
  | some j => j.optional? read

end Members

end Nominal
