import Nominal.ByName
import Nominal.Recipe.Basic
/-!
Plain data and the recipes that hold it.
-/

namespace Nominal

inductive Datum where
  | absent
  | bool (b : Bool)
  | int (n : Int64)
  | str (text : String)
  | elementKind (kind : ElementKind)
  | typeKind (kind : TypeKind)
  | recipe (recipe : Recipe)
  | fabricated
  | list (items : List Datum)
  | map (entries : List (String × Datum))

namespace Datum

mutual

def recipe? : Datum → Option Recipe
  | absent => some .null
  | bool b => some (.bool b)
  | int n => some (.int n)
  | str s => some (.str s)
  | elementKind k => some (.elementKind k)
  | typeKind k => some (.typeKind k)
  | recipe r => some r
  | fabricated => none
  | list items => Recipe.ofItems? (itemRecipes items)
  | map entries => Recipe.ofEntries? (entryRecipes entries)

def itemRecipes : List Datum → List (Option Recipe)
  | [] => []
  | d :: rest => recipe? d :: itemRecipes rest

def entryRecipes : List (String × Datum) → List (Recipe × Option Recipe)
  | [] => []
  | (name, d) :: rest => (.str name, recipe? d) :: entryRecipes rest

end

end Datum

end Nominal
