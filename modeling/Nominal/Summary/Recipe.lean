import Nominal.Recipe.Datum
import Nominal.Recipe.Json
import Nominal.Summary.Kind
/-!
Recipes in JSON with what is known about their outermost factory, and plain data read from JSON.
-/

namespace Nominal

def Recipe.summary (r : Recipe) : Json :=
  .obj [("json", .str r.render), ("args", .int r.args.length),
    ("factory", .ofOption (r.factory?.map Factory.summary))]

namespace Datum

def read : Nat → Json → Option Datum
  | 0, _ => none
  | fuel + 1, j =>
    match j.tagged? with
    | some ("bool", some v) => bool <$> v.bool?
    | some ("int", some v) => int <$> v.int64?
    | some ("str", some v) => str <$> v.str?
    | some ("element_kind", some v) => elementKind <$> ElementKind.ofJson? v
    | some ("type_kind", some v) => typeKind <$> TypeKind.ofJson? v
    | some ("descriptor", some v) => recipe <$> Recipe.ofJson? v
    | some ("some", some v) => read fuel v
    | some ("none", some _) => some absent
    | some ("opaque", some _) => some fabricated
    | some ("list", some v) => list <$> v.list? (read fuel)
    | some ("map", some v) => do
      return map (ByName.ofList (← v.list? (Json.pair? Json.str? (read fuel)))).toList
    | _ => none

def ofJson? (j : Json) : Option Datum := read (j.depth + 1) j

end Datum

end Nominal
