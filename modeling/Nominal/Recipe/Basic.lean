import Nominal.Kind
/-!
Recipes: plain trees of literals and factory invocations that say how to obtain a construct again.
-/

namespace Nominal

structure Arity where
  count : UInt8
  deriving DecidableEq

namespace Arity

def toNat (a : Arity) : Nat := a.count.toNat

def ofNat (n : Nat) : Arity := ⟨.ofNat n⟩

end Arity

inductive Factory where
  | runtimeDomain | name
  | moduleElement | packageElement | typeElement | typeParameterElement | executableElement
  | variableElement | recordComponentElement
  | declaredType | arrayType | primitiveType | noType | nullType | typeVariable | wildcardType
  | annotationUse
  | listOf (arity : Arity)
  | listOfArray
  /-- A map of exactly so many entries, given flat: key, value, key, value. -/
  | mapOf (arity : Arity)
  | mapOfEntries | mapEntry
  deriving DecidableEq

inductive Recipe where
  | null
  | bool (b : Bool)
  | int (n : Int64)
  | str (text : String)
  | elementKind (kind : ElementKind)
  | typeKind (kind : TypeKind)
  | invoke (factory : Factory) (args : List Recipe)

namespace Factory

def text : Factory → String
  | runtimeDomain => "runtime_domain"
  | name => "name"
  | moduleElement => "module_element"
  | packageElement => "package_element"
  | typeElement => "type_element"
  | typeParameterElement => "type_parameter_element"
  | executableElement => "executable_element"
  | variableElement => "variable_element"
  | recordComponentElement => "record_component_element"
  | declaredType => "declared_type"
  | arrayType => "array_type"
  | primitiveType => "primitive_type"
  | noType => "no_type"
  | nullType => "null_type"
  | typeVariable => "type_variable"
  | wildcardType => "wildcard_type"
  | annotationUse => "annotation"
  | listOf arity => s!"list_of/{arity.toNat}"
  | listOfArray => "list_of_array"
  | mapOf arity => s!"map_of/{arity.toNat}"
  | mapOfEntries => "map_of_entries"
  | mapEntry => "map_entry"

/-- How many arguments there must be, the domain counted; `none` if any number will do. -/
def arity? : Factory → Option Nat
  | runtimeDomain => some 0
  | nullType => some 1
  | name | moduleElement | packageElement | typeElement | arrayType | primitiveType | noType
  | typeVariable | mapEntry => some 2
  | typeParameterElement | variableElement | recordComponentElement | wildcardType
  | annotationUse => some 3
  | declaredType => some 4
  | executableElement => some 5
  | listOf arity => some arity.toNat
  | mapOf arity => some (2 * arity.toNat)
  | listOfArray | mapOfEntries => none

/-- Whether the first argument is the recipe of the domain to which the construct belongs. -/
def takesDomain : Factory → Bool
  | runtimeDomain | listOf _ | listOfArray | mapOf _ | mapOfEntries | mapEntry => false
  | _ => true

end Factory

namespace Recipe

mutual

def decEq : (a b : Recipe) → Decidable (a = b)
  | null, null => isTrue rfl
  | bool a, bool b => decidable_of_iff (a = b) (by simp)
  | int a, int b => decidable_of_iff (a = b) (by simp)
  | str a, str b => decidable_of_iff (a = b) (by simp)
  | elementKind a, elementKind b => decidable_of_iff (a = b) (by simp)
  | typeKind a, typeKind b => decidable_of_iff (a = b) (by simp)
  | invoke f as, invoke g bs =>
    have := decEqList as bs
    decidable_of_iff (f = g ∧ as = bs) (by simp)
  | null, bool _ | null, int _ | null, str _ | null, elementKind _ | null, typeKind _
  | null, invoke .. | bool _, null | bool _, int _ | bool _, str _ | bool _, elementKind _
  | bool _, typeKind _ | bool _, invoke .. | int _, null | int _, bool _ | int _, str _
  | int _, elementKind _ | int _, typeKind _ | int _, invoke .. | str _, null | str _, bool _
  | str _, int _ | str _, elementKind _ | str _, typeKind _ | str _, invoke ..
  | elementKind _, null | elementKind _, bool _ | elementKind _, int _ | elementKind _, str _
  | elementKind _, typeKind _ | elementKind _, invoke .. | typeKind _, null | typeKind _, bool _
  | typeKind _, int _ | typeKind _, str _ | typeKind _, elementKind _ | typeKind _, invoke ..
  | invoke .., null | invoke .., bool _ | invoke .., int _ | invoke .., str _
  | invoke .., elementKind _ | invoke .., typeKind _ => isFalse nofun

def decEqList : (as bs : List Recipe) → Decidable (as = bs)
  | [], [] => isTrue rfl
  | a :: as, b :: bs =>
    have := decEq a b
    have := decEqList as bs
    decidable_of_iff (a = b ∧ as = bs) (by simp)
  | [], _ :: _ | _ :: _, [] => isFalse nofun

end

instance : DecidableEq Recipe := decEq

def runtime : Recipe := invoke .runtimeDomain []

def factory? : Recipe → Option Factory
  | invoke f _ => some f
  | _ => none

def args : Recipe → List Recipe
  | invoke _ as => as
  | _ => []

def maxFixedArity : Nat := 10

/-- Up to ten items there is a form for each size; beyond that the form takes any number. -/
def ofItems (items : List Recipe) : Recipe :=
  if items.length ≤ maxFixedArity then invoke (.listOf (.ofNat items.length)) items
  else invoke .listOfArray items

def ofEntries (entries : List (Recipe × Recipe)) : Recipe :=
  if entries.length ≤ maxFixedArity then
    invoke (.mapOf (.ofNat entries.length)) (entries.flatMap fun (k, v) => [k, v])
  else invoke .mapOfEntries (entries.map fun (k, v) => invoke .mapEntry [k, v])

/-- What has an item without a recipe has none itself. -/
def ofItems? (items : List (Option Recipe)) : Option Recipe := ofItems <$> items.mapM id

def ofEntries? (entries : List (Recipe × Option Recipe)) : Option Recipe :=
  ofEntries <$> entries.mapM fun (k, v) => v.map (k, ·)

end Recipe

end Nominal
