import Nominal.Declaration.Json
import Nominal.Json.Printer
import Nominal.Json.Reader
import Nominal.Recipe.Basic
/-!
Recipes in JSON.
-/

namespace Nominal

namespace Factory

def plain : List (String × Factory) :=
  [("RuntimeDomain", runtimeDomain), ("Name", name), ("ModuleElement", moduleElement),
    ("PackageElement", packageElement), ("TypeElement", typeElement),
    ("TypeParameterElement", typeParameterElement), ("ExecutableElement", executableElement),
    ("VariableElement", variableElement), ("RecordComponentElement", recordComponentElement),
    ("DeclaredType", declaredType), ("ArrayType", arrayType), ("PrimitiveType", primitiveType),
    ("NoType", noType), ("NullType", nullType), ("TypeVariable", typeVariable),
    ("WildcardType", wildcardType), ("Annotation", annotationUse), ("ListOfArray", listOfArray),
    ("MapOfEntries", mapOfEntries), ("MapEntry", mapEntry)]

def readArity (j : Json) : Option Arity := do
  let m ← Members.ofJson? ["arity"] j
  return .ofNat (← m.required "arity" (Json.natBelow? 256))

def ofJson? (j : Json) : Option Factory :=
  match j.tagged? with
  | some ("ListOf", some r) => listOf <$> readArity r
  | some ("MapOf", some r) => mapOf <$> readArity r
  | _ => j.tag?.bind fun tag => (plain.find? (·.1 == tag)).map (·.2)

def toJson : Factory → Json
  | listOf arity => .tagged "ListOf" (.obj [("arity", .int arity.toNat)])
  | mapOf arity => .tagged "MapOf" (.obj [("arity", .int arity.toNat)])
  | f => .ofOption ((plain.find? (·.2 == f)).map fun p => .str p.1)

end Factory

namespace Recipe

def read : Nat → Json → Option Recipe
  | 0, _ => none
  | fuel + 1, j =>
    match j.tagged? with
    | some ("Null", none) | some ("Null", some .null) => some null
    | some ("Bool", some b) => bool <$> b.bool?
    | some ("Int", some n) => int <$> n.int64?
    | some ("Str", some s) => str <$> s.str?
    | some ("ElementKind", some k) => elementKind <$> ElementKind.ofJson? k
    | some ("TypeKind", some k) => typeKind <$> TypeKind.ofJson? k
    | some ("Invoke", some r) => do
      let m ← Members.ofJson? ["factory", "args"] r
      return invoke (← m.required "factory" Factory.ofJson?) (← m.required "args" (Json.list? (read fuel)))
    | _ => none

def ofJson? (j : Json) : Option Recipe := read (j.depth + 1) j

mutual

def toJson : Recipe → Json
  | null => .str "Null"
  | bool b => .tagged "Bool" (.bool b)
  | int n => .tagged "Int" (.int n.toInt)
  | str s => .tagged "Str" (.str s)
  | elementKind k => .tagged "ElementKind" k.toJson
  | typeKind k => .tagged "TypeKind" k.toJson
  | invoke f args => .tagged "Invoke" (.obj [("factory", f.toJson), ("args", .arr (listToJson args))])

def listToJson : List Recipe → List Json
  | [] => []
  | r :: rest => toJson r :: listToJson rest

end

def render (r : Recipe) : String := r.toJson.render

def ofText? (text : String) : Option Recipe := (Json.ofText? text).bind ofJson?

end Recipe

end Nominal
