import Nominal.Declaration.Json
import Nominal.Recipe.Value
import Nominal.Store.Display
import Nominal.Workspace.TypeView
/-!
Elements, types, annotations and values in JSON. Elements and types stand for themselves by their kind
and their text.
-/

namespace Nominal

namespace Store

def elementJson (s : Store) (e : ElementId) : Json :=
  .str (((s.kind? e).map (·.name)).getD "?" ++ ":" ++ s.elementText e)

def typeJson (s : Store) (t : TypeId) : Json := .str ((s.typeKind t).name ++ ":" ++ s.typeText t)

def elementsJson (s : Store) (es : List ElementId) : Json := .arr (es.map s.elementJson)

def typesJson (s : Store) (ts : List TypeId) : Json := .arr (ts.map s.typeJson)

def optionalElementJson (s : Store) (e : Option ElementId) : Json := .ofOption (e.map s.elementJson)

def optionalTypeJson (s : Store) (t : Option TypeId) : Json := .ofOption (t.map s.typeJson)

mutual

def annotationValueJson (s : Store) : AnnotationValue → Json
  | .bool b => .tagged "bool" (.bool b)
  | .int n => .tagged "int" (.int n.toInt)
  | .str text => .tagged "str" (.str text)
  | .type t => .tagged "type" (s.typeJson t)
  | .enumConstant e => .tagged "enum" (s.elementJson e)
  | .array vs => .tagged "array" (.arr (annotationValuesJson s vs))

def annotationValuesJson (s : Store) : List AnnotationValue → List Json
  | [] => []
  | v :: rest => annotationValueJson s v :: annotationValuesJson s rest

end

def annotationMembers (s : Store) (a : AnnotationUse) : List (String × Json) :=
  [("type", s.typeJson a.type), ("values", .obj (a.values.map s.annotationValueJson))]

def annotationJson (s : Store) (a : AnnotationUse) : Json := .obj (s.annotationMembers a)

def commonMembers (s : Store) (r : ElementRecord) : List (String × Json) :=
  [("kind", r.kind.toJson), ("simple_name", .str r.simpleName), ("as_type", s.typeJson r.asType),
    ("type_parameters", s.elementsJson r.typeParameters), ("superclass", s.typeJson r.superclass),
    ("interfaces", s.typesJson r.interfaces), ("bounds", s.typesJson r.bounds),
    ("generic_element", s.optionalElementJson r.genericElement?),
    ("parameters", s.elementsJson r.parameters), ("return_type", s.typeJson r.returnType),
    ("thrown_types", s.typesJson r.thrownTypes)]

def recordJson (s : Store) (r : ElementRecord) : Json :=
  .obj (s.commonMembers r ++
    [("id", .int r.id.index), ("qualified_name", .str r.qualifiedName),
      ("enclosing", s.optionalElementJson r.enclosing), ("enclosed", s.elementsJson r.enclosed),
      ("modifiers", .arr (r.modifiers.map Modifier.toJson)), ("nesting", .str r.nesting.name),
      ("varargs", .bool r.isVarargs), ("record_components", s.elementsJson r.declaredComponents),
      ("annotations", .int r.annotations.length), ("erroneous", .bool r.erroneous)])

mutual

def valueJson (s : Store) (domain : HomeDomain → Json) : Value → Json
  | .null => .str "null"
  | .bool b => .tagged "bool" (.bool b)
  | .int n => .tagged "int" (.int n.toInt)
  | .str text => .tagged "str" (.str text)
  | .name k => .tagged "name" (.str k.text)
  | .elementKind k => .tagged "element_kind" k.toJson
  | .typeKind k => .tagged "type_kind" k.toJson
  | .domain d => .tagged "domain" (domain d)
  | .element e => .obj [("element", s.elementJson e), ("domain", domain .own)]
  | .type t => .obj [("type", s.typeJson t), ("domain", domain .own)]
  | .annotationUse a => .tagged "annotation" (s.annotationJson a)
  | .list vs => .tagged "list" (.arr (valuesJson s domain vs))
  | .map es => .tagged "map" (.arr (entriesJson s domain es))
  | .entry k v => .tagged "entry" (.arr [valueJson s domain k, valueJson s domain v])

def valuesJson (s : Store) (domain : HomeDomain → Json) : List Value → List Json
  | [] => []
  | v :: rest => valueJson s domain v :: valuesJson s domain rest

def entriesJson (s : Store) (domain : HomeDomain → Json) : List (Value × Value) → List Json
  | [] => []
  | (k, v) :: rest => .arr [valueJson s domain k, valueJson s domain v] :: entriesJson s domain rest

end

end Store

end Nominal
