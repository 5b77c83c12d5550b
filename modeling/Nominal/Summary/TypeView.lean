import Nominal.Summary.Construct
import Nominal.Summary.Problem
/-!
All that a view of an element or type tells, in JSON.
-/

namespace Nominal

namespace Store

def viewedRecordJson (s : Store) (r : ElementRecord) (id : ElementId) : Json :=
  .obj (s.commonMembers r ++
    [("qualified_name", .str r.nameInProgram),
      ("modifiers", .strings (r.modifiers.map (·.keyword))), ("is_static", .bool r.isStatic),
      ("nesting_kind", .ofOption (r.nestingKind?.map fun n => .str n.name)),
      ("is_erroneous", .bool r.erroneous), ("enclosing_element", s.optionalElementJson r.enclosing),
      ("enclosed_elements", s.elementsJson r.enclosed), ("is_varargs", .bool r.isVarargs),
      ("record_components", s.elementsJson r.components),
      ("annotations", .arr (r.annotations.map s.annotationJson)), ("is_generic", .bool r.isGeneric),
      ("display", .str (s.elementText id))])

def shapeMembers (s : Store) (shape : TypeShape) : List (String × Json) :=
  [("kind", shape.kind.toJson), ("component_type", s.typeJson shape.component),
    ("type_arguments", s.typesJson shape.arguments), ("enclosing_type", s.typeJson shape.enclosing),
    ("as_element", s.optionalElementJson shape.element?), ("upper_bound", s.typeJson shape.upperBound),
    ("lower_bound", s.typeJson shape.lowerBound),
    ("extends_bound", s.optionalTypeJson shape.extendsBound?),
    ("super_bound", s.optionalTypeJson shape.superBound?),
    ("parameter_types", s.typesJson shape.parameterTypes), ("return_type", s.typeJson shape.returnType),
    ("receiver_type", s.typeJson shape.receiverType), ("thrown_types", s.typesJson shape.thrownTypes),
    ("type_variables", s.typesJson shape.typeVariables),
    ("alternatives", s.typesJson shape.alternatives), ("bounds", s.typesJson shape.bounds),
    ("is_parameterized", .bool shape.isParameterized)]

end Store

def ElementView.summary (v : ElementView) : WorkM Json := do
  let r ← v.record
  WorkM.look v.domain fun s => s.viewedRecordJson r v.id

namespace TypeView

def primitiveKindJson : Except ViewFault TypeKind → Json
  | .ok k => k.toJson
  | .error f => f.summary

/-- What is only computed is computed after what is written down. -/
def summary (v : TypeView) : WorkM Json := do
  let shape ← v.shape
  let primitiveKind ← v.primitiveKind
  let isObject ← v.isObject
  let isRaw ← v.isRaw
  let isGeneric ← v.isGeneric
  let elementType ← v.elementType
  let erasure ← v.erasure
  let supertypes ← v.directSupertypes
  WorkM.look v.domain fun s =>
    .obj (s.shapeMembers shape ++
      [("as_primitive_kind", primitiveKindJson primitiveKind), ("is_object", .bool isObject),
        ("is_raw", .bool isRaw), ("is_generic", .bool isGeneric),
        ("element_type", s.typeJson elementType.id), ("erasure", s.typeJson erasure.id),
        ("direct_supertypes", s.typesJson supertypes), ("display", .str (s.typeText v.id))])

end TypeView

end Nominal
