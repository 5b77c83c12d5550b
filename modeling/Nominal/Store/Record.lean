import Nominal.ByName
import Nominal.Handle
/-!
What is known about an element once it is complete. A record is never changed afterwards.
-/

namespace Nominal

inductive AnnotationValue where
  | bool (b : Bool)
  | int (n : Int64)
  | str (text : String)
  | type (type : TypeId)
  | enumConstant (constant : ElementId)
  | array (values : List AnnotationValue)

structure AnnotationUse where
  type : TypeId
  values : ByName AnnotationValue

structure TypeDetail where
  typeParameters : List ElementId
  superclass : TypeId
  interfaces : List TypeId
  components : List ElementId

structure ExecutableDetail where
  typeParameters : List ElementId
  parameters : List ElementId
  returnType : TypeId
  thrown : List TypeId
  varargs : Bool

inductive Detail where
  | plain
  | type (detail : TypeDetail)
  | executable (detail : ExecutableDetail)
  | typeParameter (owner : ElementId) (bounds : List TypeId)

structure ElementRecord where
  id : ElementId
  kind : ElementKind
  simpleName : String
  qualifiedName : String := simpleName
  enclosing : Option ElementId := none
  enclosed : List ElementId := []
  modifiers : List Modifier := []
  nesting : Nesting := .topLevel
  asType : TypeId := .none
  annotations : List AnnotationUse := []
  /-- Whether completion left part of the declaration unresolved. -/
  erroneous : Bool := false
  detail : Detail := .plain

namespace ElementRecord

def unknown (id : ElementId) : ElementRecord :=
  { id, kind := .classType, simpleName := "<unknown>", erroneous := true }

def isStatic (r : ElementRecord) : Bool := r.modifiers.contains .static

/-- Empty for elements that go by their simple name. -/
def nameInProgram (r : ElementRecord) : String := if r.kind.isQualified then r.qualifiedName else ""

def nestingKind? (r : ElementRecord) : Option Nesting := if r.kind.isType then some r.nesting else none

def typeParameters (r : ElementRecord) : List ElementId :=
  match r.detail with
  | .type d => d.typeParameters
  | .executable d => d.typeParameters
  | _ => []

def isGeneric (r : ElementRecord) : Bool := !r.typeParameters.isEmpty

def superclass (r : ElementRecord) : TypeId :=
  match r.detail with
  | .type d => d.superclass
  | _ => .none

def interfaces (r : ElementRecord) : List TypeId :=
  match r.detail with
  | .type d => d.interfaces
  | _ => []

/-- The components of the header, which any type declaration may list. -/
def declaredComponents (r : ElementRecord) : List ElementId :=
  match r.detail with
  | .type d => d.components
  | _ => []

/-- Only a record has its components as such. -/
def components (r : ElementRecord) : List ElementId :=
  if r.kind = .recordType then r.declaredComponents else []

def bounds (r : ElementRecord) : List TypeId :=
  match r.detail with
  | .typeParameter _ ts => ts
  | _ => []

def genericElement? (r : ElementRecord) : Option ElementId :=
  match r.detail with
  | .typeParameter owner _ => some owner
  | _ => none

def parameters (r : ElementRecord) : List ElementId :=
  match r.detail with
  | .executable d => d.parameters
  | _ => []

def returnType (r : ElementRecord) : TypeId :=
  match r.detail with
  | .executable d => d.returnType
  | _ => .none

def thrownTypes (r : ElementRecord) : List TypeId :=
  match r.detail with
  | .executable d => d.thrown
  | _ => []

def isVarargs (r : ElementRecord) : Bool :=
  match r.detail with
  | .executable d => d.varargs
  | _ => false

end ElementRecord

end Nominal
