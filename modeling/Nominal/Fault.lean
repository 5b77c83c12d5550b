import Nominal.Handle
/-!
Why a store refuses a declaration or a construction.
-/

namespace Nominal

inductive Fault where
  | notPackage (name : String)
  | notTypeKind (name : String) (kind : ElementKind)
  | notLocalKind (kind : ElementKind)
  | notExecutable (name : String)
  | notPrimitive (kind : TypeKind)
  | notNoType (kind : TypeKind)
  | badComponent (kind : TypeKind)
  | notTypeElement (name : String)
  | argumentCount (name : String) (expected found : Nat)
  | badArgument (kind : TypeKind)
  | badEnclosing (kind : TypeKind)
  | twoBounds
  | badBound (kind : TypeKind)
  | noVariable (kind : ElementKind)
  | notDeclared (type : String)
  | notMember (member type : String)
  | duplicate (name : String)
  | unknownElement (id : ElementId)
  | unknownType (id : TypeId)
  deriving DecidableEq

inductive FaultFamily where
  | illegalArgument | duplicate | unknownElement | unknownType
  deriving DecidableEq

namespace FaultFamily

def name : FaultFamily → String
  | illegalArgument => "IllegalArgument"
  | duplicate => "Duplicate"
  | unknownElement => "UnknownElement"
  | unknownType => "UnknownType"

def code : FaultFamily → String
  | illegalArgument => "mirra::model::illegal_argument"
  | duplicate => "mirra::model::duplicate"
  | unknownElement => "mirra::model::unknown_element"
  | unknownType => "mirra::model::unknown_type"

end FaultFamily

namespace Fault

def family : Fault → FaultFamily
  | duplicate _ => .duplicate
  | unknownElement _ => .unknownElement
  | unknownType _ => .unknownType
  | _ => .illegalArgument

def reason : Fault → String
  | notPackage name => s!"`{name}` is not a package"
  | notTypeKind name kind => s!"`{name}` is declared as {kind.name}, which is not a type kind"
  | notLocalKind kind => s!"{kind.name} is not a local variable kind"
  | notExecutable name => s!"`{name}` is not an executable"
  | notPrimitive kind => s!"{kind.name} is not a primitive kind"
  | notNoType kind => s!"{kind.name} is not a no-type kind"
  | badComponent kind => s!"{kind.name} cannot be the component of an array"
  | notTypeElement name => s!"`{name}` is not a type element"
  | argumentCount name expected found => s!"`{name}` takes {expected} type arguments, got {found}"
  | badArgument kind => s!"{kind.name} cannot be a type argument"
  | badEnclosing kind => s!"{kind.name} cannot enclose a declared type"
  | twoBounds => "a wildcard has at most one bound"
  | badBound kind => s!"{kind.name} cannot bound a wildcard"
  | noVariable kind => s!"{kind.name} does not declare a type variable"
  | notDeclared type => s!"{type} is not a declared type"
  | notMember member type => s!"`{member}` is not a member of {type}"
  | duplicate name => s!"`{name}` is already declared"
  | unknownElement id => s!"unknown element {id.text}"
  | unknownType id => s!"unknown type {id.text}"

def message (f : Fault) : String :=
  match f.family with
  | .illegalArgument => "illegal argument: " ++ f.reason
  | _ => f.reason

def code (f : Fault) : String := f.family.code

end Fault

end Nominal
