import Nominal.Handle
/-!
The shape of a type: what it is made of, with its parts as handles.
-/

namespace Nominal

structure Signature where
  typeVariables : List TypeId
  receiver : TypeId
  parameters : List TypeId
  result : TypeId
  thrown : List TypeId
  deriving DecidableEq

inductive TypeShape where
  | primitive (p : Primitive)
  | noType (n : NoType)
  | null
  | array (component : TypeId)
  /-- A usage of a type element; without arguments it is raw if the element is generic. -/
  | declared (enclosing : TypeId) (element : ElementId) (arguments : List TypeId)
  /-- A type that was written but could not be resolved. -/
  | error (name : String)
  | typeVariable (element : ElementId) (upper : TypeId)
  | wildcard (upper lower : Option TypeId)
  | executable (signature : Signature)
  | union (alternatives : List TypeId)
  | intersection (bounds : List TypeId)
  deriving DecidableEq

namespace TypeShape

def kind : TypeShape → TypeKind
  | primitive p => p.kind
  | noType n => n.kind
  | null => .null
  | array _ => .array
  | declared .. => .declared
  | error _ => .error
  | typeVariable .. => .typeVariable
  | wildcard .. => .wildcard
  | executable _ => .executable
  | union _ => .union
  | intersection _ => .intersection

def unknown : TypeShape := error "<unknown>"

/-- The shapes that every store begins with, in the order of their handles. -/
def initial : List TypeShape :=
  [noType .none, noType .void, noType .package, noType .module, null] ++ Primitive.all.map primitive

/-! Views that every shape has; where there is nothing to see they show the `none` type, no type
or an empty list. -/

def element? : TypeShape → Option ElementId
  | declared _ e _ | typeVariable e _ => some e
  | _ => none

def component : TypeShape → TypeId
  | array c => c
  | _ => .none

def enclosing : TypeShape → TypeId
  | declared t _ _ => t
  | _ => .none

def arguments : TypeShape → List TypeId
  | declared _ _ ts => ts
  | _ => []

def upperBound : TypeShape → TypeId
  | typeVariable _ t => t
  | _ => .none

/-- Nothing but the null type is below every instance of a variable. -/
def lowerBound : TypeShape → TypeId
  | typeVariable .. => .null
  | _ => .none

def extendsBound? : TypeShape → Option TypeId
  | wildcard t _ => t
  | _ => none

def superBound? : TypeShape → Option TypeId
  | wildcard _ t => t
  | _ => none

def signature? : TypeShape → Option Signature
  | executable s => some s
  | _ => none

def parameterTypes (s : TypeShape) : List TypeId := (s.signature?.map (·.parameters)).getD []

def returnType (s : TypeShape) : TypeId := (s.signature?.map (·.result)).getD .none

def receiverType (s : TypeShape) : TypeId := (s.signature?.map (·.receiver)).getD .none

def thrownTypes (s : TypeShape) : List TypeId := (s.signature?.map (·.thrown)).getD []

def typeVariables (s : TypeShape) : List TypeId := (s.signature?.map (·.typeVariables)).getD []

def alternatives : TypeShape → List TypeId
  | union ts => ts
  | _ => []

def bounds : TypeShape → List TypeId
  | intersection ts => ts
  | _ => []

def isParameterized (s : TypeShape) : Bool := !s.arguments.isEmpty

end TypeShape

end Nominal
