import Nominal.Kind
/-!
Declarations as they are entered. Types are written as expressions over names and mean something
only once the declaring element is completed.
-/

namespace Nominal

inductive TypeExpr where
  /-- Any kind may be written; one that is no primitive does not resolve. -/
  | primitive (kind : TypeKind)
  | void
  | named (name : String) (arguments : List TypeExpr)
  | var (name : String)
  | array (component : TypeExpr)
  | wildcard (upper lower : Option TypeExpr)

structure TypeParameterDecl where
  name : String
  bounds : List TypeExpr := []

inductive ValueExpr where
  | bool (b : Bool)
  | int (n : Int64)
  | str (text : String)
  | type (type : TypeExpr)
  | enumConstant (type : TypeExpr) (name : String)
  | array (values : List ValueExpr)

structure AnnotationDecl where
  type : TypeExpr
  values : List (String × ValueExpr) := []

structure ExecutableDecl where
  name : String
  modifiers : List Modifier := []
  typeParameters : List TypeParameterDecl := []
  parameters : List (String × TypeExpr) := []
  returnType : TypeExpr
  thrown : List TypeExpr := []
  varargs : Bool := false
  annotations : List AnnotationDecl := []

inductive MemberDecl where
  | field (name : String) (type : TypeExpr) (modifiers : List Modifier)
  | enumConstant (name : String)
  | method (decl : ExecutableDecl)
  /-- Neither the name nor the return type of the declaration counts. -/
  | constructor (decl : ExecutableDecl)
  | recordComponent (name : String) (type : TypeExpr)

structure TypeHeader where
  kind : ElementKind
  name : String
  modifiers : List Modifier := []
  typeParameters : List TypeParameterDecl := []
  superclass : Option TypeExpr := none
  interfaces : List TypeExpr := []
  members : List MemberDecl := []
  annotations : List AnnotationDecl := []

inductive TypeDecl where
  | mk (header : TypeHeader) (nested : List TypeDecl)

namespace TypeDecl

def header : TypeDecl → TypeHeader
  | mk h _ => h

def nested : TypeDecl → List TypeDecl
  | mk _ ds => ds

end TypeDecl

structure PackageDecl where
  module : Option String := none
  package : String
  types : List TypeDecl := []

end Nominal
