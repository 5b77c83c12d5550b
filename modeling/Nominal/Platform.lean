import Nominal.Store.Entering
import Nominal.Store.Resolution
/-!
The declarations that every program starts from: the types of the common package and a few
collections.
-/

namespace Nominal.Platform

def moduleName : String := "base"

def named (name : String) (arguments : List TypeExpr := []) : TypeExpr := .named name arguments

def string : TypeExpr := named "String"

def int : TypeExpr := .primitive .int

def boolean : TypeExpr := .primitive .boolean

def publicType (kind : ElementKind) (name : String) (members : List MemberDecl := [])
    (modifiers : List Modifier := []) (typeParameters : List TypeParameterDecl := [])
    (superclass : Option TypeExpr := none) (interfaces : List TypeExpr := [])
    (annotations : List AnnotationDecl := []) : TypeHeader :=
  { kind, name, modifiers := .publicAccess :: modifiers, typeParameters, superclass, interfaces
    members, annotations }

def method (name : String) (returnType : TypeExpr)
    (parameters : List (String × TypeExpr) := []) (modifiers : List Modifier := []) : MemberDecl :=
  .method { name, returnType, parameters, modifiers }

def constructor (parameters : List (String × TypeExpr) := [])
    (modifiers : List Modifier := []) : MemberDecl :=
  .constructor { name := "<init>", returnType := .void, parameters, modifiers }

def free (name : String) : TypeParameterDecl := { name }

def keptAtRunTime : AnnotationDecl :=
  { type := named "Retention", values := [("value", .enumConstant (named "RetentionPolicy") "RUNTIME")] }

def commonTypes : List TypeHeader :=
  [publicType .classType "Object"
      [constructor [] [.publicAccess], method "equals" boolean [("other", named "Object")],
        method "hashCode" int, method "toString" string],
    publicType .interfaceType "Comparable" [method "compareTo" int [("other", .var "T")]] []
      [free "T"],
    publicType .interfaceType "Iterable" [] [] [free "T"],
    publicType .classType "String"
      [method "length" int, method "charAt" (.primitive .char) [("index", int)]] [.final] [] none
      [named "Comparable" [string]],
    publicType .classType "Number" [method "intValue" int [] [.abstract]] [.abstract],
    publicType .classType "Integer"
      [.field "MAX_VALUE" int [.publicAccess, .static, .final],
        method "valueOf" (named "Integer") [("value", int)] [.publicAccess, .static]]
      [.final] [] (named "Number") [named "Comparable" [named "Integer"]],
    publicType .classType "Enum" [method "name" string, method "ordinal" int] [.abstract]
      [{ name := "E", bounds := [named "Enum" [.var "E"]] }] none [named "Comparable" [.var "E"]],
    publicType .classType "Record" [] [.abstract],
    publicType .classType "Throwable" [method "getMessage" string],
    publicType .classType "Exception" [] [] [] (named "Throwable"),
    publicType .annotationType "Deprecated" [] [] [] none [] [keptAtRunTime],
    publicType .enumType "RetentionPolicy"
      [.enumConstant "SOURCE", .enumConstant "CLASS", .enumConstant "RUNTIME"],
    publicType .annotationType "Retention" [method "value" (named "RetentionPolicy")] [] [] none []
      [keptAtRunTime]]

def collectionTypes : List TypeDecl :=
  [.mk (publicType .interfaceType "Collection"
      [method "size" int, method "add" boolean [("element", .var "E")]] [] [free "E"]
      (named "Iterable" [.var "E"])) [],
    .mk (publicType .interfaceType "List"
      [method "get" (.var "E") [("index", int)],
        method "set" (.var "E") [("index", int), ("element", .var "E")]] [] [free "E"]
      (named "Collection" [.var "E"])) [],
    .mk (publicType .classType "ArrayList" [constructor, constructor [("capacity", int)]] []
      [free "E"] none [named "List" [.var "E"]]) [],
    .mk (publicType .interfaceType "Map"
      [method "get" (.var "V") [("key", named "Object")],
        method "put" (.var "V") [("key", .var "K"), ("value", .var "V")]] [] [free "K", free "V"])
      [.mk (publicType .interfaceType "Entry"
        [method "getKey" (.var "K"), method "getValue" (.var "V")] [] [free "K", free "V"]) []],
    .mk (publicType .classType "HashMap" [constructor] [] [free "K", free "V"] none
      [named "Map" [.var "K", .var "V"]]) []]

def packages : List PackageDecl :=
  [{ module := moduleName, package := commonPackage, types := commonTypes.map (.mk · []) },
    { module := moduleName, package := "util", types := collectionTypes }]

def enter : StoreM Unit := packages.forM fun p => discard (StoreM.enterDeclarations p)

end Platform

def Store.withPlatform : Store := (Platform.enter.run .empty).2

end Nominal
