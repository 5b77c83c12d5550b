import Nominal.Declaration
import Nominal.Json.Value
/-!
Declarations in JSON. Every list may be left out of a record and is then empty; writing gives every
member.
-/

namespace Nominal

def ElementKind.ofJson? (j : Json) : Option ElementKind := j.tag?.bind ofName?

def ElementKind.toJson (k : ElementKind) : Json := .str k.name

def TypeKind.ofJson? (j : Json) : Option TypeKind := j.tag?.bind ofName?

def TypeKind.toJson (k : TypeKind) : Json := .str k.name

def Modifier.ofJson? (j : Json) : Option Modifier := j.tag?.bind ofName?

def Modifier.toJson (m : Modifier) : Json := .str m.name

namespace TypeExpr

def read : Nat → Json → Option TypeExpr
  | 0, _ => none
  | fuel + 1, j =>
    match j.tagged? with
    | some ("Primitive", some k) => primitive <$> TypeKind.ofJson? k
    | some ("Void", none) | some ("Void", some .null) => some void
    | some ("Named", some r) => do
      let m ← Members.ofJson? ["name", "args"] r
      return named (← m.required "name" Json.str?) (← m.withDefault "args" [] (Json.list? (read fuel)))
    | some ("Var", some name) => var <$> name.str?
    | some ("Array", some c) => array <$> read fuel c
    | some ("Wildcard", some r) => do
      let m ← Members.ofJson? ["extends", "super_bound"] r
      return wildcard (← m.optional "extends" (read fuel)) (← m.optional "super_bound" (read fuel))
    | _ => none

def ofJson? (j : Json) : Option TypeExpr := read (j.depth + 1) j

mutual

def toJson : TypeExpr → Json
  | primitive k => .tagged "Primitive" k.toJson
  | void => .str "Void"
  | named name args => .tagged "Named" (.obj [("name", .str name), ("args", .arr (listToJson args))])
  | var name => .tagged "Var" (.str name)
  | array c => .tagged "Array" (toJson c)
  | wildcard upper lower =>
    .tagged "Wildcard" (.obj [("extends", optionToJson upper), ("super_bound", optionToJson lower)])

def listToJson : List TypeExpr → List Json
  | [] => []
  | t :: rest => toJson t :: listToJson rest

def optionToJson : Option TypeExpr → Json
  | none => .null
  | some t => toJson t

end

end TypeExpr

namespace TypeParameterDecl

def ofJson? (j : Json) : Option TypeParameterDecl := do
  let m ← Members.ofJson? ["name", "bounds"] j
  return { name := ← m.required "name" Json.str?
           bounds := ← m.withDefault "bounds" [] (Json.list? TypeExpr.ofJson?) }

def toJson (p : TypeParameterDecl) : Json :=
  .obj [("name", .str p.name), ("bounds", .arr (TypeExpr.listToJson p.bounds))]

end TypeParameterDecl

namespace ValueExpr

def read : Nat → Json → Option ValueExpr
  | 0, _ => none
  | fuel + 1, j =>
    match j.tagged? with
    | some ("Bool", some b) => bool <$> b.bool?
    | some ("Int", some n) => int <$> n.int64?
    | some ("Str", some s) => str <$> s.str?
    | some ("Type", some t) => type <$> TypeExpr.ofJson? t
    | some ("EnumConstant", some r) => do
      let m ← Members.ofJson? ["ty", "name"] r
      return enumConstant (← m.required "ty" TypeExpr.ofJson?) (← m.required "name" Json.str?)
    | some ("Array", some vs) => array <$> Json.list? (read fuel) vs
    | _ => none

def ofJson? (j : Json) : Option ValueExpr := read (j.depth + 1) j

mutual

def toJson : ValueExpr → Json
  | bool b => .tagged "Bool" (.bool b)
  | int n => .tagged "Int" (.int n.toInt)
  | str s => .tagged "Str" (.str s)
  | type t => .tagged "Type" t.toJson
  | enumConstant t name => .tagged "EnumConstant" (.obj [("ty", t.toJson), ("name", .str name)])
  | array vs => .tagged "Array" (.arr (listToJson vs))

def listToJson : List ValueExpr → List Json
  | [] => []
  | v :: rest => toJson v :: listToJson rest

end

end ValueExpr

namespace AnnotationDecl

def ofJson? (j : Json) : Option AnnotationDecl := do
  let m ← Members.ofJson? ["annotation_type", "values"] j
  return { type := ← m.required "annotation_type" TypeExpr.ofJson?
           values := ← m.withDefault "values" [] (Json.list? (Json.pair? Json.str? ValueExpr.ofJson?)) }

def toJson (a : AnnotationDecl) : Json :=
  .obj [("annotation_type", a.type.toJson),
    ("values", .arr (a.values.map fun (name, v) => .arr [.str name, v.toJson]))]

end AnnotationDecl

namespace ExecutableDecl

def ofJson? (j : Json) : Option ExecutableDecl := do
  let m ← Members.ofJson? ["name", "modifiers", "type_parameters", "parameters", "return_type",
    "thrown", "varargs", "annotations"] j
  return { name := ← m.required "name" Json.str?
           modifiers := ← m.withDefault "modifiers" [] (Json.list? Modifier.ofJson?)
           typeParameters := ← m.withDefault "type_parameters" [] (Json.list? TypeParameterDecl.ofJson?)
           parameters := ← m.withDefault "parameters" [] (Json.list? (Json.pair? Json.str? TypeExpr.ofJson?))
           returnType := ← m.required "return_type" TypeExpr.ofJson?
           thrown := ← m.withDefault "thrown" [] (Json.list? TypeExpr.ofJson?)
           varargs := ← m.withDefault "varargs" false Json.bool?
           annotations := ← m.withDefault "annotations" [] (Json.list? AnnotationDecl.ofJson?) }

def toJson (d : ExecutableDecl) : Json :=
  .obj [("name", .str d.name), ("modifiers", .arr (d.modifiers.map Modifier.toJson)),
    ("type_parameters", .arr (d.typeParameters.map TypeParameterDecl.toJson)),
    ("parameters", .arr (d.parameters.map fun (name, t) => .arr [.str name, t.toJson])),
    ("return_type", d.returnType.toJson), ("thrown", .arr (TypeExpr.listToJson d.thrown)),
    ("varargs", .bool d.varargs), ("annotations", .arr (d.annotations.map AnnotationDecl.toJson))]

end ExecutableDecl

namespace MemberDecl

def ofJson? (j : Json) : Option MemberDecl :=
  match j.tagged? with
  | some ("Field", some r) => do
    let m ← Members.ofJson? ["name", "ty", "modifiers"] r
    return field (← m.required "name" Json.str?) (← m.required "ty" TypeExpr.ofJson?)
      (← m.withDefault "modifiers" [] (Json.list? Modifier.ofJson?))
  | some ("EnumConstant", some name) => enumConstant <$> name.str?
  | some ("Method", some d) => method <$> ExecutableDecl.ofJson? d
  | some ("Constructor", some d) => constructor <$> ExecutableDecl.ofJson? d
  | some ("RecordComponent", some r) => do
    let m ← Members.ofJson? ["name", "ty"] r
    return recordComponent (← m.required "name" Json.str?) (← m.required "ty" TypeExpr.ofJson?)
  | _ => none

def toJson : MemberDecl → Json
  | field name t modifiers =>
    .tagged "Field" (.obj [("name", .str name), ("ty", t.toJson),
      ("modifiers", .arr (modifiers.map Modifier.toJson))])
  | enumConstant name => .tagged "EnumConstant" (.str name)
  | method d => .tagged "Method" d.toJson
  | constructor d => .tagged "Constructor" d.toJson
  | recordComponent name t => .tagged "RecordComponent" (.obj [("name", .str name), ("ty", t.toJson)])

end MemberDecl

namespace TypeDecl

def read : Nat → Json → Option TypeDecl
  | 0, _ => none
  | fuel + 1, j => do
    let m ← Members.ofJson? ["kind", "name", "modifiers", "type_parameters", "superclass",
      "interfaces", "members", "nested", "annotations"] j
    let header : TypeHeader :=
      { kind := ← m.required "kind" ElementKind.ofJson?
        name := ← m.required "name" Json.str?
        modifiers := ← m.withDefault "modifiers" [] (Json.list? Modifier.ofJson?)
        typeParameters := ← m.withDefault "type_parameters" [] (Json.list? TypeParameterDecl.ofJson?)
        superclass := ← m.withDefault "superclass" none (Json.optional? TypeExpr.ofJson?)
        interfaces := ← m.withDefault "interfaces" [] (Json.list? TypeExpr.ofJson?)
        members := ← m.withDefault "members" [] (Json.list? MemberDecl.ofJson?)
        annotations := ← m.withDefault "annotations" [] (Json.list? AnnotationDecl.ofJson?) }
    return mk header (← m.withDefault "nested" [] (Json.list? (read fuel)))

def ofJson? (j : Json) : Option TypeDecl := read (j.depth + 1) j

mutual

def toJson : TypeDecl → Json
  | mk h nested =>
    .obj [("kind", h.kind.toJson), ("name", .str h.name),
      ("modifiers", .arr (h.modifiers.map Modifier.toJson)),
      ("type_parameters", .arr (h.typeParameters.map TypeParameterDecl.toJson)),
      ("superclass", TypeExpr.optionToJson h.superclass),
      ("interfaces", .arr (TypeExpr.listToJson h.interfaces)),
      ("members", .arr (h.members.map MemberDecl.toJson)), ("nested", .arr (listToJson nested)),
      ("annotations", .arr (h.annotations.map AnnotationDecl.toJson))]

def listToJson : List TypeDecl → List Json
  | [] => []
  | d :: rest => toJson d :: listToJson rest

end

end TypeDecl

namespace PackageDecl

def ofJson? (j : Json) : Option PackageDecl := do
  let m ← Members.ofJson? ["module", "package", "types"] j
  return { module := ← m.withDefault "module" none (Json.optional? Json.str?)
           package := ← m.required "package" Json.str?
           types := ← m.withDefault "types" [] (Json.list? TypeDecl.ofJson?) }

def toJson (p : PackageDecl) : Json :=
  .obj [("module", .ofOption (p.module.map .str)), ("package", .str p.package),
    ("types", .arr (TypeDecl.listToJson p.types))]

end PackageDecl

end Nominal
