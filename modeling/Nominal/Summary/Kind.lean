import Nominal.Handle
import Nominal.Json.Value
import Nominal.Names
import Nominal.Recipe.Basic
/-!
Kinds, factories, handles and names in JSON, with all that is known about them.
-/

namespace Nominal

def ElementKind.summary (k : ElementKind) : Json :=
  .obj [("display", .str k.name), ("is_class", .bool k.isClass), ("is_interface", .bool k.isInterface),
    ("is_type", .bool k.isType), ("is_executable", .bool k.isExecutable),
    ("is_local", .bool k.isLocal), ("is_variable", .bool k.isVariable),
    ("is_parameterizable", .bool k.isParameterizable)]

def TypeKind.summary (k : TypeKind) : Json :=
  .obj [("display", .str k.name), ("is_primitive", .bool k.isPrimitive),
    ("is_reference", .bool k.isReference), ("is_no_type", .bool k.isNoType),
    ("keyword", .ofOption (k.keyword?.map .str)),
    ("primitive_id", .ofOption (k.primitive?.map fun p => .int (TypeId.primitive p).index)),
    ("no_type_id", .ofOption (k.noType?.map fun n => .int (TypeId.noType n).index))]

def Factory.summary (f : Factory) : Json :=
  .obj [("display", .str f.text), ("arity", .ofOption (f.arity?.map fun n => .int n)),
    ("takes_domain", .bool f.takesDomain)]

def handleSummary (family : String) (index : Nat) : Json :=
  .ofOption <| (handleIndex? index).map fun i =>
    .obj [("id", .int i.toNat), ("usize", .int i.toNat), ("display", .str (handleText i.toNat)),
      ("debug", .str (handleDetail family i.toNat))]

def NameKey.summary (k : NameKey) (t : NameTable) : Json :=
  .obj [("key", .str k.text), ("index", .int k.index.toNat), ("debug", .str k.detail),
    ("text", .ofOption ((t.get? k).map .str))]

end Nominal
