/-!
The kinds of elements and types, the modifiers of a declaration, and where a type is nested. Each
closed vocabulary comes with its list in order, its written names and the classes it falls into.
-/

namespace Nominal

inductive ElementKind where
  | module | package
  | classType | interfaceType | enumType | recordType | annotationType
  | constructor | method
  | field | enumConstant | parameter
  | localVariable | exceptionParameter | resourceVariable | bindingVariable
  | typeParameter | recordComponent
  deriving DecidableEq

namespace ElementKind

def all : List ElementKind :=
  [module, package, classType, interfaceType, enumType, recordType, annotationType, constructor,
    method, field, enumConstant, parameter, localVariable, exceptionParameter, resourceVariable,
    bindingVariable, typeParameter, recordComponent]

def name : ElementKind → String
  | module => "Module"
  | package => "Package"
  | classType => "Class"
  | interfaceType => "Interface"
  | enumType => "Enum"
  | recordType => "Record"
  | annotationType => "AnnotationType"
  | constructor => "Constructor"
  | method => "Method"
  | field => "Field"
  | enumConstant => "EnumConstant"
  | parameter => "Parameter"
  | localVariable => "LocalVariable"
  | exceptionParameter => "ExceptionParameter"
  | resourceVariable => "ResourceVariable"
  | bindingVariable => "BindingVariable"
  | typeParameter => "TypeParameter"
  | recordComponent => "RecordComponent"

def ofName? (text : String) : Option ElementKind := all.find? (·.name == text)

def rank (k : ElementKind) : Nat := all.idxOf k

def sort (ks : List ElementKind) : List ElementKind := ks.mergeSort fun a b => a.rank ≤ b.rank

def isClass : ElementKind → Bool
  | classType | enumType | recordType => true
  | _ => false

def isInterface : ElementKind → Bool
  | interfaceType | annotationType => true
  | _ => false

def isType (k : ElementKind) : Bool := k.isClass || k.isInterface

def isExecutable : ElementKind → Bool
  | constructor | method => true
  | _ => false

/-- Variables that only exist inside the body of an executable. -/
def isLocal : ElementKind → Bool
  | localVariable | exceptionParameter | resourceVariable | bindingVariable => true
  | _ => false

def isVariable : ElementKind → Bool
  | field | enumConstant | parameter => true
  | k => k.isLocal

def isParameterizable (k : ElementKind) : Bool := k.isType || k.isExecutable

/-- Elements known by a qualified name; all others go by their simple name alone. -/
def isQualified (k : ElementKind) : Bool := k == module || k == package || k.isType

theorem ofName?_name (k : ElementKind) : ofName? k.name = some k := by
  cases k <;> rfl

end ElementKind

inductive TypeKind where
  | boolean | byte | short | int | long | char | float | double
  | void | none | null | array | declared | error | typeVariable | wildcard | package | module
  | executable | union | intersection
  deriving DecidableEq

inductive Primitive where
  | boolean | byte | short | int | long | char | float | double
  deriving DecidableEq

/-- Stand-ins where there is no type: nothing at all, no result, and the types of containers. -/
inductive NoType where
  | none | void | package | module
  deriving DecidableEq

namespace Primitive

def all : List Primitive := [boolean, byte, short, int, long, char, float, double]

def kind : Primitive → TypeKind
  | boolean => .boolean
  | byte => .byte
  | short => .short
  | int => .int
  | long => .long
  | char => .char
  | float => .float
  | double => .double

def keyword : Primitive → String
  | boolean => "boolean"
  | byte => "byte"
  | short => "short"
  | int => "int"
  | long => "long"
  | char => "char"
  | float => "float"
  | double => "double"

/-- Widening; `char` widens to `int` but not to `short`, and nothing widens to or from `boolean`. -/
def widensTo : Primitive → Primitive → Bool
  | byte, short | byte, int | byte, long | byte, float | byte, double => true
  | short, int | short, long | short, float | short, double => true
  | char, int | char, long | char, float | char, double => true
  | int, long | int, float | int, double => true
  | long, float | long, double => true
  | float, double => true
  | p, q => p == q

end Primitive

namespace NoType

def kind : NoType → TypeKind
  | none => .none
  | void => .void
  | package => .package
  | module => .module

def keyword : NoType → String
  | none => "none"
  | void => "void"
  | package => "package"
  | module => "module"

end NoType

namespace TypeKind

def all : List TypeKind :=
  [boolean, byte, short, int, long, char, float, double, void, none, null, array, declared, error,
    typeVariable, wildcard, package, module, executable, union, intersection]

def name : TypeKind → String
  | boolean => "Boolean"
  | byte => "Byte"
  | short => "Short"
  | int => "Int"
  | long => "Long"
  | char => "Char"
  | float => "Float"
  | double => "Double"
  | void => "Void"
  | none => "None"
  | null => "Null"
  | array => "Array"
  | declared => "Declared"
  | error => "Error"
  | typeVariable => "TypeVar"
  | wildcard => "Wildcard"
  | package => "Package"
  | module => "Module"
  | executable => "Executable"
  | union => "Union"
  | intersection => "Intersection"

def ofName? (text : String) : Option TypeKind := all.find? (·.name == text)

def rank (k : TypeKind) : Nat := all.idxOf k

def sort (ks : List TypeKind) : List TypeKind := ks.mergeSort fun a b => a.rank ≤ b.rank

def primitive? (k : TypeKind) : Option Primitive := Primitive.all.find? (·.kind == k)

def isPrimitive (k : TypeKind) : Bool := k.primitive?.isSome

def noType? : TypeKind → Option NoType
  | none => some .none
  | void => some .void
  | package => some .package
  | module => some .module
  | _ => Option.none

def isNoType (k : TypeKind) : Bool := k.noType?.isSome

def isReference : TypeKind → Bool
  | array | declared | error | typeVariable | null | union | intersection => true
  | _ => false

def keyword? (k : TypeKind) : Option String :=
  if k = void then some NoType.void.keyword else k.primitive?.map Primitive.keyword

theorem ofName?_name (k : TypeKind) : ofName? k.name = some k := by
  cases k <;> rfl

end TypeKind

inductive Modifier where
  | publicAccess | protectedAccess | privateAccess
  | abstract | default | static | sealed | final
  deriving DecidableEq

namespace Modifier

def all : List Modifier :=
  [publicAccess, protectedAccess, privateAccess, abstract, default, static, sealed, final]

def name : Modifier → String
  | publicAccess => "Public"
  | protectedAccess => "Protected"
  | privateAccess => "Private"
  | abstract => "Abstract"
  | default => "Default"
  | static => "Static"
  | sealed => "Sealed"
  | final => "Final"

def keyword : Modifier → String
  | publicAccess => "public"
  | protectedAccess => "protected"
  | privateAccess => "private"
  | abstract => "abstract"
  | default => "default"
  | static => "static"
  | sealed => "sealed"
  | final => "final"

def ofName? (text : String) : Option Modifier := all.find? (·.name == text)

def rank (m : Modifier) : Nat := all.idxOf m

def sort (ms : List Modifier) : List Modifier := ms.mergeSort fun a b => a.rank ≤ b.rank

theorem ofName?_name (m : Modifier) : ofName? m.name = some m := by
  cases m <;> rfl

end Modifier

inductive Nesting where
  | topLevel | member | body
  deriving DecidableEq

def Nesting.name : Nesting → String
  | .topLevel => "TopLevel"
  | .member => "Member"
  | .body => "Local"

end Nominal
