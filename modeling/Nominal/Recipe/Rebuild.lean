import Nominal.Recipe.Value
import Nominal.Types.Factory
import Nominal.Types.Membership
/-!
Following a recipe in a domain. The number of arguments is checked first, then that the recipe is
one of this domain; arguments are followed from left to right and the first refusal ends it all.
-/

namespace Nominal

/-- Following a recipe; what was completed and added before a refusal stays. -/
abbrev Rebuilding := ExceptT Refusal StoreM

namespace Rebuilding

structure Argument where
  recipe : Recipe
  value : Rebuilding Value

def ofChecked {α : Type} (m : Checked α) : Rebuilding α := ExceptT.adapt .fault m

def name (a : Argument) : Rebuilding String := do
  match ← a.value with
  | .name key =>
    match (← get).names.get? key with
    | some text => return text
    | none => throw (.unresolvedName key)
  | _ => throw (.shape "name argument" "a name")

def typeKind (a : Argument) : Rebuilding TypeKind := do
  match ← a.value with
  | .typeKind k => return k
  | _ => throw (.shape "kind argument" "a type kind")

def elementKind (context : String) (a : Argument) : Rebuilding ElementKind := do
  match ← a.value with
  | .elementKind k => return k
  | _ => throw (.shape context "an element kind")

def element (context : String) (a : Argument) : Rebuilding ElementId := do
  match ← a.value with
  | .element e => return e
  | _ => throw (.shape context "an element")

def typeOf (context : String) : Value → Rebuilding TypeId
  | .type t => return t
  | _ => throw (.shape context "a type")

def type (context : String) (a : Argument) : Rebuilding TypeId := do typeOf context (← a.value)

def type? (context : String) (a : Argument) : Rebuilding (Option TypeId) := do
  match ← a.value with
  | .null => return none
  | v => some <$> typeOf context v

def types (context itemContext : String) (a : Argument) : Rebuilding (List TypeId) := do
  match ← a.value with
  | .list items => items.mapM (typeOf itemContext)
  | _ => throw (.shape context "a list")

def found (role name : String) : Option ElementId → Rebuilding Value
  | some e => return .element e
  | none => throw (.unresolved role name)

mutual

def annotationValue (member : String) : Value → Rebuilding AnnotationValue
  | .bool b => return .bool b
  | .int n => return .int n
  | .str text => return .str text
  | .type t => return .type t
  | .element e => do
    if (← StoreM.complete e).kind = .enumConstant then return .enumConstant e
    else throw (.shape s!"value of `{member}`" "an annotation value")
  | .list items => .array <$> annotationValues member items
  | _ => throw (.shape s!"value of `{member}`" "an annotation value")

def annotationValues (member : String) : List Value → Rebuilding (List AnnotationValue)
  | [] => return []
  | v :: rest => do
    let v ← annotationValue member v
    return v :: (← annotationValues member rest)

end

def annotationMember : Value × Value → Rebuilding (String × AnnotationValue)
  | (.str member, v) => return (member, ← annotationValue member v)
  | _ => throw (.shape "annotation member name" "a string")

def annotationOf (type : TypeId) : Value → Rebuilding Value
  | .map entries => do
    let members ← entries.mapM annotationMember
    return .annotationUse { type, values := .ofList members }
  | _ => throw (.shape "annotation values" "a map")

def annotationUse (type values : Argument) : Rebuilding Value := do
  let type ← Rebuilding.type "annotation type" type
  annotationOf type (← values.value)

def entryOf : Value → Rebuilding (Value × Value)
  | .entry k v => return (k, v)
  | _ => throw (.shape "map argument" "an entry")

def entry (a : Argument) : Rebuilding (Value × Value) := do entryOf (← a.value)

def pairs : List Argument → Rebuilding (List (Value × Value))
  | k :: v :: rest => do
    let k ← k.value
    let v ← v.value
    return (k, v) :: (← pairs rest)
  | _ => return []

/-- Invokes a factory, the domain's own recipe left out of the arguments. Elsewhere than in the hosted domain itself the
process is taken to host a program: a host that answers with a failure would refuse the recipe of its domain, and this
refusal is left out. -/
def build (own : Option Recipe) : Factory → List Argument → Rebuilding Value
  | .runtimeDomain, _ => return .domain (if own = some .runtime then .own else .runtime)
  | .name, [text] =>
    match text.recipe with
    | .str text => .name <$> StoreM.internName text
    | _ => throw (.shape "name" "a string")
  | .moduleElement, [n] => do
    let n ← name n
    found "module" n ((← get).module? n)
  | .packageElement, [n] => do
    let n ← name n
    found "package" n ((← get).package? n)
  | .typeElement, [n] => do
    let n ← name n
    found "type" n ((← get).typeElement? n)
  | .typeParameterElement, [generic, n] => do
    let generic ← element "generic element" generic
    let n ← name n
    found "type parameter" n (← StoreM.typeParameter? generic n)
  | .executableElement, [enclosing, kind, n, parameters] => do
    let enclosing ← element "enclosing element" enclosing
    let kind ← elementKind "executable kind" kind
    let n ← name n
    let parameters ← types "parameter types" "parameter type" parameters
    found kind.name n (← StoreM.executable? enclosing kind n parameters)
  | .variableElement, [enclosing, n] => do
    let enclosing ← element "enclosing element" enclosing
    let n ← name n
    found "variable" n (← StoreM.memberVariable? enclosing n)
  | .recordComponentElement, [record, n] => do
    let record ← element "record" record
    let n ← name n
    found "record component" n (← StoreM.recordComponent? record n)
  | .declaredType, [enclosing, e, arguments] => do
    let enclosing ← type? "enclosing type" enclosing
    let e ← element "type element" e
    let arguments ← types "type arguments" "type argument" arguments
    .type <$> ofChecked (StoreM.declaredType enclosing e arguments)
  | .arrayType, [component] => do
    let component ← type "component type" component
    .type <$> ofChecked (StoreM.arrayType component)
  | .primitiveType, [kind] => do
    let kind ← typeKind kind
    .type <$> ofChecked (liftExcept (StoreM.primitiveType kind))
  | .noType, [kind] => do
    let kind ← typeKind kind
    .type <$> ofChecked (liftExcept (StoreM.noType kind))
  | .nullType, _ => return .type .null
  | .typeVariable, [parameter] => do
    let parameter ← element "type parameter" parameter
    .type <$> ofChecked (StoreM.typeVariable parameter)
  | .wildcardType, [upper, lower] => do
    let upper ← type? "extends bound" upper
    let lower ← type? "super bound" lower
    .type <$> ofChecked (StoreM.wildcardType upper lower)
  | .annotationUse, [type, values] => annotationUse type values
  | .listOf _, items | .listOfArray, items => .list <$> items.mapM (·.value)
  | .mapOf _, args => .map <$> pairs args
  | .mapOfEntries, args => .map <$> args.mapM entry
  | .mapEntry, [k, v] => do
    let k ← k.value
    return .entry k (← v.value)
  | f, args => throw (.arity f (f.arity?.getD 0) args.length)

def checkArity (f : Factory) (found : Nat) : Rebuilding Unit :=
  match f.arity? with
  | some expected => if found = expected then return else throw (.arity f expected found)
  | none => return

def checkDomain (own : Option Recipe) (domain : Recipe) : Rebuilding Unit :=
  if own = some domain then return else throw .domainMismatch

def invoke (own : Option Recipe) (f : Factory) (args : List Argument) : Rebuilding Value := do
  checkArity f args.length
  if f.takesDomain then
    match args with
    | [] => throw (.arity f 1 0)
    | domain :: args =>
      checkDomain own domain.recipe
      build own f args
  else build own f args

mutual

def rebuild (own : Option Recipe) : Recipe → Rebuilding Value
  | .null => return .null
  | .bool b => return .bool b
  | .int n => return .int n
  | .str text => return .str text
  | .elementKind k => return .elementKind k
  | .typeKind k => return .typeKind k
  | .invoke f args => invoke own f (arguments own args)

def arguments (own : Option Recipe) : List Recipe → List Argument
  | [] => []
  | r :: rest => ⟨r, rebuild own r⟩ :: arguments own rest

end

def rebuildType (own : Option Recipe) (r : Recipe) : Rebuilding TypeId := do
  typeOf "descriptor" (← rebuild own r)

def rebuildElement (own : Option Recipe) (r : Recipe) : Rebuilding ElementId := do
  match ← rebuild own r with
  | .element e => return e
  | _ => throw (.shape "descriptor" "an element")

def rebuildAnnotationUse (own : Option Recipe) (r : Recipe) : Rebuilding AnnotationUse := do
  match ← rebuild own r with
  | .annotationUse a => return a
  | _ => throw (.shape "descriptor" "an annotation")

end Rebuilding

end Nominal
